import DistCache.CacheEvents
import DistCache.WriteLimits

/-!
# The entry cap of the whole cache

The cap on the entries is shared out among the shards, and each shard enforces
its share on its own.  A share is rounded down, but it is at least one.  With
`lru` every shard keeps to its share, so that the shares bound the cache: they
add up to no more than the cap if there are no more shards than entries.  With
more shards than that every shard may hold its one entry, and the cache exceeds
its cap.
-/

namespace DistCache

open DeadlineStore Eviction

variable {L : Layout}

namespace Cache

/-! ## A run of the cache is a run of each shard -/

def act (c : Cache L) : Operation L ⊕ Event → Cache L
  | .inl op => (c.perform [op]).1
  | .inr ev => c.applyEvent ev

theorem shard_exec (c : Cache L) (step : Step L) (i : Fin L.shards) :
    ∃ ops, (c.exec step).1.shards i = ShardOp.runAll (c.shards i) ops := by
  rw [shards_exec]
  split_ifs
  · exact ⟨step.op.shardOps step.clock, KeyOp.shard_run step.clock step.op (c.shards i)⟩
  · exact ⟨[], rfl⟩

theorem shard_execAll (c : Cache L) (steps : List (Step L)) (i : Fin L.shards) :
    ∃ ops, (c.execAll steps).1.shards i = ShardOp.runAll (c.shards i) ops := by
  induction steps generalizing c with
  | nil => exact ⟨[], rfl⟩
  | cons step rest ih =>
      obtain ⟨first, hfirst⟩ := c.shard_exec step i
      obtain ⟨later, hlater⟩ := ih (c.exec step).1
      refine ⟨first ++ later, ?_⟩
      rw [ShardOp.runAll, List.foldl_append]
      rw [hfirst] at hlater
      exact hlater

theorem shard_modifyShard (c : Cache L) (j : Fin L.shards) (op : ShardOp) (i : Fin L.shards) :
    ∃ ops, (c.modifyShard j fun s => ShardOp.run s op).shards i =
      ShardOp.runAll (c.shards i) ops := by
  by_cases hi : i = j
  · subst hi
    exact ⟨[op], by simp [modifyShard, ShardOp.runAll]⟩
  · exact ⟨[], by simp [modifyShard, hi, ShardOp.runAll]⟩

theorem shard_act (c : Cache L) (action : Operation L ⊕ Event) (i : Fin L.shards) :
    ∃ ops, (c.act action).shards i = ShardOp.runAll (c.shards i) ops := by
  cases action with
  | inl op => exact c.shard_execAll _ i
  | inr ev =>
      simp only [act, applyEvent]
      cases ev.op with
      | opSet => exact c.shard_modifyShard _ (.applySet ev.key ev.value ev.expireAt) i
      | opDel => exact c.shard_modifyShard _ (.applyDel ev.key) i
      | opExpire => exact c.shard_modifyShard _ (.applyExpire ev.key ev.expireAt) i
      | opFlush => exact ⟨[.flushSilent], rfl⟩
      | other code => exact ⟨[], rfl⟩

theorem shard_foldl_act (c : Cache L) (actions : List (Operation L ⊕ Event))
    (i : Fin L.shards) :
    ∃ ops, (actions.foldl act c).shards i = ShardOp.runAll (c.shards i) ops := by
  induction actions generalizing c with
  | nil => exact ⟨[], rfl⟩
  | cons action rest ih =>
      obtain ⟨first, hfirst⟩ := c.shard_act action i
      obtain ⟨later, hlater⟩ := ih (c.act action)
      refine ⟨first ++ later, ?_⟩
      rw [ShardOp.runAll, List.foldl_append]
      rw [hfirst] at hlater
      exact hlater

/-! ## The shares bound the cache -/

theorem shard_len_le {maxEntries : ℤ} (hcap : 1 ≤ maxEntries) (maxMemory : ℤ) (rng : ℕ → ℕ)
    (ops : List ShardOp) :
    ((ShardOp.runAll (Shard.new (Eviction.new rng .lru) maxEntries maxMemory) ops).len : ℤ) ≤
      maxEntries := by
  have hsettled := Shard.settled_lru rng maxEntries maxMemory ops
  have hentries := ((Shard.configured_new rng .lru maxEntries maxMemory).runAll ops).maxEntries_eq
  have hbound := hsettled.bound
  unfold Shard.OverCapacity at hbound
  unfold Shard.len
  rw [hentries] at hbound
  omega

theorem len_le (c : Cache L) {bound : ℕ} (hshards : ∀ i, (c.shards i).len ≤ bound) :
    c.len ≤ L.shards * bound := by
  have hsum : ((List.finRange L.shards).map fun i => (c.shards i).len).sum ≤
      ((List.finRange L.shards).map fun i => (c.shards i).len).length • bound := by
    apply List.sum_le_card_nsmul
    intro n hn
    obtain ⟨i, -, rfl⟩ := List.mem_map.mp hn
    exact hshards i
  simpa [len] using hsum

theorem le_len (c : Cache L) (hshards : ∀ i, 1 ≤ (c.shards i).len) : L.shards ≤ c.len := by
  have hsum : ((List.finRange L.shards).map fun i => (c.shards i).len).length • 1 ≤
      ((List.finRange L.shards).map fun i => (c.shards i).len).sum := by
    apply List.card_nsmul_le_sum
    intro n hn
    obtain ⟨i, -, rfl⟩ := List.mem_map.mp hn
    exact hshards i
  simpa [len] using hsum

theorem len_le_cap {cfg : Config} (hlru : cfg.policy = .lru) (hcap : 1 ≤ cfg.maxEntries)
    (hshards : (cfg.withDefaults : ℤ) ≤ cfg.maxEntries) (hash : Key → ℕ) (rng : ℕ → ℕ → ℕ)
    (actions : List (Operation (cfg.layout hash) ⊕ Event)) :
    ((actions.foldl act (Cache.new cfg hash rng)).len : ℤ) ≤ cfg.maxEntries := by
  have hpos : (0 : ℤ) < cfg.withDefaults := by exact_mod_cast nextPow2_pos _
  have hquotient : 1 ≤ cfg.maxEntries / cfg.withDefaults :=
    Int.le_ediv_of_mul_le hpos (by omega)
  have hshare : perShard cfg.maxEntries cfg.withDefaults =
      cfg.maxEntries / cfg.withDefaults := by
    unfold perShard
    rw [if_pos (by omega)]
    omega
  have hbound : ∀ i, ((actions.foldl act (Cache.new cfg hash rng)).shards i).len ≤
      (cfg.maxEntries / cfg.withDefaults).toNat := by
    intro i
    obtain ⟨ops, hops⟩ := (Cache.new cfg hash rng).shard_foldl_act actions i
    have hle := shard_len_le hquotient (perShard cfg.maxMemory cfg.withDefaults) (rng i) ops
    rw [hops]
    simp only [Cache.new, hlru, hshare]
    omega
  have htotal := len_le _ hbound
  have hproduct : (cfg.withDefaults : ℤ) * (cfg.maxEntries / cfg.withDefaults) ≤
      cfg.maxEntries := Int.mul_ediv_self_le hpos.ne'
  calc ((actions.foldl act (Cache.new cfg hash rng)).len : ℤ)
      ≤ ((cfg.withDefaults * (cfg.maxEntries / cfg.withDefaults).toNat : ℕ) : ℤ) := by
        exact_mod_cast htotal
    _ = cfg.withDefaults * (cfg.maxEntries / cfg.withDefaults) := by
        rw [Nat.cast_mul, Int.toNat_of_nonneg (by omega)]
    _ ≤ cfg.maxEntries := hproduct

/-! ## More shards than entries -/

theorem nextPow2Loop_eq_two_pow {n fuel k : ℕ} : ∃ j, nextPow2Loop n fuel (2 ^ k) = 2 ^ j := by
  induction fuel generalizing k with
  | zero => exact ⟨k, rfl⟩
  | succ fuel ih =>
      unfold nextPow2Loop
      split_ifs
      · have hdouble : 2 * 2 ^ k = 2 ^ (k + 1) := by rw [pow_succ, mul_comm]
        rw [hdouble]
        exact ih
      · exact ⟨k, rfl⟩

theorem withDefaults_eq_two_pow (cfg : Config) : ∃ j, cfg.withDefaults = 2 ^ j := by
  unfold Config.withDefaults nextPow2
  split_ifs
  · exact ⟨0, rfl⟩
  · exact nextPow2Loop_eq_two_pow (k := 0)
  · exact ⟨0, rfl⟩
  · exact nextPow2Loop_eq_two_pow (k := 0)

theorem index_replicate (cfg : Config) (i : Fin (cfg.layout List.length).shards) :
    (cfg.layout List.length).index (List.replicate i.val 0) = i := by
  obtain ⟨j, hj⟩ := withDefaults_eq_two_pow cfg
  have hlt : i.val < 2 ^ j := hj ▸ i.isLt
  apply Fin.ext
  show (List.replicate i.val (0 : UInt8)).length &&& (cfg.withDefaults - 1) = i.val
  rw [List.length_replicate, hj, Nat.and_two_pow_sub_one_eq_mod, Nat.mod_eq_of_lt hlt]

theorem one_le_len_of_view {s : Shard} {key : Key} {it : Item} (hview : s.view key = some it) :
    1 ≤ s.len :=
  List.length_pos_of_mem (Shard.mem_keys_of_lookup hview)

theorem one_le_len_set (c : Cache L) (key : Key) (value : Bytes) {i : Fin L.shards}
    (hi : i = L.index key ∨ 1 ≤ (c.shards i).len) :
    1 ≤ ((c.act (.inl (.set key value))).shards i).len := by
  have hact : (c.act (.inl (.set key value))).shards =
      Function.update c.shards (L.index key) ((c.shards (L.index key)).set key value 0).shard :=
    rfl
  rw [hact]
  by_cases hkey : i = L.index key
  · rw [hkey, Function.update_self]
    exact one_le_len_of_view (Shard.view_set_self _ key value 0)
  · rw [Function.update_of_ne hkey]
    exact hi.resolve_left hkey

theorem one_le_len_sets (c : Cache L) (keys : List Key) {i : Fin L.shards}
    (hi : i ∈ keys.map L.index ∨ 1 ≤ (c.shards i).len) :
    1 ≤ (((keys.map fun key => (.inl (.set key []) : Operation L ⊕ Event)).foldl
      act c).shards i).len := by
  induction keys generalizing c with
  | nil => exact hi.resolve_left List.not_mem_nil
  | cons key rest ih =>
      apply ih
      rcases hi with hmem | hheld
      · rcases List.mem_cons.mp hmem with hfirst | hrest
        · exact Or.inr (one_le_len_set c key [] (Or.inl hfirst))
        · exact Or.inl hrest
      · exact Or.inr (one_le_len_set c key [] (Or.inr hheld))

/-- The cap bounds the cache, for every hash and after any operations, exactly if
there are no more shards than entries. -/
theorem len_le_cap_iff (shards maxEntries maxMemory : ℤ) (hcap : 1 ≤ maxEntries) :
    (∀ (hash : Key → ℕ) (rng : ℕ → ℕ → ℕ)
        (actions : List (Operation (Config.layout ⟨shards, maxEntries, maxMemory, .lru⟩ hash) ⊕
          Event)),
        ((actions.foldl act
          (Cache.new ⟨shards, maxEntries, maxMemory, .lru⟩ hash rng)).len : ℤ) ≤ maxEntries) ↔
      (Config.withDefaults ⟨shards, maxEntries, maxMemory, .lru⟩ : ℤ) ≤ maxEntries := by
  constructor
  · intro hall
    let cfg : Config := ⟨shards, maxEntries, maxMemory, .lru⟩
    let keys : List Key := (List.finRange cfg.withDefaults).map fun i : Fin _ =>
      List.replicate i.val 0
    have hfilled := (((keys.map fun key =>
      (.inl (.set key []) : Operation (cfg.layout List.length) ⊕ Event)).foldl act
        (Cache.new cfg List.length fun _ _ => 0))).le_len (by
      intro i
      apply one_le_len_sets
      left
      rw [List.map_map]
      exact List.mem_map.mpr ⟨i, List.mem_finRange i, index_replicate cfg i⟩)
    have hle := hall List.length (fun _ _ => 0) (keys.map fun key => .inl (.set key []))
    have hshards : (cfg.layout List.length).shards = cfg.withDefaults := rfl
    rw [hshards] at hfilled
    exact le_trans (by exact_mod_cast hfilled) hle
  · intro hshards hash rng actions
    exact len_le_cap rfl hcap hshards hash rng actions

/-- Two shards and three entries: each shard keeps to one. -/
theorem len_le_cap_two_shards :
    ((([.inl (.set [97] [1]), .inl (.set [98] [1]), .inl (.set [99, 99] [1])] :
        List (Operation (Config.layout ⟨2, 3, 0, .lru⟩ List.length) ⊕ Event)).foldl act
      (Cache.new ⟨2, 3, 0, .lru⟩ List.length fun _ _ => 0)).len : ℤ) ≤ 3 :=
  (len_le_cap_iff 2 3 0 (by decide)).mpr (by decide) List.length (fun _ _ => 0) _

/-- One entry and two shards: two keys in different shards are both kept. -/
theorem len_exceeds_cap :
    (([.inl (.set [97] [1]), .inl (.set [98, 98] [1])] :
        List (Operation (Config.layout ⟨2, 1, 0, .lru⟩ List.length) ⊕ Event)).foldl act
      (Cache.new ⟨2, 1, 0, .lru⟩ List.length fun _ _ => 0)).len = 2 := by
  decide +kernel

end Cache
end DistCache
