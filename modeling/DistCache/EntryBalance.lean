import DistCache.CacheEngine
import DistCache.RunTotals

/-!
# What becomes of the entries

Every entry of the cache was created by a write, and it is still there or was
deleted, evicted, flushed or removed because its deadline had passed.  The
counters tell of all but the last: a read that finds an entry expired hands its
key to the counter, and for the empty key this is the text that stands for no
key, while `IncrBy` hands over nothing at all.  The counters balance until one
of these removals happens and never again.
-/

namespace DistCache

open DeadlineStore Eviction RunTotals

/-! ## The number of entries of a shard -/

namespace Shard

variable {s : Shard} {key : Key} {it : Item} {now : ℤ}

theorem len_eq_weight (items : AList fun _ : Key => Item) :
    items.keys.length = AListSum.weight (fun _ _ => 1) items := by
  simp [AListSum.weight, AList.keys, List.keys]

theorem len_erase (hlookup : s.items.lookup key = some it) :
    s.len = (s.items.erase key).keys.length + 1 := by
  rw [len, len_eq_weight, len_eq_weight, AListSum.weight_of_lookup _ hlookup, add_comm]

theorem len_insert (items : AList fun _ : Key => Item) (key : Key) (it : Item) :
    (items.insert key it).keys.length = items.keys.length + if key ∈ items then 0 else 1 := by
  rw [len_eq_weight, AListSum.weight_insert, len_eq_weight]
  by_cases hmem : key ∈ items
  · obtain ⟨old, hlookup⟩ := Option.isSome_iff_exists.mp (AList.lookup_isSome.mpr hmem)
    rw [if_pos hmem]
    exact (AListSum.weight_of_lookup (fun _ _ => (1 : ℕ)) hlookup).symm
  · have hlookup := AList.lookup_eq_none.mpr hmem
    rw [if_neg hmem, AListSum.weight_erase_of_lookup_none _ hlookup, add_comm]

theorem len_setLocked (s : Shard) (key : Key) (value : Bytes) (expireAt : ℤ) :
    (s.setLocked key value expireAt).len = s.len + if key ∈ s.items then 0 else 1 := by
  have hinsert : (s.setLocked key value expireAt).items = s.items.insert key ⟨value, expireAt⟩ := by
    unfold setLocked
    cases s.items.lookup key <;> rfl
  rw [len, hinsert, len_insert, len]

theorem len_retime (hlookup : s.items.lookup key = some it) (expireAt : ℤ) :
    (s.retime key it expireAt).len = s.len := by
  have hmem : key ∈ s.items := by
    rw [← AList.lookup_isSome, hlookup]
    rfl
  have hinsert := len_insert s.items key (it.retime expireAt)
  rw [if_pos hmem] at hinsert
  exact hinsert

theorem len_enforceLoop (protectedKey : Key) (fuel : ℕ) (s : Shard) :
    (enforceLoop protectedKey fuel s).1.len + (enforceLoop protectedKey fuel s).2.length =
      s.len := by
  induction fuel generalizing s with
  | zero => rfl
  | succ fuel ih =>
      rw [enforceLoop]
      unfold enforceTurn
      by_cases hover : s.OverCapacity
      · rw [if_pos hover]
        cases s.policy.evict.1 with
        | none => rfl
        | some victim =>
            dsimp only
            by_cases hprotected : victim = protectedKey
            · rw [if_pos hprotected]
              rfl
            · rw [if_neg hprotected]
              cases hlookup : s.items.lookup victim with
              | none => exact ih _
              | some it =>
                  rw [len_erase hlookup, List.length_cons, ← Nat.add_assoc]
                  exact congrArg (· + 1) (ih _)
      · rw [if_neg hover]
        rfl

theorem len_set (s : Shard) (key : Key) (value : Bytes) (expireAt : ℤ) :
    (s.set key value expireAt).shard.len + (s.set key value expireAt).result.length =
      s.len + if key ∈ s.items then 0 else 1 := by
  rw [← len_setLocked s key value expireAt]
  exact len_enforceLoop key _ _

theorem len_sweepLoop (now : ℤ) (order : List Key) (s : Shard) :
    (sweepLoop now order s).1.len + (sweepLoop now order s).2.length = s.len := by
  induction order generalizing s with
  | nil => rfl
  | cons key rest ih =>
      unfold sweepLoop
      cases hlookup : s.items.lookup key with
      | none => exact ih s
      | some it =>
          by_cases hexpired : it.expired now
          · simp only [if_pos hexpired, List.length_cons]
            rw [len_erase hlookup, ← Nat.add_assoc]
            exact congrArg (· + 1) (ih _)
          · simp only [if_neg hexpired]
            exact ih s

def Overdue (s : Shard) (key : Key) (now : ℤ) : Prop :=
  ∃ it, s.items.lookup key = some it ∧ it.expired now

instance (s : Shard) (key : Key) (now : ℤ) : Decidable (s.Overdue key now) :=
  match hlookup : s.items.lookup key with
  | none => isFalse fun ⟨it, hit, _⟩ => by
      rw [hlookup] at hit
      contradiction
  | some it =>
      decidable_of_iff (it.expired now)
        ⟨fun hexpired => ⟨it, hlookup, hexpired⟩, fun ⟨other, hother, hexpired⟩ => by
          rw [hlookup] at hother
          rw [Option.some.inj hother]
          exact hexpired⟩

theorem overdue_of_lookup (hlookup : s.items.lookup key = some it) :
    s.Overdue key now ↔ it.expired now := by
  constructor
  · rintro ⟨other, hother, hexpired⟩
    rw [hlookup] at hother
    rw [Option.some.inj hother]
    exact hexpired
  · exact fun hexpired => ⟨it, hlookup, hexpired⟩

theorem not_overdue_of_none (hlookup : s.items.lookup key = none) : ¬ s.Overdue key now := by
  rintro ⟨it, hit, _⟩
  rw [hlookup] at hit
  contradiction

/-- A read takes an overdue entry away and names its key to the counter, which
takes the empty key for none. -/
def ReadBalance (s : Shard) (key : Key) (now : ℤ) (next : Shard) (name : Key) : Prop :=
  s.len = next.len + expiredCount name + (if key = [] ∧ s.Overdue key now then 1 else 0) ∧
    (if s.Overdue key now then 1 else 0) =
      expiredCount name + if key = [] ∧ s.Overdue key now then 1 else 0

theorem lookupLive_balance {α : Type} {absent gone : α} {found : Item → Outcome α} (name : α → Key)
    (habsent : name absent = []) (hgone : name gone = key)
    (hfound : ∀ it, s.items.lookup key = some it →
      (found it).shard.len = s.len ∧ name (found it).result = []) :
    s.ReadBalance key now (s.lookupLive key now absent gone found).shard
      (name (s.lookupLive key now absent gone found).result) := by
  apply lookupLive_rule (P := fun o => s.ReadBalance key now o.shard (name o.result))
  · intro hlookup
    simp [ReadBalance, habsent, not_overdue_of_none hlookup, expiredCount]
  · intro it hlookup hexpired
    have hlen : s.len = (s.removeLocked key it).len + 1 := len_erase hlookup
    have hoverdue : s.Overdue key now := ⟨it, hlookup, hexpired⟩
    simp only [ReadBalance, hgone, hoverdue, expiredCount, and_true]
    split_ifs <;> omega
  · intro it hlookup hfresh
    have hnot : ¬ s.Overdue key now := fun hoverdue =>
      hfresh ((overdue_of_lookup hlookup).mp hoverdue)
    simp [ReadBalance, hnot, expiredCount, hfound it hlookup]

theorem sweepExpired_balance (s : Shard) (now : ℤ) (sample : ℕ) (order : List Key) :
    s.len = (s.sweepExpired now sample order).shard.len +
      (s.sweepExpired now sample order).result.length :=
  (len_sweepLoop now (order.take sample) s).symm

theorem del_balance (s : Shard) (key : Key) :
    s.len = (s.del key).shard.len + if (s.del key).result then 1 else 0 := by
  unfold del
  cases hlookup : s.items.lookup key with
  | none => rfl
  | some it => exact len_erase hlookup

theorem counterBase_balance {base : Shard × ℤ} (hbase : s.counterBase key now = some base) :
    s.len = base.1.len + if s.Overdue key now then 1 else 0 := by
  unfold counterBase at hbase
  cases hlookup : s.items.lookup key with
  | none =>
      simp only [hlookup, Option.some.injEq] at hbase
      rw [if_neg (not_overdue_of_none hlookup), ← hbase]
      rfl
  | some it =>
      simp only [hlookup] at hbase
      by_cases hexpired : it.expired now
      · rw [if_pos hexpired, Option.some.injEq] at hbase
        rw [if_pos ⟨it, hlookup, hexpired⟩, ← hbase]
        exact len_erase hlookup
      · rw [if_neg hexpired, Option.map_eq_some_iff] at hbase
        obtain ⟨number, _, rfl⟩ := hbase
        rw [if_neg fun hoverdue => hexpired ((overdue_of_lookup hlookup).mp hoverdue)]
        rfl

theorem not_overdue_of_counterBase (hbase : s.counterBase key now = none) :
    ¬ s.Overdue key now := by
  rintro ⟨it, hlookup, hexpired⟩
  simp only [counterBase, hlookup, if_pos hexpired] at hbase
  contradiction

end Shard

/-! ## What one step does to the entries -/

variable {L : Layout}

namespace KeyOp

def created (clock : Clock) (op : KeyOp L) (s : Shard) : ℕ :=
  match op with
  | .setTTL key _ _ => if key ∈ s.items then 0 else 1
  | .incrBy key _ =>
      match s.counterBase key clock.first with
      | none => 0
      | some (s', _) => if key ∈ s'.items then 0 else 1
  | _ => 0

def outdated (clock : Clock) (op : KeyOp L) (s : Shard) : ℕ :=
  match op with
  | .get key | .exists_ key | .ttl key | .incrBy key _ =>
      if s.Overdue key clock.first then 1 else 0
  | .expire key _ => if s.Overdue key clock.second then 1 else 0
  | .sweepExpired _ sample order => (s.sweepExpired clock.first sample order).result.length
  | _ => 0

def flushed (op : KeyOp L) (s : Shard) : ℕ :=
  match op with
  | .flush _ => s.len
  | _ => 0

/-- The step removes an entry whose deadline has passed and tells no counter:
it reads the empty key, or it is `IncrBy`. -/
def Unreported (clock : Clock) (op : KeyOp L) (s : Shard) : Prop :=
  match op with
  | .get key | .exists_ key | .ttl key => key = [] ∧ s.Overdue key clock.first
  | .expire key _ => key = [] ∧ s.Overdue key clock.second
  | .incrBy key _ => s.Overdue key clock.first
  | _ => False

instance (clock : Clock) (op : KeyOp L) (s : Shard) : Decidable (op.Unreported clock s) :=
  match op with
  | .get _ | .exists_ _ | .ttl _ | .expire _ _ => inferInstanceAs (Decidable (_ ∧ _))
  | .incrBy key _ => inferInstanceAs (Decidable (s.Overdue key clock.first))
  | .setTTL _ _ _ | .delete _ | .sweepExpired _ _ _ | .keys _ | .len _ | .flush _ =>
      inferInstanceAs (Decidable False)

def unreported (clock : Clock) (op : KeyOp L) (s : Shard) : ℕ :=
  if op.Unreported clock s then 1 else 0

theorem run_balance (clock : Clock) (op : KeyOp L) (s : Shard) :
    let o := op.run clock s
    s.len + op.created clock s =
        o.shard.len + o.result.2.dels + o.result.2.evictions + o.result.2.expirations +
          (op.unreported clock s + op.flushed s) ∧
      op.outdated clock s = o.result.2.expirations + op.unreported clock s := by
  cases op with
  | setTTL key value ttl =>
      exact ⟨(s.len_set key value (deadline clock.first ttl)).symm, rfl⟩
  | get key =>
      have hread : s.ReadBalance key clock.first (s.get key clock.first).shard
          (s.get key clock.first).result.2.2 :=
        Shard.lookupLive_balance (fun r : Bytes × Bool × Key => r.2.2) rfl rfl fun _ _ => ⟨rfl, rfl⟩
      exact hread
  | delete key => exact ⟨s.del_balance key, rfl⟩
  | exists_ key =>
      have hread : s.ReadBalance key clock.first (s.exists_ key clock.first).shard
          (s.exists_ key clock.first).result.2 :=
        Shard.lookupLive_balance Prod.snd rfl rfl fun _ _ => ⟨rfl, rfl⟩
      exact hread
  | expire key ttl =>
      have hread : s.ReadBalance key clock.second
          (s.expire key (deadline clock.first ttl) clock.second).shard
          (s.expire key (deadline clock.first ttl) clock.second).result.2 :=
        Shard.lookupLive_balance Prod.snd rfl rfl fun _ hlookup =>
          ⟨Shard.len_retime hlookup _, rfl⟩
      exact hread
  | ttl key =>
      have hread : s.ReadBalance key clock.first (s.ttl key clock.first).shard
          (s.ttl key clock.first).result.2.2 :=
        Shard.lookupLive_balance (fun r : ℤ × Bool × Key => r.2.2) rfl rfl fun _ _ => ⟨rfl, rfl⟩
      exact hread
  | incrBy key delta =>
      cases hbase : s.counterBase key clock.first with
      | none =>
          have hnot := Shard.not_overdue_of_counterBase hbase
          simp [run, Shard.incrBy, created, flushed, unreported, Unreported, outdated, hbase, hnot]
      | some base =>
          obtain ⟨s', start⟩ := base
          have hstart : s.len = s'.len + if s.Overdue key clock.first then 1 else 0 :=
            Shard.counterBase_balance hbase
          have hset := s'.len_set key (formatInt (int64 (start + delta))) 0
          simp only [run, Shard.incrBy, created, flushed, unreported, Unreported, outdated, hbase]
          by_cases hoverdue : s.Overdue key clock.first
          · rw [if_pos hoverdue] at hstart
            simp only [hoverdue, if_true]
            exact ⟨by omega, trivial⟩
          · rw [if_neg hoverdue] at hstart
            simp only [hoverdue, if_false]
            exact ⟨by omega, trivial⟩
  | sweepExpired shard sample order =>
      exact ⟨s.sweepExpired_balance clock.first sample order, rfl⟩
  | keys shard => exact ⟨rfl, rfl⟩
  | len shard => exact ⟨rfl, rfl⟩
  | flush shard =>
      refine ⟨?_, rfl⟩
      change s.len = 0 + 0 + 0 + 0 + (0 + s.len)
      omega

end KeyOp

/-! ## What a run does to the entries -/

namespace Cache

def next (c : Cache L) (step : Step L) : Cache L := (c.exec step).1

theorem execAll_fst (c : Cache L) (steps : List (Step L)) :
    (c.execAll steps).1 = steps.foldl next c := by
  induction steps generalizing c with
  | nil => rfl
  | cons step rest ih => exact ih (c.exec step).1

/-- What a step does to the entries of the shard that it works on. -/
def amount (f : Clock → KeyOp L → Shard → ℕ) (c : Cache L) (step : Step L) : ℕ :=
  f step.clock step.op (c.shards step.op.shard)

def created (c : Cache L) (steps : List (Step L)) : ℕ :=
  total next (amount KeyOp.created) c steps

def outdated (c : Cache L) (steps : List (Step L)) : ℕ :=
  total next (amount KeyOp.outdated) c steps

def flushed (c : Cache L) (steps : List (Step L)) : ℕ :=
  total next (amount fun _ => KeyOp.flushed) c steps

theorem len_next (c : Cache L) (step : Step L) :
    (c.next step).len + (c.shards step.op.shard).len =
      c.len + (step.op.run step.clock (c.shards step.op.shard)).shard.len := by
  set i := step.op.shard
  have hsum : ∀ d : Cache L, d.len = ∑ j, (d.shards j).len := fun d =>
    (Fin.sum_univ_def fun j => (d.shards j).len).symm
  have hother : ∀ j, j ≠ i → ((c.next step).shards j).len = (c.shards j).len := by
    intro j hj
    rw [next, shards_exec, if_neg hj]
  rw [hsum, hsum, ← Finset.add_sum_erase _ _ (Finset.mem_univ i),
    ← Finset.add_sum_erase _ (fun j => (c.shards j).len) (Finset.mem_univ i),
    Finset.sum_congr rfl fun j hj => hother j (Finset.ne_of_mem_erase hj), next, shards_exec,
    if_pos rfl]
  omega

/-- The entries that are there and those that the counters tell of. -/
def told (c : Cache L) : ℕ :=
  c.len + c.counters.dels + c.counters.evictions + c.counters.expirations

theorem told_next (c : Cache L) (step : Step L) :
    c.told + amount KeyOp.created c step =
      (c.next step).told +
        (amount KeyOp.unreported c step + amount (fun _ => KeyOp.flushed) c step) := by
  have hlen := c.len_next step
  have hbalance := (step.op.run_balance step.clock (c.shards step.op.shard)).1
  simp only [told, amount, next, exec, Counters.add] at hlen hbalance ⊢
  omega

theorem expirations_next (c : Cache L) (step : Step L) :
    c.counters.expirations + amount KeyOp.outdated c step =
      (c.next step).counters.expirations + amount KeyOp.unreported c step := by
  have hbalance := (step.op.run_balance step.clock (c.shards step.op.shard)).2
  simp only [amount, next, exec, Counters.add]
  omega

/-- The counters tell of every entry that was created as long as no step removes
an entry whose deadline has passed without a word: neither `IncrBy` nor a read
of the empty key finds one.  The expirations are then the entries removed for
their deadlines, and they fall short of these from the first such step on. -/
theorem entries_told_iff (cfg : Config) (hash : Key → ℕ) (rng : ℕ → ℕ → ℕ)
    (ops : List (Operation (cfg.layout hash))) :
    let start := Cache.new cfg hash rng
    let steps := ops.flatMap Operation.steps
    let final := (start.perform ops).1
    let reported := ∀ before step after, steps = before ++ step :: after →
      ¬ step.op.Unreported step.clock ((start.execAll before).1.shards step.op.shard)
    (start.created steps =
        final.len + final.counters.dels + final.counters.evictions +
          final.counters.expirations + start.flushed steps ↔ reported) ∧
      (final.counters.expirations = start.outdated steps ↔ reported) := by
  intro start steps final reported
  have hfinal : final = steps.foldl next start := execAll_fst start steps
  have hempty : start.told = 0 := by
    have hlen : start.len = 0 := by
      have hsum := Fin.sum_univ_def fun i => (start.shards i).len
      rw [len, ← hsum]
      exact Finset.sum_eq_zero fun i _ => rfl
    exact hlen
  have htold := level_add_total next told_next start steps
  rw [hempty, total_add, ← hfinal, Nat.zero_add] at htold
  have houtdated := level_add_total next expirations_next start steps
  rw [← hfinal] at houtdated
  have hzero : total next (amount KeyOp.unreported) start steps = 0 ↔ reported := by
    rw [total_eq_zero_iff]
    simp only [reported, execAll_fst, amount, KeyOp.unreported, ite_eq_right_iff, one_ne_zero,
      imp_false]
  have hstart : start.counters.expirations = 0 := rfl
  rw [← hzero]
  unfold created outdated flushed
  unfold told at htold
  constructor
  · omega
  · omega

/-- The counter over an expired entry makes a second entry, and the first one is
in no counter. -/
theorem incrBy_over_expired_untold :
    let ops : List (Operation (Config.layout ⟨1, 0, 0, .lru⟩ List.length)) :=
      [.setTTL ⟨0, 0⟩ [97] [49] 5, .incrBy ⟨10, 10⟩ [97] 1]
    let start := Cache.new ⟨1, 0, 0, .lru⟩ List.length fun _ _ => 0
    let final := (start.perform ops).1
    start.created (ops.flatMap Operation.steps) = 2 ∧
      final.len + final.counters.dels + final.counters.evictions +
        final.counters.expirations + start.flushed (ops.flatMap Operation.steps) = 1 := by
  decide +kernel

end Cache
end DistCache
