import Mathlib.Data.List.TakeWhile
import DistCache.EvictionOrder
import DistCache.LruEviction

/-!
# How far a write gets

A write ends within the limits of its shard, or with its key alone in it, exactly if the
keys that the policy gives up before the written one are enough.  `lru` gives up all
others first.  `lfu` keeps those that are used more often than the key will have been,
`fifo` those inserted after it, `random` those drawn after it, and `ttl` those with a
later deadline; among equal deadlines the places in the heap decide.
-/

namespace DistCache

open DeadlineStore Eviction

namespace Eviction

/-! ## The order of a policy -/

namespace Policy.Recorded

variable {policy : Policy} {record : Key → Option Record} {key : Key}

theorem mem_order_iff (hrecorded : policy.Recorded record) (hkind : policy.kind ≠ .noEviction) :
    key ∈ policy.order ↔ (record key).isSome := by
  obtain ⟨keys, hfollows⟩ := hrecorded.follows
  rw [(hfollows.perm_order hkind).mem_iff, ← hfollows.tracks_iff hkind,
    hrecorded.tracks_iff hkind]

theorem nodup_order (hrecorded : policy.Recorded record) (hkind : policy.kind ≠ .noEviction) :
    policy.order.Nodup := by
  obtain ⟨keys, hfollows⟩ := hrecorded.follows
  exact (hfollows.perm_order hkind).nodup_iff.mpr (hfollows.nodup hkind)

theorem pairwise_order (hrecorded : policy.Recorded record) :
    policy.order.Pairwise fun first second =>
      ∃ r s, record first = some r ∧ record second = some s ∧ policy.kind.Sooner r s := by
  induction hsupply : policy.supply using Nat.strong_induction_on generalizing policy record with
  | _ supply ih =>
      cases hevict : policy.evict.1 with
      | none =>
          rw [Policy.order_of_none hevict]
          exact .nil
      | some victim =>
          obtain ⟨hnext, r, hr, hfirst⟩ := hrecorded.evict_some hevict
          have hless := Policy.supply_evict hevict
          have hkept : ∀ other s, Function.update record victim none other = some s →
              other ≠ victim ∧ record other = some s := by
            intro other s hs
            by_cases hother : other = victim
            · simp [hother] at hs
            · exact ⟨hother, by rwa [Function.update_of_ne hother] at hs⟩
          have hkind : policy.evict.2.kind ≠ .noEviction := by
            intro hnone
            rw [Policy.kind_evict] at hnone
            cases policy with
            | noEviction p => simp [Policy.evict] at hevict
            | _ => simp [Policy.kind] at hnone
          rw [Policy.order_of_some hevict, List.pairwise_cons]
          constructor
          · intro other hother
            obtain ⟨s, hs⟩ := Option.isSome_iff_exists.mp ((hnext.mem_order_iff hkind).mp hother)
            obtain ⟨hne, hs⟩ := hkept other s hs
            exact ⟨r, s, hr, hs, hfirst other s hs hne⟩
          · have hrest := ih _ (hsupply ▸ hless) hnext rfl
            rw [Policy.kind_evict] at hrest
            apply hrest.imp
            intro first second hpair
            obtain ⟨r, s, hr, hs, hsooner⟩ := hpair
            exact ⟨r, s, (hkept first r hr).2, (hkept second s hs).2, hsooner⟩

end Policy.Recorded

theorem Policy.order_fifo (p : Fifo) : (Policy.fifo p).order = p.ll := by
  obtain ⟨ll, hnodup⟩ := p
  induction ll with
  | nil => exact Policy.order_of_none rfl
  | cons first rest ih =>
      have hevict : (Policy.fifo ⟨first :: rest, hnodup⟩).evict =
          (some first, .fifo ⟨rest, (List.nodup_cons.mp hnodup).2⟩) := rfl
      rw [Policy.order_of_some (congrArg Prod.fst hevict), hevict, ih]

/-- The keys in the order in which the generator draws them from the slice. -/
def drawn (rng : ℕ → ℕ) : ℕ → ℕ → List Key → List Key
  | 0, _, _ => []
  | fuel + 1, draws, keys =>
      match keys[rng draws % keys.length]?, keys[keys.length - 1]? with
      | some key, some moved =>
          key :: drawn rng fuel (draws + 1)
            ((keys.set (rng draws % keys.length) moved).take (keys.length - 1))
      | _, _ => []

theorem Random.remove_eq {p : Random} {key moved : Key} {i : ℕ} (hkey : p.keys[i]? = some key)
    (hlast : p.keys[p.keys.length - 1]? = some moved) :
    (p.remove key).keys = (p.keys.set i moved).take (p.keys.length - 1) ∧
      (p.remove key).rng = p.rng := by
  have hlookup := (p.idx_iff key i).mpr hkey
  unfold Random.remove
  split
  · rename_i j last hj hmoved
    rw [hlookup, Option.some.injEq] at hj
    rw [hlast, Option.some.injEq] at hmoved
    rw [hj, hmoved]
    exact ⟨rfl, rfl⟩
  · rename_i hnone
    exact absurd hlast (hnone _ _ hlookup)

theorem Policy.order_random (p : Random) :
    (Policy.random p).order = drawn p.rng p.keys.length p.draws p.keys := by
  induction hlength : p.keys.length generalizing p with
  | zero =>
      have hkeys : p.keys = [] := List.length_eq_zero_iff.mp hlength
      apply Policy.order_of_none
      simp [Policy.evict, Random.evict, hkeys]
  | succ n ih =>
      have hi : p.rng p.draws % p.keys.length < p.keys.length := Nat.mod_lt _ (by omega)
      have hkey := List.getElem?_eq_getElem hi
      have hlast := List.getElem?_eq_getElem (show p.keys.length - 1 < p.keys.length by omega)
      obtain ⟨hkeys, hrng⟩ := Random.remove_eq hkey hlast
      have hevict : (Policy.random p).evict =
          (some (p.keys[p.rng p.draws % p.keys.length]),
            .random { p.remove (p.keys[p.rng p.draws % p.keys.length]) with
              draws := p.draws + 1 }) := by
        simp only [Policy.evict, Random.evict, hkey]
      rw [Policy.order_of_some (congrArg Prod.fst hevict), hevict, ih _ (by
        simp only [hkeys, List.length_take, List.length_set]
        omega)]
      simp only [drawn, hkey, hlast, hkeys, hrng]

/-- What follows the key in a list. -/
def following (key : Key) (keys : List Key) : List Key := (keys.dropWhile (· ≠ key)).tail

theorem eq_append_following {key : Key} {keys : List Key} (hmem : key ∈ keys) :
    keys = keys.takeWhile (· ≠ key) ++ key :: following key keys := by
  induction keys with
  | nil => exact absurd hmem List.not_mem_nil
  | cons first rest ih =>
      by_cases hfirst : first = key
      · subst first
        simp [following]
      · have hrest := ih ((List.mem_cons.mp hmem).resolve_left (Ne.symm hfirst))
        simpa [following, hfirst] using hrest

theorem mem_takeWhile_iff {key other : Key} {keys : List Key} (hnodup : keys.Nodup)
    (hmem : key ∈ keys) :
    other ∈ keys.takeWhile (· ≠ key) ↔
      other ∈ keys ∧ other ≠ key ∧ other ∉ following key keys := by
  have hsplit := eq_append_following hmem
  rw [hsplit, List.nodup_append] at hnodup
  constructor
  · intro hother
    refine ⟨(List.takeWhile_prefix _).subset hother, by simpa using List.mem_takeWhile_imp hother,
      fun hin => ?_⟩
    exact hnodup.2.2 other hother other (List.mem_cons_of_mem key hin) rfl
  · rintro ⟨hother, hne, hnot⟩
    rw [hsplit, List.mem_append, List.mem_cons] at hother
    exact hother.resolve_right (not_or.mpr ⟨hne, hnot⟩)

theorem following_append {key : Key} {keys : List Key} (hnot : key ∉ keys) (last : List Key) :
    following key (keys ++ last) = following key last := by
  induction keys with
  | nil => rfl
  | cons first rest ih =>
      rw [List.mem_cons, not_or] at hnot
      simpa [following, Ne.symm hnot.1] using ih hnot.2

/-! ## Where a written key stands -/

def effective (expireAt : ℤ) : ℤ := if expireAt = 0 then ttlNever else expireAt

namespace Policy

/-- The other key is given up later than the written one: it is used more often, it
stands behind it in the list or is drawn after it, its deadline is further away. -/
def later (policy : Policy) (key : Key) (expireAt : ℤ) (other : Key) : Bool :=
  match policy with
  | .noEviction _ => false
  | .lru _ => false
  | .lfu p => (p.nodes.lookup key).getD 0 + 1 < (p.nodes.lookup other).getD 0
  | .fifo p => other ∈ following key p.ll
  | .random p =>
      let keys := if key ∈ p.keys then p.keys else p.keys ++ [key]
      other ∈ following key (drawn p.rng keys.length p.draws keys)
  | .ttl p => effective expireAt < (p.eff.lookup other).getD ttlNever

/-- Under `ttl` the two keys have the same deadline. -/
def tied (policy : Policy) (expireAt : ℤ) (other : Key) : Bool :=
  match policy with
  | .ttl p => p.eff.lookup other = some (effective expireAt)
  | _ => false

variable {policy : Policy} {record : Key → Option Record} {key other : Key}

theorem Recorded.sooner_of_following (hrecorded : policy.Recorded record)
    (hkey : key ∈ policy.order) (hother : other ∈ following key policy.order) :
    ∃ r s, record key = some r ∧ record other = some s ∧ policy.kind.Sooner r s := by
  have hpairs := hrecorded.pairwise_order
  rw [eq_append_following hkey, List.pairwise_append, List.pairwise_cons] at hpairs
  exact hpairs.2.1.1 other hother

theorem Recorded.sooner_of_not_following (hrecorded : policy.Recorded record)
    (hkey : key ∈ policy.order) (hmem : other ∈ policy.order) (hne : other ≠ key)
    (hother : other ∉ following key policy.order) :
    ∃ r s, record other = some r ∧ record key = some s ∧ policy.kind.Sooner r s := by
  have hpairs := hrecorded.pairwise_order
  rw [eq_append_following hkey, List.pairwise_append] at hpairs
  rw [eq_append_following hkey, List.mem_append, List.mem_cons] at hmem
  have hahead := hmem.resolve_right (not_or.mpr ⟨hne, hother⟩)
  exact hpairs.2.2 other hahead key List.mem_cons_self

theorem following_order_add (p : Fifo) (key : Key) :
    following key (Policy.fifo (p.add key)).order = following key p.ll := by
  rw [Policy.order_fifo, Fifo.add]
  split_ifs with hheld
  · rfl
  · rw [following_append hheld, ← List.append_nil p.ll, following_append hheld]
    simp [following]

theorem order_add (p : Random) (key : Key) :
    (Policy.random (p.add key)).order =
      drawn p.rng (if key ∈ p.keys then p.keys else p.keys ++ [key]).length p.draws
        (if key ∈ p.keys then p.keys else p.keys ++ [key]) := by
  rw [Policy.order_random, Random.add]
  by_cases hheld : key ∈ p.idx
  · simp [hheld, (p.mem_keys_iff key).mpr hheld]
  · simp [hheld, mt (p.mem_keys_iff key).mp hheld]

end Policy

namespace Watched

theorem record_write (w : Watched) (key : Key) (expireAt : ℤ) :
    ∃ r, ((w.call (.add key)).call (.note key expireAt)).ledger.record =
        Function.update w.ledger.record key (some r) ∧
      r.touched = w.ledger.calls ∧
      r.freq = ((w.ledger.record key).map Record.freq).getD 0 + 1 ∧
      (w.policy.kind = .ttl → r.deadline = effective expireAt) := by
  have hadded : ∃ r, (w.ledger.add key).record = Function.update w.ledger.record key (some r) ∧
      r.touched = w.ledger.calls ∧
      r.freq = ((w.ledger.record key).map Record.freq).getD 0 + 1 := by
    refine ⟨((w.ledger.record key).map w.ledger.touch).getD w.ledger.fresh, rfl, ?_, ?_⟩
    · cases w.ledger.record key <;> rfl
    · cases w.ledger.record key <;> rfl
  obtain ⟨r, hrecord, htouched, hfreq⟩ := hadded
  by_cases hkind : w.policy.kind = .ttl
  · refine ⟨{ r with deadline := effective expireAt }, ?_, htouched, hfreq, fun _ => rfl⟩
    simp only [Watched.call, Policy.kind_add, if_pos hkind, Ledger.note, Ledger.put, hrecord,
      Function.update_self, Option.getD_some, Function.update_idem]
    rfl
  · refine ⟨r, ?_, htouched, hfreq, fun httl => absurd httl hkind⟩
    simp only [Watched.call, Policy.kind_add, if_neg hkind, Ledger.idle, hrecord]

/-- A write puts its key before the keys that are later and behind those that are
neither later nor tied. -/
theorem Kept.following {policy : Policy} {ledger : Ledger} (hkept : Kept ⟨policy, ledger⟩)
    (hkind : policy.kind ≠ .noEviction) {key other : Key} (hne : other ≠ key)
    (htracks : policy.Tracks other) (expireAt : ℤ) :
    let after := (policy.add key).note key expireAt
    (policy.later key expireAt other = true → other ∈ Eviction.following key after.order) ∧
      (other ∈ Eviction.following key after.order →
        policy.later key expireAt other = true ∨ policy.tied expireAt other = true) := by
  intro after
  obtain ⟨r, hrecord, htouched, hfreq, hdeadline⟩ :=
    record_write ⟨policy, ledger⟩ key expireAt
  have hrecorded : policy.Recorded ledger.record := hkept.recorded
  have hafter : after.Recorded (Function.update ledger.record key (some r)) :=
    hrecord ▸ ((hkept.call (.add key)).call (.note key expireAt)).recorded
  have hsame : after.kind = policy.kind := by simp [after]
  have hmem : ∀ k, k ∈ after.order ↔
      (Function.update ledger.record key (some r) k).isSome := fun k =>
    hafter.mem_order_iff (by rwa [hsame])
  have hkey : key ∈ after.order := by simp [hmem]
  obtain ⟨s, hs⟩ := Option.isSome_iff_exists.mp ((hrecorded.tracks_iff hkind).mp htracks)
  have hother : other ∈ after.order := by simp [hmem, hne, hs]
  have holder : s.touched < r.touched := htouched ▸ (hkept.timed other s hs).touched
  have hbehind : other ∈ Eviction.following key after.order → policy.kind.Sooner r s := by
    intro hin
    obtain ⟨r', s', hr', hs', hsooner⟩ := hafter.sooner_of_following hkey hin
    simp only [Function.update_self, Function.update_of_ne hne, hs, Option.some.injEq] at hr' hs'
    rwa [hr', hs', ← hsame]
  have hahead : other ∉ Eviction.following key after.order → policy.kind.Sooner s r := by
    intro hin
    obtain ⟨s', r', hs', hr', hsooner⟩ := hafter.sooner_of_not_following hkey hother hne hin
    simp only [Function.update_self, Function.update_of_ne hne, hs, Option.some.injEq] at hr' hs'
    rwa [hr', hs', ← hsame]
  cases policy with
  | noEviction p => exact absurd rfl hkind
  | lru p =>
      refine ⟨fun hlater => absurd hlater Bool.false_ne_true, fun hin => ?_⟩
      have hsooner : r.touched < s.touched := hbehind hin
      omega
  | lfu p =>
      have hfreqs := Lfu.Recorded.freq hrecorded
      simp only [Policy.later, hfreqs, hs, Option.map_some, Option.getD_some, decide_eq_true_eq]
      simp only at hfreq
      rw [← hfreq]
      constructor
      · intro hlater
        by_contra hin
        have hsooner : s.freq < r.freq ∨ s.freq = r.freq ∧ s.touched < r.touched := hahead hin
        omega
      · intro hin
        have hsooner : r.freq < s.freq ∨ r.freq = s.freq ∧ r.touched < s.touched := hbehind hin
        omega
  | fifo p =>
      have horder : Eviction.following key after.order = Eviction.following key p.ll :=
        Policy.following_order_add p key
      simp only [Policy.later, horder, decide_eq_true_eq]
      exact ⟨id, Or.inl⟩
  | random p =>
      have horder : after.order = _ := Policy.order_add p key
      simp only [Policy.later, horder, decide_eq_true_eq]
      exact ⟨id, Or.inl⟩
  | ttl p =>
      have hdeadlines := Ttl.Recorded.deadline hrecorded
      simp only [Policy.later, Policy.tied, hdeadlines, hs, Option.map_some, Option.getD_some,
        decide_eq_true_eq, Option.some.injEq]
      rw [← hdeadline rfl]
      constructor
      · intro hlater
        by_contra hin
        have hsooner : s.deadline ≤ r.deadline := hahead hin
        omega
      · intro hin
        have hsooner : r.deadline ≤ s.deadline := hbehind hin
        omega

end Watched
end Eviction

namespace Shard

variable {s next : Shard} {key : Key}

/-! ## A shard with a ledger -/

def Ledgered (s : Shard) : Prop := ∃ ledger, Watched.Kept ⟨s.policy, ledger⟩

theorem ledgered_new (rng : ℕ → ℕ) (kind : Kind) (maxEntries maxMemory : ℤ) :
    (new (Eviction.new rng kind) maxEntries maxMemory).Ledgered :=
  ⟨.empty, (Watched.kept_watch rng kind []).1⟩

theorem ledgered_foldl_remove {policy : Policy} {ledger : Ledger}
    (hkept : Watched.Kept ⟨policy, ledger⟩) (keys : List Key) :
    ∃ after, Watched.Kept ⟨keys.foldl Policy.remove policy, after⟩ := by
  induction keys generalizing policy ledger with
  | nil => exact ⟨ledger, hkept⟩
  | cons key rest ih => exact ih (hkept.call (.remove key))

theorem Ledgered.update (hledgered : s.Ledgered) (hupdate : s.Update AnyEntry next) :
    next.Ledgered := by
  obtain ⟨ledger, hkept⟩ := hledgered
  cases hupdate with
  | remove key it _ _ => exact ⟨_, hkept.call (.remove key)⟩
  | store key value expireAt =>
      unfold Ledgered setLocked
      cases s.items.lookup key with
      | none => exact ⟨_, (hkept.call (.add key)).call (.note key expireAt)⟩
      | some old => exact ⟨_, (hkept.call (.access key)).call (.note key expireAt)⟩
  | retime key it expireAt _ => exact ⟨_, hkept.call (.note key expireAt)⟩
  | access key => exact ⟨_, hkept.call (.access key)⟩
  | flush => exact ledgered_foldl_remove hkept s.items.keys
  | giveUp _ => exact ⟨_, hkept.call .evict⟩
  | spare victim _ => exact ⟨_, (hkept.call .evict).call (.add victim)⟩
  | drop victim it _ _ _ => exact ⟨_, hkept.call .evict⟩
  | skip victim _ _ => exact ⟨_, hkept.call .evict⟩

theorem Exact.policy_setLocked (hexact : s.Exact) (hkind : s.policy.kind ≠ .noEviction)
    (key : Key) (value : Bytes) (expireAt : ℤ) :
    (s.setLocked key value expireAt).policy = (s.policy.add key).note key expireAt := by
  unfold setLocked
  cases hlookup : s.items.lookup key with
  | none => rfl
  | some old =>
      have htracks : s.policy.Tracks key :=
        (hexact.follows.tracks_iff hkind).mpr (mem_keys_of_lookup hlookup)
      rw [Policy.add_eq_access htracks hkind]

/-! ## Enough keys before the written one -/

/-- The other keys that are not given up later than the key. -/
def notLater (s : Shard) (key : Key) (later : Key → Bool) : List Key :=
  s.items.keys.filter fun other => other ≠ key ∧ later other = false

/-- The entries with the new one, of the others only those that are given up later. -/
def left (s : Shard) (key : Key) (it : Item) (later : Key → Bool) : AList fun _ : Key => Item :=
  without (s.items.insert key it) (s.notLater key later)

/-- Without the keys that are not given up later the shard is within its limits, or
has the new entry alone. -/
def Enough (s : Shard) (key : Key) (it : Item) (later : Key → Bool) : Prop :=
  Roomy s.maxEntries s.maxMemory (s.left key it later) ∨ (s.left key it later).keys = [key]

instance (s : Shard) (key : Key) (it : Item) (later : Key → Bool) :
    Decidable (s.Enough key it later) :=
  inferInstanceAs (Decidable (((_ → _) ∧ (_ → _)) ∨ _))

theorem without_erase_of_mem {gone : List Key} (hmem : key ∈ gone)
    (items : AList fun _ : Key => Item) : without (items.erase key) gone = without items gone := by
  induction gone generalizing items with
  | nil => exact absurd hmem List.not_mem_nil
  | cons victim rest ih =>
      by_cases hvictim : key = victim
      · subst victim
        rw [without, List.foldl_cons, erase_of_lookup_none (AList.lookup_erase key items)]
        rfl
      · have hrest := ih ((List.mem_cons.mp hmem).resolve_left hvictim) (items.erase victim)
        rw [AList.erase_erase] at hrest
        exact hrest

theorem without_append_of_subset {fewer more : List Key} (hsubset : fewer ⊆ more)
    (items : AList fun _ : Key => Item) :
    without items (fewer ++ more) = without items more := by
  induction fewer generalizing items with
  | nil => rfl
  | cons victim rest ih =>
      rw [List.cons_subset] at hsubset
      exact (ih hsubset.2 (items.erase victim)).trans (without_erase_of_mem hsubset.1 items)

theorem fits_of_subset (hexact : s.Exact) (hkey : key ∈ s.items) {fewer more : List Key}
    (hsubset : fewer ⊆ more) (hnot : key ∉ more)
    (hfits : ¬ (s.dropAll fewer).OverCapacity ∨ (s.dropAll fewer).items.keys = [key]) :
    ¬ (s.dropAll more).OverCapacity ∨ (s.dropAll more).items.keys = [key] := by
  rcases hfits with hwithin | halone
  · have hdropped := not_over_dropAll more hwithin
    rw [← dropAll_append, not_over_dropAll_iff hexact.kept.mem_eq,
      without_append_of_subset hsubset, ← not_over_dropAll_iff hexact.kept.mem_eq] at hdropped
    exact Or.inl hdropped
  · right
    apply keys_eq_singleton
    · rw [← AList.mem_keys, mem_dropAll]
      exact ⟨hkey, hnot⟩
    · intro other hother
      rw [← AList.mem_keys, mem_dropAll] at hother
      have hfewer : other ∈ (s.dropAll fewer).items :=
        (s.mem_dropAll fewer other).mpr ⟨hother.1, fun h => hother.2 (hsubset h)⟩
      rw [AList.mem_keys, halone] at hfewer
      exact List.mem_singleton.mp hfewer

theorem enough_iff (hexact : s.Exact) (key : Key) (it : Item) (later : Key → Bool) :
    s.Enough key it later ↔
      ¬ ((s.setLocked key it.value it.expireAt).dropAll (s.notLater key later)).OverCapacity ∨
        ((s.setLocked key it.value it.expireAt).dropAll (s.notLater key later)).items.keys =
          [key] := by
  have hmid := hexact.update (.store key it.value it.expireAt)
  have hlimits : (s.setLocked key it.value it.expireAt).maxEntries = s.maxEntries ∧
      (s.setLocked key it.value it.expireAt).maxMemory = s.maxMemory := by
    unfold setLocked
    cases s.items.lookup key <;> exact ⟨rfl, rfl⟩
  rw [not_over_dropAll_iff hmid.kept.mem_eq, items_dropAll, hlimits.1, hlimits.2, items_setLocked]
  rfl

theorem mem_notLater {other : Key} {later : Key → Bool} :
    other ∈ s.notLater key later ↔ other ∈ s.items ∧ other ≠ key ∧ later other = false := by
  rw [notLater, List.mem_filter, decide_eq_true_eq, AList.mem_keys]

theorem mem_setLocked {other : Key} (s : Shard) (key : Key) (value : Bytes) (expireAt : ℤ) :
    other ∈ (s.setLocked key value expireAt).items ↔ other = key ∨ other ∈ s.items := by
  rw [items_setLocked, AList.mem_insert]

theorem enough_of_none_later (hexact : s.Exact) (it : Item) {later : Key → Bool}
    (hnone : ∀ other, later other = false) : s.Enough key it later := by
  rw [enough_iff hexact]
  right
  apply keys_eq_singleton
  · rw [← AList.mem_keys, mem_dropAll, mem_setLocked, mem_notLater]
    exact ⟨Or.inl rfl, fun h => h.2.1 rfl⟩
  · intro other hother
    rw [← AList.mem_keys, mem_dropAll, mem_setLocked] at hother
    by_contra hne
    exact hother.2 (mem_notLater.mpr ⟨hother.1.resolve_left hne, hne, hnone other⟩)

/-- The write ends within the limits, or with its key alone, if the keys that are
given up for certain before its own one are enough, and only if those that may be
are. -/
theorem within_setLocked (hexact : s.Exact) (hledgered : s.Ledgered)
    (hkind : s.policy.kind ≠ .noEviction) (key : Key) (it : Item) :
    let after := ((s.setLocked key it.value it.expireAt).enforceLimitsLocked key).1
    let later := s.policy.later key it.expireAt
    let tied := s.policy.tied it.expireAt
    ((s.Enough key it fun other => later other || tied other) →
        ¬ after.OverCapacity ∨ after.items.keys = [key]) ∧
      (¬ after.OverCapacity ∨ after.items.keys = [key] → s.Enough key it later) := by
  intro after later tied
  let mid := s.setLocked key it.value it.expireAt
  have hmid : mid.Exact := hexact.update (.store key it.value it.expireAt)
  have hpolicy := hexact.policy_setLocked hkind key it.value it.expireAt
  have hmidKind : mid.policy.kind ≠ .noEviction := by simpa [mid, hpolicy] using hkind
  have hkey : key ∈ mid.items := (s.mem_setLocked key it.value it.expireAt).mpr (Or.inl rfl)
  have hperm := hmid.follows.perm_order hmidKind
  have hahead : ∀ other, other ∈ mid.ahead key ↔
      other ∈ s.items ∧ other ≠ key ∧ other ∉ following key mid.policy.order := by
    intro other
    rw [ahead, mem_takeWhile_iff (hperm.nodup_iff.mpr mid.items.keys_nodup)
      (hperm.mem_iff.mpr (AList.mem_keys.mp hkey)), hperm.mem_iff, ← AList.mem_keys, mem_setLocked]
    tauto
  obtain ⟨ledger, hkept⟩ := hledgered
  have hplace : ∀ other, other ≠ key → other ∈ s.items →
      (later other = true → other ∈ following key mid.policy.order) ∧
      (other ∈ following key mid.policy.order → later other = true ∨ tied other = true) := by
    intro other hne hheld
    have htracks := (hexact.follows.tracks_iff hkind).mpr (AList.mem_keys.mp hheld)
    have hfollowing := hkept.following hkind hne htracks it.expireAt
    simp only [mid, hpolicy]
    exact hfollowing
  rw [capped_enforceLimitsLocked hmid hmidKind (AList.mem_keys.mp hkey), enough_iff hexact,
    enough_iff hexact]
  constructor
  · refine fits_of_subset hmid hkey ?_ fun hin => ((hahead key).mp hin).2.1 rfl
    intro other hother
    obtain ⟨hheld, hne, hnone⟩ := mem_notLater.mp hother
    refine (hahead other).mpr ⟨hheld, hne, fun hin => ?_⟩
    have hcase := (hplace other hne hheld).2 hin
    rw [← Bool.or_eq_true, hnone] at hcase
    exact Bool.false_ne_true hcase
  · refine fits_of_subset hmid hkey ?_ fun hin => (mem_notLater.mp hin).2.1 rfl
    intro other hother
    obtain ⟨hheld, hne, hnot⟩ := (hahead other).mp hother
    refine mem_notLater.mpr ⟨hheld, hne, ?_⟩
    rw [Bool.eq_false_iff]
    exact fun hlater => hnot ((hplace other hne hheld).1 hlater)

end Shard

/-! ## Operations that store -/

namespace ShardOp

variable {s base : Shard} {key : Key} {it : Item} {op : ShardOp}

/-- The shard that the entry is stored in, which is without the counter if it has
expired, and the entry.  An `incrBy` of a text that is no number stores nothing. -/
def write (s : Shard) : ShardOp → Option (Shard × Item)
  | .set _ value expireAt => some (s, ⟨value, expireAt⟩)
  | .incrBy key delta now =>
      (s.counterBase key now).map fun base =>
        (base.1, ⟨formatInt (int64 (base.2 + delta)), 0⟩)
  | .applySet _ value expireAt => some (s, ⟨value, expireAt⟩)
  | _ => none

theorem write_some (hwrites : op.writes = some key) (hwrite : op.write s = some (base, it)) :
    s.Reaches Shard.AnyEntry base ∧
      run s op = ((base.setLocked key it.value it.expireAt).enforceLimitsLocked key).1 := by
  cases op with
  | set other value expireAt =>
      cases hwrites
      cases hwrite
      exact ⟨.refl, rfl⟩
  | applySet other value expireAt =>
      cases hwrites
      cases hwrite
      exact ⟨.refl, rfl⟩
  | incrBy other delta now =>
      cases hwrites
      cases hbase : s.counterBase key now with
      | none => simp [write, hbase] at hwrite
      | some found =>
          rw [write, hbase] at hwrite
          cases hwrite
          refine ⟨(Shard.shrinks_counterBase hbase).reaches, ?_⟩
          simp only [run, Shard.incrBy, hbase, Shard.set]
  | _ => cases hwrites

theorem run_of_write_none (hwrites : op.writes = some key) (hwrite : op.write s = none) :
    run s op = s ∧ key ∈ s.items.keys := by
  cases op with
  | incrBy other delta now =>
      cases hwrites
      simp only [write, Option.map_eq_none_iff] at hwrite
      refine ⟨by simp only [run, Shard.incrBy, hwrite], ?_⟩
      cases hlookup : s.items.lookup key with
      | none => simp [Shard.counterBase, hlookup] at hwrite
      | some it => exact Shard.mem_keys_of_lookup hlookup
  | set other value expireAt => simp [write] at hwrite
  | applySet other value expireAt => simp [write] at hwrite
  | _ => cases hwrites

end ShardOp

namespace Shard

/-- What every shard of a run keeps. -/
structure Sound (kind : Kind) (maxEntries maxMemory : ℤ) (s : Shard) : Prop where
  exact_ : s.Exact
  ledgered : s.Ledgered
  configured : s.Configured kind maxEntries maxMemory

variable {s base : Shard} {key : Key} {it : Item} {op : ShardOp} {kind : Kind}
  {maxEntries maxMemory : ℤ}

theorem sound_new (rng : ℕ → ℕ) (kind : Kind) (maxEntries maxMemory : ℤ) :
    Sound kind maxEntries maxMemory (new (Eviction.new rng kind) maxEntries maxMemory) :=
  ⟨exact_new rng kind maxEntries maxMemory,
    ledgered_new rng kind maxEntries maxMemory,
    configured_new rng kind maxEntries maxMemory⟩

theorem Sound.update {next : Shard} (hsound : Sound kind maxEntries maxMemory s)
    (hupdate : s.Update AnyEntry next) : Sound kind maxEntries maxMemory next :=
  ⟨hsound.exact_.update hupdate, hsound.ledgered.update hupdate, hsound.configured.update hupdate⟩

theorem Sound.reaches {next : Shard} (hsound : Sound kind maxEntries maxMemory s)
    (hreaches : s.Reaches AnyEntry next) : Sound kind maxEntries maxMemory next :=
  hreaches.invariant (fun _ _ hs hupdate => hs.update hupdate) hsound

theorem Sound.runAll (hsound : Sound kind maxEntries maxMemory s) (ops : List ShardOp) :
    Sound kind maxEntries maxMemory (ShardOp.runAll s ops) :=
  ShardOp.runAll_invariant (fun _ _ hs hupdate => Sound.update hs hupdate) hsound ops

theorem Sound.within (hsound : Sound kind maxEntries maxMemory s) (hkind : kind ≠ .noEviction)
    (hwrites : op.writes = some key) (hwrite : op.write s = some (base, it)) :
    ((base.Enough key it fun other =>
          base.policy.later key it.expireAt other || base.policy.tied it.expireAt other) →
        ¬ (ShardOp.run s op).OverCapacity ∨ (ShardOp.run s op).items.keys = [key]) ∧
      (¬ (ShardOp.run s op).OverCapacity ∨ (ShardOp.run s op).items.keys = [key] →
        base.Enough key it (base.policy.later key it.expireAt)) := by
  obtain ⟨hreaches, hrun⟩ := ShardOp.write_some hwrites hwrite
  have hbase := hsound.reaches hreaches
  rw [hrun]
  exact within_setLocked hbase.exact_ hbase.ledgered
    (by rwa [hbase.configured.kind_eq]) key it

theorem Sound.within_of_lru (hsound : Sound .lru maxEntries maxMemory s)
    (hwrites : op.writes = some key) (hwrite : op.write s = some (base, it)) :
    ¬ (ShardOp.run s op).OverCapacity ∨ (ShardOp.run s op).items.keys = [key] := by
  have hbase := hsound.reaches (ShardOp.write_some hwrites hwrite).1
  obtain ⟨p, hpolicy⟩ := Policy.eq_lru_of_kind hbase.configured.kind_eq
  apply (hsound.within (by decide) hwrites hwrite).1
  apply enough_of_none_later hbase.exact_
  intro other
  rw [hpolicy]
  rfl

theorem Sound.settled_run (hsound : Sound .lru maxEntries maxMemory s) (hsettled : s.Settled)
    (op : ShardOp) : (ShardOp.run s op).Settled := by
  have hwritten : ∀ key, op.writes = some key → (ShardOp.run s op).Settled := by
    intro key hwrites
    cases hwrite : op.write s with
    | none =>
        rw [(ShardOp.run_of_write_none hwrites hwrite).1]
        exact hsettled
    | some stored =>
        have hrun := (hsound.reaches (ShardOp.reaches_run s op)).exact_
        refine ⟨hrun.mem_nonneg, (hsound.within_of_lru hwrites hwrite).imp_right fun halone => ?_⟩
        rw [halone]
        exact le_rfl
  cases op with
  | get key now =>
      rcases s.get_cases key now with ⟨_, hshrinks⟩ | ⟨it, _, _, hfound⟩
      · exact hsettled.shrinks hshrinks
      · rw [ShardOp.run, hfound]
        exact hsettled.access key
  | set key value expireAt => exact hwritten key rfl
  | incrBy key delta now => exact hwritten key rfl
  | applySet key value expireAt => exact hwritten key rfl
  | _ => exact hsettled.shrinks (ShardOp.shrinks_run s trivial)

theorem Sound.settled_runAll (hsound : Sound .lru maxEntries maxMemory s) (hsettled : s.Settled)
    (ops : List ShardOp) : (ShardOp.runAll s ops).Settled := by
  induction ops generalizing s with
  | nil => exact hsettled
  | cons op rest ih => exact ih (hsound.runAll [op]) (hsound.settled_run hsettled op)

theorem settled_lru (rng : ℕ → ℕ) (maxEntries maxMemory : ℤ) (ops : List ShardOp) :
    (ShardOp.runAll (new (Eviction.new rng .lru) maxEntries maxMemory) ops).Settled :=
  (sound_new rng .lru maxEntries maxMemory).settled_runAll ⟨le_rfl, Or.inr (Nat.zero_le 1)⟩ ops

end Shard

namespace ShardOp

/-- After a write the shard is within its limits or holds the written key alone if
the keys before the written one are enough, those with the same deadline under `ttl`
not counted, and only if they are enough with these.  Without such keys the two are
the same.  Under `lru` the keys are always enough.  A write that stores nothing
changes nothing. -/
theorem capped_iff_enough (kind : Kind) (hkind : kind ≠ .noEviction) (rng : ℕ → ℕ)
    (maxEntries maxMemory : ℤ) (hentries : 1 ≤ maxEntries) (hmemory : 0 ≤ maxMemory)
    (ops : List ShardOp) (op : ShardOp) (key : Key) (hwrites : op.writes = some key) :
    let s := runAll (Shard.new (Eviction.new rng kind) maxEntries maxMemory) ops
    (kind = .lru → (run s op).Capped key) ∧
      (∀ base it, op.write s = some (base, it) →
        let later := base.policy.later key it.expireAt
        let tied := base.policy.tied it.expireAt
        ((base.Enough key it fun other => later other || tied other) →
            (run s op).Capped key) ∧
          ((run s op).Capped key → base.Enough key it later) ∧
          ((∀ other, tied other = false) →
            ((run s op).Capped key ↔ base.Enough key it later))) ∧
      (op.write s = none → run s op = s) := by
  intro s
  have hsound : Shard.Sound kind maxEntries maxMemory s :=
    (Shard.sound_new rng kind maxEntries maxMemory).runAll ops
  have hafter := (hsound.runAll [op]).configured
  have hcapped : (run s op).Capped key ↔
      (¬ (run s op).OverCapacity ∨ (run s op).items.keys = [key]) :=
    Shard.capped_iff (by rw [← hafter.maxEntries_eq] at hentries; exact hentries)
      (by rw [← hafter.maxMemory_eq] at hmemory; exact hmemory)
  refine ⟨?_, ?_, fun hwrite => (run_of_write_none hwrites hwrite).1⟩
  · rintro rfl
    rw [hcapped]
    cases hwrite : op.write s with
    | some stored => exact hsound.within_of_lru hwrites hwrite
    | none =>
        obtain ⟨hrun, hkey⟩ := run_of_write_none hwrites hwrite
        have hsettled : s.Settled := Shard.settled_lru rng maxEntries maxMemory ops
        rw [hrun]
        exact hsettled.bound.imp_right (Shard.keys_eq_singleton_of_length hkey)
  · intro base it hwrite later tied
    obtain ⟨henough, honly⟩ := hsound.within hkind hwrites hwrite
    rw [hcapped]
    refine ⟨henough, honly, fun hnone => ⟨honly, fun hlater => henough ?_⟩⟩
    have hsame : (fun other => later other || tied other) = later := by
      funext other
      rw [hnone, Bool.or_false]
    exact hsame ▸ hlater

/-- Two keys under `fifo` with room for one: the older one goes. -/
theorem capped_iff_enough_fifo :
    let s := runAll (Shard.new (Eviction.new (fun _ => 0) .fifo) 1 0) [.set [97] [1] 0]
    (run s (.set [98] [2] 0)).Capped [98] := by
  intro s
  have hwrite := (capped_iff_enough .fifo (by decide) (fun _ => 0) 1 0 le_rfl le_rfl
    [.set [97] [1] 0] (.set [98] [2] 0) [98] rfl).2.1 s ⟨[2], 0⟩ rfl
  exact hwrite.1 (by decide +kernel)

/-- Keys with the same deadline: the order of the earlier writes decides which one is
given up first. -/
example :
    let small := ShardOp.set [97] [1] 0
    let large := ShardOp.set [98] (List.replicate 50 1) 0
    let last := ShardOp.set [99] (List.replicate 20 1) 0
    let new := Shard.new (Eviction.new (fun _ => 0) .ttl) 10 190
    (run (runAll new [large, small]) last).Capped [99] ∧
      ¬ (run (runAll new [small, large]) last).Capped [99] := by
  decide +kernel

/-- Under each of the other policies a write leaves the shard over a limit with
a second key in it. -/
theorem not_capped_after_write :
    (¬ (runAll (Shard.new (Eviction.new (fun _ => 0) .lfu) 1 0)
        [.set [97] [1] 0, .get [97] 0, .set [98] [2] 0]).Capped [98]) ∧
      (¬ (runAll (Shard.new (Eviction.new (fun _ => 0) .fifo) 10 140)
        [.set [97] [1] 0, .set [98] [2] 0, .set [97] (List.replicate 20 1) 0]).Capped [97]) ∧
      (¬ (runAll (Shard.new (Eviction.new (fun _ => 1) .random) 1 0)
        [.set [97] [1] 0, .set [98] [2] 0]).Capped [98]) ∧
      (¬ (runAll (Shard.new (Eviction.new (fun _ => 0) .ttl) 1 0)
        [.set [97] [1] 0, .set [98] [2] 10]).Capped [98]) := by
  refine ⟨?_, ?_, ?_, ?_⟩ <;> decide +kernel

end ShardOp
end DistCache
