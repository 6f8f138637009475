import DistCache.DeadlineOrder
import DistCache.FrequencyOrder

/-!
# The order of the evictions

Each policy gives up its keys in the order that its name promises: `lru` by the last use,
`fifo` by the insertion, `lfu` by the number of the uses and then by the last use, `ttl`
by the deadline, and `random` in any order.  The ledger of the calls says what these
orders are, and a policy stays recorded by it whatever the calls are.
-/

namespace DistCache
namespace Eviction

open Recency

/-- A key with the record `r` is given up before one with the record `s`. -/
def Kind.Sooner (kind : Kind) (r s : Record) : Prop :=
  match kind with
  | .noEviction => False
  | .lru => r.touched < s.touched
  | .lfu => r.freq < s.freq ∨ r.freq = s.freq ∧ r.touched < s.touched
  | .fifo => r.inserted < s.inserted
  | .random => True
  | .ttl => r.deadline ≤ s.deadline

def Kind.First (kind : Kind) (record : Key → Option Record) (victim : Key) : Prop :=
  ∃ r, record victim = some r ∧
    ∀ key s, record key = some s → key ≠ victim → kind.Sooner r s

theorem Random.mem_keys_remove (p : Random) (key other : Key) :
    other ∈ (p.remove key).keys ↔ other ≠ key ∧ other ∈ p.keys := by
  by_cases hmem : key ∈ p.keys
  · rw [(p.perm_remove hmem).mem_iff, p.nodup_keys.mem_erase_iff]
  · have hnone : p.idx.lookup key = none := by
      rwa [AList.lookup_eq_none, ← p.mem_keys_iff]
    have hsame : p.remove key = p := by
      unfold Random.remove
      split
      · rename_i hlookup _
        rw [hnone] at hlookup
        contradiction
      · rfl
    rw [hsame]
    constructor
    · intro hother
      exact ⟨fun heq => hmem (heq ▸ hother), hother⟩
    · exact And.right

namespace Policy

def Recorded (policy : Policy) (record : Key → Option Record) : Prop :=
  match policy with
  | .noEviction _ => True
  | .lru p => Stamped (Option.map Record.touched ∘ record) p.ll.reverse
  | .lfu p => p.Recorded record
  | .fifo p => Stamped (Option.map Record.inserted ∘ record) p.ll
  | .random p => ∀ key, key ∈ p.keys ↔ (record key).isSome
  | .ttl p => p.Recorded record

theorem first_of_stamped {stamp : Record → ℕ} {kind : Kind} {record : Key → Option Record}
    {victim : Key} {rest : List Key}
    (hstamped : Stamped (Option.map stamp ∘ record) (victim :: rest))
    (hkind : ∀ r s, stamp r < stamp s → kind.Sooner r s) : kind.First record victim := by
  obtain ⟨m, hm, hfirst⟩ := hstamped.first
  obtain ⟨r, hrecord, rfl⟩ := Option.map_eq_some_iff.mp hm
  refine ⟨r, hrecord, ?_⟩
  intro key s hs hne
  apply hkind
  apply hfirst key _ _ hne
  rw [Function.comp_apply, hs]
  rfl

/-! ## Calls that change nothing -/

theorem add_eq_access {policy : Policy} {key : Key} (htracks : policy.Tracks key)
    (hkind : policy.kind ≠ .noEviction) : policy.add key = policy.access key := by
  cases policy with
  | noEviction p => exact absurd rfl hkind
  | lru p =>
      have hmem : key ∈ p.ll := htracks
      simp only [Policy.add, Policy.access, Lru.add, Lru.access, if_pos hmem]
  | lfu p =>
      have hmem : key ∈ p.nodes := htracks
      simp only [Policy.add, Policy.access, Lfu.add, if_pos hmem]
  | fifo p =>
      have hmem : key ∈ p.ll := htracks
      simp only [Policy.add, Policy.access, Fifo.add, dif_pos hmem]
  | random p =>
      have hmem : key ∈ p.idx := htracks
      simp only [Policy.add, Policy.access, Random.add, dif_pos hmem]
  | ttl p =>
      have hmem : key ∈ p.eff := htracks
      simp only [Policy.add, Policy.access, Ttl.add, if_pos hmem]

theorem access_of_not_tracks {policy : Policy} {key : Key} (hnot : ¬ policy.Tracks key) :
    policy.access key = policy := by
  cases policy with
  | lru p =>
      have hmem : key ∉ p.ll := hnot
      simp only [Policy.access, Lru.access, if_neg hmem]
  | lfu p => simp only [Policy.access, Lfu.access, AList.lookup_eq_none.mpr hnot]
  | _ => rfl

theorem note_of_kind_ne {policy : Policy} {key : Key} {expireAt : ℤ}
    (hkind : policy.kind ≠ .ttl) : policy.note key expireAt = policy := by
  cases policy with
  | ttl p => exact absurd rfl hkind
  | _ => rfl

namespace Recorded

variable {policy : Policy} {record : Key → Option Record} {ledger : Ledger} {key : Key}

theorem tracks_iff (hrecorded : policy.Recorded record) (hkind : policy.kind ≠ .noEviction) :
    policy.Tracks key ↔ (record key).isSome := by
  cases policy with
  | noEviction p => exact absurd rfl hkind
  | lru p =>
      have hmem := hrecorded.mem_iff key
      rw [List.mem_reverse, Function.comp_apply, Option.isSome_map] at hmem
      exact hmem
  | lfu p =>
      have hfreq := Lfu.Recorded.freq hrecorded key
      rw [Policy.Tracks, ← AList.lookup_isSome, hfreq, Option.isSome_map]
  | fifo p =>
      have hmem := hrecorded.mem_iff key
      rw [Function.comp_apply, Option.isSome_map] at hmem
      exact hmem
  | random p => exact (p.mem_keys_iff key).symm.trans (hrecorded key)
  | ttl p =>
      have hdeadline := Ttl.Recorded.deadline hrecorded key
      rw [Policy.Tracks, ← AList.lookup_isSome, hdeadline, Option.isSome_map]

theorem follows (hrecorded : policy.Recorded record) :
    ∃ keys, policy.Follows keys := by
  cases policy with
  | noEviction p => exact ⟨List.replicate p.n [], (List.length_replicate).symm⟩
  | lru p => exact ⟨p.ll, .refl _⟩
  | lfu p => exact ⟨p.nodes.keys, Lfu.Recorded.wf hrecorded, .refl _⟩
  | fifo p => exact ⟨p.ll, .refl _⟩
  | random p => exact ⟨p.keys, .refl _⟩
  | ttl p => exact ⟨p.eff.keys, Ttl.Recorded.wf hrecorded, .refl _⟩

theorem new (rng : ℕ → ℕ) (kind : Kind) : (new rng kind).Recorded fun _ => none := by
  have hfollows := Policy.follows_new rng kind
  cases kind with
  | noEviction => trivial
  | lru => exact Stamped.nil fun _ => rfl
  | lfu =>
      exact ⟨hfollows.1, fun _ => rfl, fun _ => Stamped.nil fun _ => rfl,
        fun _ _ hrecord => absurd hrecord (Option.some_ne_none _).symm⟩
  | fifo => exact Stamped.nil fun _ => rfl
  | random => simp [Recorded, Eviction.new]
  | ttl => exact ⟨hfollows.1, fun _ => rfl, fun k _ hk => absurd hk (Nat.not_lt_zero k)⟩

/-! ## Uses and insertions -/

theorem touch (hrecorded : policy.Recorded ledger.record) (htimed : ledger.Timed) {r : Record}
    (hrecord : ledger.record key = some r) :
    (policy.access key).Recorded (Function.update ledger.record key (some (ledger.touch r))) := by
  have hnow : ∀ other s, ledger.record other = some s → s.touched < ledger.calls :=
    fun other s hs => (htimed other s hs).touched
  cases policy with
  | noEviction p => trivial
  | lru p =>
      have hstamped : Stamped (Option.map Record.touched ∘ ledger.record) p.ll.reverse := hrecorded
      have hmem : key ∈ p.ll := by
        rw [← List.mem_reverse, hstamped.mem_iff, Function.comp_apply, hrecord]
        rfl
      have hlast := hstamped.last (htimed.stamp_lt fun _ _ h => h.touched) key
      simp only [Policy.access, Lru.access, if_pos hmem, Recorded, List.reverse_cons,
        reverse_erase p.nodup, Function.comp_update]
      exact hlast
  | lfu p => exact Lfu.Recorded.access hrecorded hrecord hnow
  | fifo p =>
      have hsame : (Option.map Record.inserted ∘ ledger.record) key = some r.inserted := by
        rw [Function.comp_apply, hrecord]
        rfl
      simp only [Recorded, Policy.access, Function.comp_update]
      rw [Function.update_eq_self_iff.mpr hsame.symm]
      exact hrecorded
  | random p =>
      intro other
      rw [hrecorded other]
      by_cases hother : other = key
      · simp [hother, hrecord]
      · simp [hother]
  | ttl p =>
      apply Ttl.Recorded.congr hrecorded
      intro other
      by_cases hother : other = key
      · simp [hother, hrecord, Ledger.touch]
      · simp [hother]

theorem insert (hrecorded : policy.Recorded ledger.record) (htimed : ledger.Timed)
    (hnone : ledger.record key = none) :
    (policy.add key).Recorded (Function.update ledger.record key (some ledger.fresh)) := by
  cases policy with
  | noEviction p => trivial
  | lru p =>
      have hlast := Stamped.last hrecorded (htimed.stamp_lt fun _ _ h => h.touched) key
      simp only [Policy.add, Lru.add, Recorded, List.reverse_cons,
        reverse_erase p.nodup, Function.comp_update]
      exact hlast
  | lfu p =>
      exact Lfu.Recorded.add_new hrecorded hnone ledger.fresh rfl
        (fun other s hs => (htimed other s hs).touched)
        (fun other s hs => (htimed other s hs).freq)
  | fifo p =>
      have hstamped : Stamped (Option.map Record.inserted ∘ ledger.record) p.ll := hrecorded
      have hnot : key ∉ p.ll := by
        rw [hstamped.mem_iff, Function.comp_apply, hnone]
        exact Bool.false_ne_true
      have hlast := hstamped.last (htimed.stamp_lt fun _ _ h => h.inserted) key
      rw [List.erase_of_not_mem hnot] at hlast
      simp only [Policy.add, Fifo.add, dif_neg hnot, Recorded, Function.comp_update]
      exact hlast
  | random p =>
      have hnot : key ∉ p.idx := by
        rw [← p.mem_keys_iff, hrecorded key, hnone]
        exact Bool.false_ne_true
      simp only [Policy.add, Random.add, dif_neg hnot, Recorded]
      intro other
      rw [List.mem_append, List.mem_singleton, hrecorded other]
      by_cases hother : other = key
      · simp [hother]
      · simp [hother]
  | ttl p =>
      have hnot : key ∉ p.eff := by
        rw [← AList.lookup_eq_none, Ttl.Recorded.deadline hrecorded, hnone]
        rfl
      simp only [Policy.add, Ttl.add, if_neg hnot]
      exact Ttl.Recorded.enter hrecorded key ledger.fresh

theorem of_noEviction (hkind : policy.kind = .noEviction) (record : Key → Option Record) :
    policy.Recorded record := by
  cases policy with
  | noEviction p => trivial
  | _ => simp [Policy.kind] at hkind

theorem access (hrecorded : policy.Recorded ledger.record) (htimed : ledger.Timed) (key : Key) :
    (policy.access key).Recorded (ledger.access key).record := by
  by_cases hkind : policy.kind = .noEviction
  · exact of_noEviction ((policy.kind_access key).trans hkind) _
  cases hrecord : ledger.record key with
  | none =>
      have hnot : ¬ policy.Tracks key := by
        rw [hrecorded.tracks_iff hkind, hrecord]
        exact Bool.false_ne_true
      rw [access_of_not_tracks hnot, Ledger.access_of_none hrecord]
      exact hrecorded
  | some r =>
      have htouched := hrecorded.touch htimed hrecord
      simp only [Ledger.access, Ledger.put, hrecord, Option.map_some]
      exact htouched

theorem add (hrecorded : policy.Recorded ledger.record) (htimed : ledger.Timed) (key : Key) :
    (policy.add key).Recorded (ledger.add key).record := by
  by_cases hkind : policy.kind = .noEviction
  · exact of_noEviction ((policy.kind_add key).trans hkind) _
  cases hrecord : ledger.record key with
  | none =>
      have hinserted := hrecorded.insert htimed hrecord
      simp only [Ledger.add, Ledger.put, hrecord, Option.map_none, Option.getD_none]
      exact hinserted
  | some r =>
      have htracks : policy.Tracks key := by
        rw [hrecorded.tracks_iff hkind, hrecord]
        rfl
      have htouched := hrecorded.touch htimed hrecord
      rw [add_eq_access htracks hkind]
      simp only [Ledger.add, Ledger.put, hrecord, Option.map_some, Option.getD_some]
      exact htouched

theorem note (hrecorded : policy.Recorded ledger.record) (hkind : policy.kind = .ttl)
    (key : Key) (expireAt : ℤ) :
    (policy.note key expireAt).Recorded (ledger.note key expireAt).record := by
  cases policy with
  | ttl p =>
      exact Ttl.Recorded.enter hrecorded key
        { (ledger.record key).getD ledger.fresh with
          deadline := if expireAt = 0 then ttlNever else expireAt }
  | _ => simp [Policy.kind] at hkind

/-! ## Keys that leave -/

theorem remove (hrecorded : policy.Recorded record) (key : Key) :
    (policy.remove key).Recorded (Function.update record key none) := by
  cases policy with
  | noEviction p => trivial
  | lru p =>
      have herased := Stamped.erase hrecorded key
      simp only [Policy.remove, Lru.remove, Recorded, reverse_erase p.nodup,
        Function.comp_update]
      exact herased
  | lfu p => exact Lfu.Recorded.remove hrecorded key
  | fifo p =>
      have herased := Stamped.erase hrecorded key
      simp only [Policy.remove, Fifo.remove, Recorded, Function.comp_update]
      exact herased
  | random p =>
      have hrandom : ∀ key, key ∈ p.keys ↔ (record key).isSome := hrecorded
      intro other
      rw [Random.mem_keys_remove, hrandom]
      by_cases hother : other = key
      · simp [hother]
      · simp [hother]
  | ttl p => exact Ttl.Recorded.remove hrecorded key

theorem evict_some (hrecorded : policy.Recorded record) {victim : Key}
    (hevict : policy.evict.1 = some victim) :
    policy.evict.2.Recorded (Function.update record victim none) ∧
      policy.kind.First record victim := by
  cases policy with
  | noEviction p => simp [Policy.evict] at hevict
  | lru p =>
      simp only [Policy.evict, Lru.evict] at hevict ⊢
      cases hlast : p.ll.getLast? with
      | none => simp [hlast] at hevict
      | some last =>
          simp only [hlast, Option.some.injEq] at hevict ⊢
          subst last
          have hstamped : Stamped (Option.map Record.touched ∘ record) p.ll.reverse := hrecorded
          have hsplit : p.ll.reverse = victim :: p.ll.dropLast.reverse := by
            nth_rewrite 1 [← List.dropLast_append_getLast? victim hlast]
            rw [List.reverse_append]
            rfl
          rw [hsplit] at hstamped
          have herased := hstamped.erase victim
          rw [List.erase_cons_head] at herased
          refine ⟨?_, first_of_stamped hstamped fun _ _ h => h⟩
          simp only [Recorded, Function.comp_update]
          exact herased
  | lfu p => exact Lfu.Recorded.evict_some hrecorded hevict
  | fifo p =>
      simp only [Policy.evict, Fifo.evict] at hevict ⊢
      cases hhead : p.ll.head? with
      | none => simp [hhead] at hevict
      | some first =>
          simp only [hhead, Option.some.injEq] at hevict ⊢
          subst first
          have hstamped : Stamped (Option.map Record.inserted ∘ record) p.ll := hrecorded
          rw [← List.cons_head?_tail hhead] at hstamped
          have herased := hstamped.erase victim
          rw [List.erase_cons_head] at herased
          refine ⟨?_, first_of_stamped hstamped fun _ _ h => h⟩
          simp only [Recorded, Function.comp_update]
          exact herased
  | random p =>
      have hrandom : ∀ key, key ∈ p.keys ↔ (record key).isSome := hrecorded
      simp only [Policy.evict, Random.evict] at hevict ⊢
      cases hfound : p.keys[p.rng p.draws % p.keys.length]? with
      | none => simp [hfound] at hevict
      | some found =>
          simp only [hfound, Option.some.injEq] at hevict ⊢
          subst found
          have hremoved : (Policy.random p).Recorded record := hrecorded
          obtain ⟨r, hr⟩ := Option.isSome_iff_exists.mp
            ((hrandom victim).mp (List.mem_of_getElem? hfound))
          exact ⟨hremoved.remove victim, r, hr, fun _ _ _ _ => trivial⟩
  | ttl p =>
      obtain ⟨hnext, r, hrecord, hleast⟩ := Ttl.Recorded.evictLoop_some hrecorded hevict
      exact ⟨hnext, r, hrecord, fun key s hs _ => hleast key s hs⟩

theorem evict_none (hrecorded : policy.Recorded record) (hevict : policy.evict.1 = none) :
    policy.evict.2.Recorded record := by
  cases policy with
  | noEviction p => trivial
  | lru p =>
      simp only [Policy.evict, Lru.evict] at hevict ⊢
      cases hlast : p.ll.getLast? with
      | none => exact hrecorded
      | some last => simp [hlast] at hevict
  | lfu p =>
      have hsame := (Lfu.Recorded.wf hrecorded).evict_none hevict
      simp only [Policy.evict, hsame.1]
      exact hrecorded
  | fifo p =>
      simp only [Policy.evict, Fifo.evict] at hevict ⊢
      cases hhead : p.ll.head? with
      | none => exact hrecorded
      | some first => simp [hhead] at hevict
  | random p =>
      simp only [Policy.evict, Random.evict] at hevict ⊢
      cases hfound : p.keys[p.rng p.draws % p.keys.length]? with
      | none => exact hrecorded
      | some found => simp [hfound] at hevict
  | ttl p => exact Ttl.Recorded.evictLoop_none hrecorded hevict

theorem evict_eq_none_iff (hrecorded : policy.Recorded record)
    (hkind : policy.kind ≠ .noEviction) :
    policy.evict.1 = none ↔ ∀ key, ¬ policy.Tracks key := by
  obtain ⟨keys, hfollows⟩ := hrecorded.follows
  constructor
  · intro hevict key
    rw [hfollows.tracks_iff hkind, (hfollows.evict_none hevict).2 hkind]
    exact List.not_mem_nil
  · intro hall
    cases hevict : policy.evict.1 with
    | none => rfl
    | some victim =>
        have hmem := (hfollows.evict_some hevict).1
        exact absurd ((hfollows.tracks_iff hkind).mpr hmem) (hall victim)

end Recorded

theorem Follows.nodup {policy : Policy} {keys : List Key} (hfollows : policy.Follows keys)
    (hkind : policy.kind ≠ .noEviction) : keys.Nodup := by
  cases policy with
  | noEviction p => exact absurd rfl hkind
  | lru p => exact (List.Perm.nodup_iff hfollows).mp p.nodup
  | lfu p => exact hfollows.2.nodup_iff.mp p.nodes.keys_nodup
  | fifo p => exact (List.Perm.nodup_iff hfollows).mp p.nodup
  | random p => exact (List.Perm.nodup_iff hfollows).mp p.nodup_keys
  | ttl p => exact hfollows.2.nodup_iff.mp p.eff.keys_nodup

theorem Follows.perm_order {policy : Policy} {keys : List Key} (hfollows : policy.Follows keys)
    (hkind : policy.kind ≠ .noEviction) : policy.order.Perm keys := by
  induction hsupply : policy.supply using Nat.strong_induction_on generalizing policy keys with
  | _ supply ih =>
      cases hevict : policy.evict.1 with
      | none =>
          rw [Policy.order_of_none hevict, (hfollows.evict_none hevict).2 hkind]
      | some victim =>
          obtain ⟨hmem, hrest⟩ := hfollows.evict_some hevict
          have hless := Policy.supply_evict hevict
          have hperm := ih policy.evict.2.supply (by omega) hrest
            (by rwa [Policy.kind_evict]) rfl
          rw [Policy.order_of_some hevict]
          exact (hperm.cons victim).trans (List.perm_cons_erase hmem).symm

end Policy

/-! ## Runs -/

namespace Watched

/-- The policy is recorded by a ledger of past calls. -/
structure Kept (w : Watched) : Prop where
  timed : w.ledger.Timed
  recorded : w.policy.Recorded w.ledger.record

theorem Kept.call {w : Watched} (hkept : w.Kept) (call : PolicyCall) : (w.call call).Kept := by
  obtain ⟨htimed, hrecorded⟩ := hkept
  cases call with
  | add key => exact ⟨htimed.add key, hrecorded.add htimed key⟩
  | note key expireAt =>
      simp only [Watched.call]
      split_ifs with hkind
      · exact ⟨htimed.note key expireAt, hrecorded.note hkind key expireAt⟩
      · rw [Policy.note_of_kind_ne hkind]
        exact ⟨htimed.idle, hrecorded⟩
  | access key => exact ⟨htimed.access key, hrecorded.access htimed key⟩
  | remove key => exact ⟨htimed.remove key, hrecorded.remove key⟩
  | evict =>
      refine ⟨htimed.evicted _, ?_⟩
      cases hevict : w.policy.evict.1 with
      | none =>
          simp only [Watched.call, hevict]
          exact hrecorded.evict_none hevict
      | some victim =>
          simp only [Watched.call, hevict]
          exact (hrecorded.evict_some hevict).1

@[simp] theorem kind_call (w : Watched) (call : PolicyCall) :
    (w.call call).policy.kind = w.policy.kind := by
  cases call <;> simp [Watched.call]

theorem kept_foldl {w : Watched} (hkept : w.Kept) (calls : List PolicyCall) :
    (calls.foldl Watched.call w).Kept ∧
      (calls.foldl Watched.call w).policy.kind = w.policy.kind := by
  induction calls generalizing w with
  | nil => exact ⟨hkept, rfl⟩
  | cons call rest ih =>
      have hrest := ih (hkept.call call)
      rw [kind_call] at hrest
      exact hrest

theorem kept_watch (rng : ℕ → ℕ) (kind : Kind) (calls : List PolicyCall) :
    (watch rng kind calls).Kept ∧ (watch rng kind calls).policy.kind = kind := by
  have hnew : Kept ⟨new rng kind, .empty⟩ :=
    ⟨fun _ _ hrecord => absurd hrecord (Option.some_ne_none _).symm,
      Policy.Recorded.new rng kind⟩
  have hrun := kept_foldl hnew calls
  rw [Policy.kind_new] at hrun
  exact hrun

/-- What the evictions of a policy do: the tracked keys are those with a record,
a victim is missing only if there is no tracked key, the victim comes sooner
than the others, only it is given up, and draining gives each key once. -/
structure Evicts (w : Watched) (sooner : Record → Record → Prop) : Prop where
  tracks_iff : ∀ key, w.policy.Tracks key ↔ (w.ledger.record key).isSome
  none_iff : w.policy.evict.1 = none ↔ ∀ key, ¬ w.policy.Tracks key
  first : ∀ victim, w.policy.evict.1 = some victim →
    ∃ r, w.ledger.record victim = some r ∧
      ∀ key s, w.ledger.record key = some s → key ≠ victim → sooner r s
  evicted : ∀ victim, w.policy.evict.1 = some victim →
    ∀ key, w.policy.evict.2.Tracks key ↔ w.policy.Tracks key ∧ key ≠ victim
  removed : ∀ gone key, (w.policy.remove gone).Tracks key ↔ w.policy.Tracks key ∧ key ≠ gone
  drained : w.policy.order.Nodup ∧ ∀ key, key ∈ w.policy.order ↔ w.policy.Tracks key

theorem isSome_update_none (record : Key → Option Record) (gone key : Key) :
    (Function.update record gone none key).isSome ↔ (record key).isSome ∧ key ≠ gone := by
  by_cases hkey : key = gone
  · simp [hkey]
  · simp [hkey]

theorem Kept.evicts {w : Watched} (hkept : w.Kept) (hkind : w.policy.kind ≠ .noEviction) :
    w.Evicts w.policy.kind.Sooner := by
  have htracks : ∀ key, w.policy.Tracks key ↔ (w.ledger.record key).isSome := fun key =>
    hkept.recorded.tracks_iff hkind
  constructor
  · exact htracks
  · exact hkept.recorded.evict_eq_none_iff hkind
  · intro victim hevict
    exact (hkept.recorded.evict_some hevict).2
  · intro victim hevict key
    have hnext := (hkept.recorded.evict_some hevict).1
    rw [hnext.tracks_iff (by rwa [Policy.kind_evict]), isSome_update_none, htracks]
  · intro gone key
    have hnext := hkept.recorded.remove gone
    rw [hnext.tracks_iff (by rwa [Policy.kind_remove]), isSome_update_none, htracks]
  · obtain ⟨keys, hfollows⟩ := hkept.recorded.follows
    have hperm := hfollows.perm_order hkind
    refine ⟨hperm.nodup_iff.mpr (hfollows.nodup hkind), ?_⟩
    intro key
    rw [hperm.mem_iff, hfollows.tracks_iff hkind]

theorem evicts_watch (rng : ℕ → ℕ) {kind : Kind} (hkind : kind ≠ .noEviction)
    (calls : List PolicyCall) : (watch rng kind calls).Evicts kind.Sooner := by
  obtain ⟨hkept, hsame⟩ := kept_watch rng kind calls
  have hevicts := hkept.evicts (by rwa [hsame])
  rwa [hsame] at hevicts

theorem record_eq_none_of_call {w : Watched} {key : Key} (hnone : w.ledger.record key = none)
    {call : PolicyCall} (hadd : call ≠ .add key) (hnote : ∀ expireAt, call ≠ .note key expireAt) :
    (w.call call).ledger.record key = none := by
  have hput : ∀ other entry, key ≠ other ∨ entry = none →
      (w.ledger.put other entry).record key = none := by
    intro other entry hcase
    simp only [Ledger.put]
    by_cases hkey : key = other
    · rw [hkey, Function.update_self]
      exact hcase.resolve_left (not_not.mpr hkey)
    · rwa [Function.update_of_ne hkey]
  cases call with
  | add other => exact hput other _ (Or.inl fun heq => hadd (heq ▸ rfl))
  | note other expireAt =>
      simp only [Watched.call]
      split_ifs
      · exact hput other _ (Or.inl fun heq => hnote expireAt (heq ▸ rfl))
      · exact hnone
  | access other =>
      by_cases hkey : key = other
      · subst other
        rw [Watched.call, Ledger.access_of_none hnone]
        exact hnone
      · exact hput other _ (Or.inl hkey)
  | remove other => exact hput other none (Or.inr rfl)
  | evict =>
      simp only [Watched.call]
      cases w.policy.evict.1 with
      | none => exact hnone
      | some victim => exact hput victim none (Or.inr rfl)

theorem record_eq_none_of_foldl {w : Watched} {key : Key} (hnone : w.ledger.record key = none)
    (calls : List PolicyCall) (hadd : .add key ∉ calls)
    (hnote : ∀ expireAt, .note key expireAt ∉ calls) :
    (calls.foldl Watched.call w).ledger.record key = none := by
  induction calls generalizing w with
  | nil => exact hnone
  | cons call rest ih =>
      rw [List.mem_cons, not_or] at hadd
      have hfirst : (w.call call).ledger.record key = none := by
        apply record_eq_none_of_call hnone (Ne.symm hadd.1)
        intro expireAt heq
        exact hnote expireAt (heq ▸ List.mem_cons_self)
      exact ih hfirst hadd.2 fun expireAt hmem =>
        hnote expireAt (List.mem_cons_of_mem call hmem)

theorem tracked_again {w : Watched} {key : Key} (hkept : w.Kept)
    (hfirst : w.policy.evict.1 = some key) (between : List PolicyCall)
    (hsecond : (between.foldl Watched.call (w.call .evict)).policy.evict.1 = some key) :
    .add key ∈ between ∨ ∃ expireAt, .note key expireAt ∈ between := by
  by_contra hnever
  rw [not_or, not_exists] at hnever
  have hgone : (w.call .evict).ledger.record key = none := by
    simp only [Watched.call, hfirst, Ledger.evicted, Ledger.remove, Ledger.put,
      Function.update_self]
  have hnone := record_eq_none_of_foldl hgone between hnever.1 hnever.2
  obtain ⟨hlater, -⟩ := kept_foldl (hkept.call .evict) between
  obtain ⟨r, hrecord, -⟩ := (hlater.recorded.evict_some hsecond).2
  rw [hnone] at hrecord
  contradiction

end Watched

/-! ## The orders of the policies -/

/-- `lfu` gives up the least frequently used key, the least recently used one of
these, and its smallest frequency is a lower bound. -/
theorem lfu_gives_up_least_frequent (rng : ℕ → ℕ) (calls : List PolicyCall) :
    (watch rng .lfu calls).Evicts
        (fun r s => r.freq < s.freq ∨ r.freq = s.freq ∧ r.touched < s.touched) ∧
      ∃ p, (watch rng .lfu calls).policy = .lfu p ∧
        ∀ key r, (watch rng .lfu calls).ledger.record key = some r →
          p.nodes.lookup key = some r.freq ∧ p.minFreq ≤ r.freq := by
  refine ⟨Watched.evicts_watch rng (by decide) calls, ?_⟩
  obtain ⟨⟨-, hrecorded⟩, hkind⟩ := Watched.kept_watch rng .lfu calls
  cases hpolicy : (watch rng .lfu calls).policy with
  | lfu p =>
      rw [hpolicy] at hrecorded
      refine ⟨p, rfl, ?_⟩
      intro key r hrecord
      refine ⟨?_, Lfu.Recorded.minFreq_le hrecorded key r hrecord⟩
      rw [Lfu.Recorded.freq hrecorded, hrecord]
      rfl
  | _ => simp [hpolicy, Policy.kind] at hkind

/-- `ttl` gives up a key with the nearest deadline, and none twice unless it has
been tracked again. -/
theorem ttl_gives_up_nearest_deadline (rng : ℕ → ℕ) (calls : List PolicyCall) :
    (watch rng .ttl calls).Evicts (fun r s => r.deadline ≤ s.deadline) ∧
      ∀ key between, (watch rng .ttl calls).policy.evict.1 = some key →
        (watch rng .ttl (calls ++ .evict :: between)).policy.evict.1 = some key →
        .add key ∈ between ∨ ∃ expireAt, .note key expireAt ∈ between := by
  refine ⟨Watched.evicts_watch rng (by decide) calls, ?_⟩
  intro key between hfirst hsecond
  obtain ⟨hkept, -⟩ := Watched.kept_watch rng .ttl calls
  apply Watched.tracked_again hkept hfirst between
  rw [watch, List.foldl_append, List.foldl_cons] at hsecond
  exact hsecond

/-- `lru` and `fifo` give up the oldest key and `random` any one, and the index
of `random` is exact. -/
theorem list_policies_give_up_oldest (rng : ℕ → ℕ) (calls : List PolicyCall) :
    (watch rng .lru calls).Evicts (fun r s => r.touched < s.touched) ∧
      (watch rng .fifo calls).Evicts (fun r s => r.inserted < s.inserted) ∧
      (watch rng .random calls).Evicts (fun _ _ => True) ∧
      ∃ p, (watch rng .random calls).policy = .random p ∧ p.keys.Nodup ∧
        ∀ key i, p.idx.lookup key = some i ↔ p.keys[i]? = some key := by
  refine ⟨Watched.evicts_watch rng (by decide) calls, Watched.evicts_watch rng (by decide) calls,
    Watched.evicts_watch rng (by decide) calls, ?_⟩
  obtain ⟨-, hkind⟩ := Watched.kept_watch rng .random calls
  cases hpolicy : (watch rng .random calls).policy with
  | random p => exact ⟨p, rfl, p.nodup_keys, p.idx_iff⟩
  | _ => simp [hpolicy, Policy.kind] at hkind

end Eviction
end DistCache
