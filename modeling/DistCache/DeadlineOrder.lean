import DistCache.PolicyLedger

/-!
# The deadlines of ttl

`ttl` keeps the present deadline of every key and a heap of items.  A new deadline adds
an item and leaves the old one, and an item that is popped counts only if it carries the
present deadline of its key.  The heap has an item for the present deadline of every
key, so that the first item that counts is not above the item of any key.
-/

namespace DistCache
namespace Eviction
namespace Ttl

theorem less_iff (first second : TtlItem) :
    first.less second = true ↔ first.expireAt < second.expireAt := by
  simp [TtlItem.less]

structure Recorded (p : Ttl) (record : Key → Option Record) : Prop where
  wf : p.Wf
  deadline : ∀ key, p.eff.lookup key = (record key).map Record.deadline
  ordered : SliceHeap.Ordered TtlItem.expireAt p.h p.h.length

namespace Recorded

variable {p : Ttl} {record : Key → Option Record} {key : Key}

theorem enter (hrecorded : p.Recorded record) (key : Key) (r : Record) :
    Recorded ⟨p.eff.insert key r.deadline, p.push ⟨key, r.deadline⟩⟩
      (Function.update record key (some r)) := by
  constructor
  · exact hrecorded.wf.enter key r.deadline
  · exact lookup_insert_update hrecorded.deadline key r
  · exact SliceHeap.ordered_push less_iff hrecorded.ordered _

theorem congr {other : Key → Option Record} (hrecorded : p.Recorded record)
    (hsame : ∀ key, (other key).map Record.deadline = (record key).map Record.deadline) :
    p.Recorded other := by
  refine ⟨hrecorded.wf, ?_, hrecorded.ordered⟩
  intro key
  rw [hsame, hrecorded.deadline]

theorem remove (hrecorded : p.Recorded record) (key : Key) :
    (p.remove key).Recorded (Function.update record key none) := by
  exact ⟨hrecorded.wf.remove key, lookup_erase_update hrecorded.deadline key,
    hrecorded.ordered⟩

theorem pop (hrecorded : p.Recorded record) {it : TtlItem} {rest : List TtlItem}
    (hpop : SliceHeap.pop TtlItem.less p.h = some (it, rest))
    (hstale : p.eff.lookup it.key ≠ some it.expireAt) :
    Recorded { p with h := rest } record where
  wf := hrecorded.wf.pop hpop (fun _ _ h => h) hstale
  deadline := hrecorded.deadline
  ordered := (SliceHeap.ordered_pop less_iff hrecorded.ordered hpop).1

theorem evictLoop_some {fuel : ℕ} {victim : Key} (hrecorded : p.Recorded record)
    (hevict : (Ttl.evictLoop fuel p).1 = some victim) :
    (Ttl.evictLoop fuel p).2.Recorded (Function.update record victim none) ∧
      ∃ r, record victim = some r ∧
        ∀ key s, record key = some s → r.deadline ≤ s.deadline := by
  have hwf := (hrecorded.wf.evictLoop_some hevict).1
  revert hwf
  apply evictLoop_rule (P := fun p result => p.Recorded record → result.1 = some victim →
    result.2.Wf → result.2.Recorded (Function.update record victim none) ∧
      ∃ r, record victim = some r ∧
        ∀ key s, record key = some s → r.deadline ≤ s.deadline) ?_ ?_ ?_ fuel p hrecorded hevict
  · intro p _ hevict
    cases hevict
  · intro p it rest hpop hcurrent hrecorded hevict hwf
    rw [Option.some.injEq] at hevict
    subst hevict
    obtain ⟨hordered, hleast⟩ := SliceHeap.ordered_pop less_iff hrecorded.ordered hpop
    refine ⟨⟨hwf, (hrecorded.remove it.key).deadline, hordered⟩, ?_⟩
    rw [hrecorded.deadline] at hcurrent
    obtain ⟨r, hrecord, hdeadline⟩ := Option.map_eq_some_iff.mp hcurrent
    refine ⟨r, hrecord, ?_⟩
    intro key s hs
    have hitem : (⟨key, s.deadline⟩ : TtlItem) ∈ p.h := by
      apply hrecorded.wf
      rw [hrecorded.deadline, hs]
      rfl
    rw [hdeadline]
    exact hleast _ hitem
  · intro p it rest result hpop hstale ih hrecorded
    exact ih (hrecorded.pop hpop hstale)

theorem evictLoop_none {fuel : ℕ} (hrecorded : p.Recorded record)
    (hevict : (Ttl.evictLoop fuel p).1 = none) :
    (Ttl.evictLoop fuel p).2.Recorded record := by
  apply evictLoop_rule (P := fun p result => p.Recorded record → result.1 = none →
    result.2.Recorded record) ?_ ?_ ?_ fuel p hrecorded hevict
  · exact fun p hrecorded _ => hrecorded
  · intro p it rest _ _ _ hevict
    cases hevict
  · intro p it rest result hpop hstale ih hrecorded
    exact ih (hrecorded.pop hpop hstale)

end Recorded
end Ttl
end Eviction
end DistCache
