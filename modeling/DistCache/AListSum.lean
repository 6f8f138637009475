import Mathlib.Data.List.AList
import Mathlib.Algebra.BigOperators.Group.List.Basic
import Mathlib.Algebra.Order.BigOperators.Group.List
import Mathlib.Tactic

/-!
# Sums over association lists

The sum of a weight over the entries of an `AList`, and how it moves when one
key is written or erased.
-/

namespace DistCache
namespace AListSum

variable {α M : Type*} {β : α → Type*} [AddCommMonoid M]

def weight (f : (a : α) → β a → M) (s : AList β) : M :=
  (s.entries.map fun entry => f entry.1 entry.2).sum

theorem weight_nonneg [PartialOrder M] [IsOrderedAddMonoid M]
    {f : (a : α) → β a → M} (hf : ∀ a b, 0 ≤ f a b) (s : AList β) :
    0 ≤ weight f s := by
  apply List.sum_nonneg
  intro x hx
  obtain ⟨entry, _, rfl⟩ := List.mem_map.mp hx
  exact hf entry.1 entry.2

variable [DecidableEq α]

theorem entries_erase (a : α) (s : AList β) : (s.erase a).entries = s.entries.kerase a := rfl

theorem weight_insert
    (f : (a : α) → β a → M) (a : α) (b : β a) (s : AList β) :
    weight f (s.insert a b) = f a b + weight f (s.erase a) := by
  simp [weight, AList.insert, entries_erase, List.kinsert]

theorem weight_of_lookup
    (f : (a : α) → β a → M) {a : α} {b : β a} {s : AList β}
    (hlookup : s.lookup a = some b) :
    weight f s = f a b + weight f (s.erase a) := by
  have hmem : a ∈ s.entries.keys :=
    List.dlookup_isSome.mp (by
      change (s.lookup a).isSome
      rw [hlookup]
      rfl)
  obtain ⟨found, before, after, hbefore, hsplit, herase⟩ :=
    List.exists_of_kerase hmem
  have hfound : found = b := by
    have hentry : (⟨a, found⟩ : Sigma β) ∈ s.entries := by
      rw [hsplit]
      simp
    have hin := List.mem_dlookup s.nodupKeys hentry
    change found ∈ s.lookup a at hin
    rw [hlookup] at hin
    exact (Option.some.inj hin).symm
  subst found
  rw [weight, weight, entries_erase, herase, hsplit]
  simp only [List.map_append, List.map_cons, List.sum_append, List.sum_cons]
  abel

theorem weight_erase_of_lookup_none
    (f : (a : α) → β a → M) {a : α} {s : AList β}
    (hlookup : s.lookup a = none) :
    weight f (s.erase a) = weight f s := by
  have hmem : a ∉ s.entries.keys := List.dlookup_eq_none.mp hlookup
  rw [weight, weight, entries_erase, List.kerase_of_notMem_keys hmem]

end AListSum
end DistCache
