import Mathlib.Data.List.AList
import Mathlib.Data.Set.Card

/-!
# Reference counts

Holders of things, and a counter for every thing that says how many hold it.
When one holder changes what it holds, a counter stays exact if it goes up for a
thing that is new to the holder and down for one that it gives up.  A holder may
keep a stamp with every thing, from the time when it took it.
-/

namespace DistCache
namespace RefCounts

variable {ι κ : Type*}

def holders (held : ι → Set κ) (k : κ) : Set ι := {i | k ∈ held i}

/-- Every counter is the number of the holders. -/
def Counts (held : ι → Set κ) (count : κ → ℕ) : Prop :=
  ∀ k, (holders held k).encard = count k

variable {held : ι → Set κ} {count count' : κ → ℕ} {i j : ι} {k : κ}

theorem mem_holders : i ∈ holders held k ↔ k ∈ held i := Iff.rfl

theorem counts_zero (hnone : ∀ i, held i = ∅) : Counts held fun _ => 0 := by
  intro k
  have hempty : holders held k = ∅ := by
    ext i
    simp [mem_holders, hnone]
  rw [hempty, Set.encard_empty]
  rfl

theorem Counts.pos_iff (hcounts : Counts held count) (k : κ) : 0 < count k ↔ ∃ i, k ∈ held i := by
  have hexact := hcounts k
  have hpos : (holders held k).encard ≠ 0 ↔ 0 < count k := by
    rw [hexact, Nat.cast_ne_zero, Nat.pos_iff_ne_zero]
  rw [← hpos, Set.encard_ne_zero]
  rfl

theorem Counts.ne_one (hcounts : Counts held count) (hi : k ∈ held i) (hj : k ∈ held j)
    (hne : j ≠ i) : count k ≠ 1 := by
  intro hone
  have hexact := hcounts k
  rw [hone, Nat.cast_one, Set.encard_eq_one] at hexact
  obtain ⟨only, honly⟩ := hexact
  have hi' : i ∈ holders held k := hi
  have hj' : j ∈ holders held k := hj
  rw [honly] at hi' hj'
  exact hne (hj'.trans hi'.symm)

section Update

variable [DecidableEq ι] {ks : Set κ}

theorem holders_update_of_mem (hk : k ∈ ks) :
    holders (Function.update held i ks) k = insert i (holders held k) := by
  ext j
  by_cases hj : j = i
  · subst hj
    simp [mem_holders, hk]
  · simp [mem_holders, hj]

theorem holders_update_of_notMem (hk : k ∉ ks) :
    holders (Function.update held i ks) k = holders held k \ {i} := by
  ext j
  by_cases hj : j = i
  · subst hj
    simp [mem_holders, hk]
  · simp [mem_holders, hj]

theorem Counts.update (hcounts : Counts held count)
    (hkept : ∀ k, (k ∈ ks ↔ k ∈ held i) → count' k = count k)
    (hadded : ∀ k, k ∈ ks → k ∉ held i → count' k = count k + 1)
    (hgiven : ∀ k, k ∉ ks → k ∈ held i → count' k = count k - 1) :
    Counts (Function.update held i ks) count' := by
  intro k
  have hexact := hcounts k
  by_cases hold : k ∈ held i
  · have hin : i ∈ holders held k := hold
    by_cases hnew : k ∈ ks
    · rw [holders_update_of_mem hnew, Set.insert_eq_of_mem hin, hexact,
        hkept k (iff_of_true hnew hold)]
    · rw [holders_update_of_notMem hnew, Set.encard_sdiff_singleton_of_mem hin, hexact,
        hgiven k hnew hold]
      rfl
  · have hout : i ∉ holders held k := hold
    by_cases hnew : k ∈ ks
    · rw [holders_update_of_mem hnew, Set.encard_insert_of_notMem hout, hexact,
        hadded k hnew hold]
      rfl
    · rw [holders_update_of_notMem hnew, Set.sdiff_singleton_eq_self hout, hexact,
        hkept k (iff_of_false hnew hold)]

theorem Counts.take (hcounts : Counts held count)
    (htaken : ∀ k, (k ∈ ks ↔ k ∈ held i) ∧ count' k = count k ∨
      k ∉ held i ∧ k ∈ ks ∧ count' k = count k + 1) :
    Counts (Function.update held i ks) count' := by
  apply hcounts.update
  · intro k hsame
    rcases htaken k with ⟨-, hcount⟩ | ⟨hold, hnew, -⟩
    · exact hcount
    · exact absurd (hsame.mp hnew) hold
  · intro k hnew hold
    rcases htaken k with ⟨hsame, -⟩ | ⟨-, -, hcount⟩
    · exact absurd (hsame.mp hnew) hold
    · exact hcount
  · intro k hnew hold
    rcases htaken k with ⟨hsame, -⟩ | ⟨habsent, -⟩
    · exact absurd (hsame.mpr hold) hnew
    · exact absurd hold habsent

theorem Counts.clear (hcounts : Counts held count)
    (hgiven : ∀ k, k ∈ held i → count' k = count k - 1)
    (hkept : ∀ k, k ∉ held i → count' k = count k) :
    Counts (Function.update held i ∅) count' := by
  apply hcounts.update
  · intro k hsame
    exact hkept k fun hold => Set.notMem_empty k (hsame.mpr hold)
  · intro k hnew
    exact absurd hnew (Set.notMem_empty k)
  · intro k _ hold
    exact hgiven k hold

end Update

theorem Counts.restrict_iff (hcounts : Counts held count) (p : ι → Prop) :
    (∀ k, {i | p i ∧ k ∈ held i}.encard = count k) ↔ ∀ i, ¬ p i → held i = ∅ := by
  constructor
  · intro hexact i hi
    rw [Set.eq_empty_iff_forall_notMem]
    intro k hk
    have hsubset : {i | p i ∧ k ∈ held i} ⊆ holders held k := fun j hj => hj.2
    have hfinite : (holders held k).Finite := Set.finite_of_encard_eq_coe (hcounts k)
    have hle : (holders held k).encard ≤ {i | p i ∧ k ∈ held i}.encard := by
      rw [hcounts, hexact]
    have hsame : {i | p i ∧ k ∈ held i} = holders held k :=
      (hfinite.subset hsubset).eq_of_subset_of_encard_le hsubset hle
    have hin : i ∈ holders held k := hk
    rw [← hsame] at hin
    exact hi hin.1
  · intro hnothing k
    have hsame : {i | p i ∧ k ∈ held i} = holders held k := by
      ext i
      constructor
      · exact fun hi => hi.2
      · intro hk
        by_contra hi
        have hnot : ¬ p i := fun hp => hi ⟨hp, hk⟩
        have hmem : k ∈ held i := hk
        rw [hnothing i hnot] at hmem
        exact hmem
    rw [hsame, hcounts]

/-! ## Stamps -/

/-- A thing that is held already stays as it is, a new one is counted and gets the
stamp. -/
def Registers {σ : Type*} (stamp : σ) (held held' : Option σ) (n n' : ℕ) : Prop :=
  held' = held ∧ n' = n ∨ held = none ∧ held' = some stamp ∧ n' = n + 1

namespace Registers

variable {σ : Type*} {stamp : σ} {first second third : Option σ} {l m n : ℕ}

theorem refl (stamp : σ) (first : Option σ) (n : ℕ) : Registers stamp first first n n :=
  Or.inl ⟨rfl, rfl⟩

theorem trans (hfirst : Registers stamp first second l m)
    (hsecond : Registers stamp second third m n) : Registers stamp first third l n := by
  rcases hfirst with ⟨rfl, rfl⟩ | ⟨habsent, hnew, hcount⟩
  · exact hsecond
  · rcases hsecond with ⟨rfl, rfl⟩ | ⟨habsent', -⟩
    · exact Or.inr ⟨habsent, hnew, hcount⟩
    · rw [hnew] at habsent'
      contradiction

theorem mem_cases [DecidableEq κ] {held held' : AList fun _ : κ => σ}
    (hregisters : Registers stamp (held.lookup k) (held'.lookup k) m n) :
    (k ∈ held' ↔ k ∈ held) ∧ n = m ∨ k ∉ held ∧ k ∈ held' ∧ n = m + 1 := by
  rcases hregisters with ⟨hlookup, hcount⟩ | ⟨habsent, hlookup, hcount⟩
  · refine Or.inl ⟨?_, hcount⟩
    rw [← AList.lookup_isSome, ← AList.lookup_isSome, hlookup]
  · refine Or.inr ⟨AList.lookup_eq_none.mp habsent, ?_, hcount⟩
    exact AList.lookup_isSome.mp (Option.isSome_iff_exists.mpr ⟨_, hlookup⟩)

end Registers
end RefCounts
end DistCache
