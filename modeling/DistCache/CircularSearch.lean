import Mathlib.Tactic

/-!
# The next point on a circle

The points of a set in a linear order, closed to a circle: the next point from a
position is the first one that is not before it, and the first of all when every point
is before it.  In a sorted list it is found by bisection, and the list turned around to
begin there gives the points in the order of a walk around the circle.
-/

namespace DistCache
namespace CircularSearch

/-! ## Next points -/

section Next

variable {α : Type*} [LinearOrder α] {points fewer : Set α} {position point other : α}

def IsNext (points : Set α) (position point : α) : Prop :=
  point ∈ points ∧
    ((position ≤ point ∧ ∀ other ∈ points, position ≤ other → point ≤ other) ∨
      ((∀ other ∈ points, other < position) ∧ ∀ other ∈ points, point ≤ other))

theorem IsNext.unique (hpoint : IsNext points position point)
    (hother : IsNext points position other) : point = other := by
  obtain ⟨hin, ⟨hle, hleast⟩ | ⟨hbefore, hleast⟩⟩ := hpoint
  · obtain ⟨hin', ⟨hle', hleast'⟩ | ⟨hbefore', _⟩⟩ := hother
    · exact le_antisymm (hleast other hin' hle') (hleast' point hin hle)
    · exact absurd (hbefore' point hin) (not_lt.mpr hle)
  · obtain ⟨hin', ⟨hle', _⟩ | ⟨_, hleast'⟩⟩ := hother
    · exact absurd (hbefore other hin') (not_lt.mpr hle')
    · exact le_antisymm (hleast other hin') (hleast' point hin)

theorem IsNext.subset (hnext : IsNext points position point) (hsubset : fewer ⊆ points)
    (hstill : point ∈ fewer) : IsNext fewer position point := by
  refine ⟨hstill, ?_⟩
  rcases hnext.2 with ⟨hle, hleast⟩ | ⟨hbefore, hleast⟩
  · exact Or.inl ⟨hle, fun other hother => hleast other (hsubset hother)⟩
  · exact Or.inr ⟨fun other hother => hbefore other (hsubset hother),
      fun other hother => hleast other (hsubset hother)⟩

theorem isNext_self (hin : point ∈ points) : IsNext points point point :=
  ⟨hin, Or.inl ⟨le_rfl, fun _ _ hle => hle⟩⟩

end Next

/-! ## Bisection -/

def bisect (test : ℕ → Bool) : ℕ → ℕ → ℕ → ℕ
  | 0, i, _ => i
  | fuel + 1, i, j =>
      if i < j then
        let h := (i + j) / 2
        if test h then bisect test fuel i h else bisect test fuel (h + 1) j
      else i

/-- The first index below `n` that meets the test, or `n`; every turn shortens
the interval, so that `n` turns are enough. -/
def search (n : ℕ) (test : ℕ → Bool) : ℕ := bisect test n 0 n

theorem bisect_spec {test : ℕ → Bool} {n : ℕ}
    (hmono : ∀ i j, i ≤ j → j < n → test i = true → test j = true) {fuel i j : ℕ}
    (hfuel : j - i ≤ fuel) (hij : i ≤ j) (hjn : j ≤ n)
    (hbefore : ∀ k < i, test k = false) (hafter : j < n → test j = true) :
    let k := bisect test fuel i j
    k ≤ n ∧ (∀ l < k, test l = false) ∧ (k < n → test k = true) := by
  induction fuel generalizing i j with
  | zero =>
      have heq : i = j := by omega
      subst heq
      exact ⟨hjn, hbefore, hafter⟩
  | succ fuel ih =>
      simp only [bisect]
      by_cases hlt : i < j
      · rw [if_pos hlt]
        by_cases htest : test ((i + j) / 2) = true
        · rw [if_pos htest]
          exact ih (by omega) (by omega) (by omega) hbefore fun _ => htest
        · rw [if_neg htest]
          apply ih (by omega) (by omega) hjn _ hafter
          intro k hk
          by_contra htrue
          rw [Bool.not_eq_false] at htrue
          exact htest (hmono k _ (by omega) (by omega) htrue)
      · rw [if_neg hlt]
        have heq : i = j := by omega
        subst heq
        exact ⟨hjn, hbefore, hafter⟩

theorem search_spec {test : ℕ → Bool} {n : ℕ}
    (hmono : ∀ i j, i ≤ j → j < n → test i = true → test j = true) :
    search n test ≤ n ∧ (∀ k < search n test, test k = false) ∧
      (search n test < n → test (search n test) = true) :=
  bisect_spec hmono (by omega) (Nat.zero_le n) le_rfl (by simp) (by simp)

/-! ## The next point in a sorted list -/

section SortedList

variable {α : Type*} [LinearOrder α] {points : List α} {position : α}

def reaches (points : List α) (position : α) (i : ℕ) : Bool :=
  points[i]?.all fun point => position ≤ point

def index (points : List α) (position : α) : ℕ :=
  let i := search points.length (reaches points position)
  if i = points.length then 0 else i

theorem getElem_le_of_le (hsorted : points.Pairwise (· ≤ ·)) {i j : ℕ} (hij : i ≤ j)
    (hj : j < points.length) : points[i] ≤ points[j] := by
  rcases Nat.eq_or_lt_of_le hij with rfl | hlt
  · exact le_rfl
  · exact List.pairwise_iff_getElem.mp hsorted i j _ hj hlt

theorem reaches_iff {i : ℕ} (hi : i < points.length) :
    reaches points position i = true ↔ position ≤ points[i] := by
  simp [reaches, hi]

theorem search_reaches (hsorted : points.Pairwise (· ≤ ·)) (position : α) :
    search points.length (reaches points position) ≤ points.length ∧
      (∀ k < search points.length (reaches points position), reaches points position k = false) ∧
      ∀ k < points.length, search points.length (reaches points position) ≤ k →
        reaches points position k = true := by
  have hmono : ∀ i j, i ≤ j → j < points.length → reaches points position i = true →
      reaches points position j = true := by
    intro i j hij hj hi
    rw [reaches_iff (by omega)] at hi
    rw [reaches_iff hj]
    exact hi.trans (getElem_le_of_le hsorted hij hj)
  obtain ⟨hle, hbefore, hat⟩ := search_spec hmono
  refine ⟨hle, hbefore, ?_⟩
  intro k hk hreached
  exact hmono _ k hreached hk (hat (by omega))

theorem isNext_index (hsorted : points.Pairwise (· ≤ ·)) (hne : points ≠ []) (position : α) :
    ∃ h : index points position < points.length,
      IsNext {point | point ∈ points} position points[index points position] := by
  have hpos := List.length_pos_of_ne_nil hne
  obtain ⟨hle, hbefore, hat⟩ := search_reaches hsorted position
  by_cases hend : search points.length (reaches points position) = points.length
  · have hindex : index points position = 0 := if_pos hend
    refine ⟨by omega, List.getElem_mem _, Or.inr ⟨?_, ?_⟩⟩
    · intro other hother
      obtain ⟨j, hj, rfl⟩ := List.mem_iff_getElem.mp hother
      have hnot := hbefore j (by omega)
      rw [← Bool.not_eq_true, reaches_iff hj, not_le] at hnot
      exact hnot
    · intro other hother
      obtain ⟨j, hj, rfl⟩ := List.mem_iff_getElem.mp hother
      exact getElem_le_of_le hsorted (by omega) hj
  · have hindex : index points position = search points.length (reaches points position) :=
      if_neg hend
    have hlt : index points position < points.length := by omega
    refine ⟨hlt, List.getElem_mem _, Or.inl ⟨?_, ?_⟩⟩
    · rw [← reaches_iff hlt, hindex]
      exact hat _ (by omega) le_rfl
    · intro other hother hreached
      obtain ⟨j, hj, rfl⟩ := List.mem_iff_getElem.mp hother
      apply getElem_le_of_le hsorted _ hj
      by_contra hless
      have hnot := hbefore j (by omega)
      rw [← Bool.not_eq_true, reaches_iff hj] at hnot
      exact hnot hreached

/-! ## Once around the circle -/

def clockwise (points : List α) (position : α) : List α :=
  points.filter (position ≤ ·) ++ points.filter (· < position)

theorem clockwise_eq_rotate (hsorted : points.Pairwise (· ≤ ·)) (position : α) :
    clockwise points position = points.rotate (index points position) := by
  obtain ⟨hle, hbefore, hafter⟩ := search_reaches hsorted position
  set i := search points.length (reaches points position) with hi
  have hearly : ∀ point ∈ points.take i, point < position := by
    intro point hpoint
    obtain ⟨j, hj, rfl⟩ := List.mem_take_iff_getElem.mp hpoint
    have hnot := hbefore j (by omega)
    rw [← Bool.not_eq_true, reaches_iff (by omega), not_le] at hnot
    exact hnot
  have hlate : ∀ point ∈ points.drop i, position ≤ point := by
    intro point hpoint
    obtain ⟨j, hj, rfl⟩ := List.mem_drop_iff_getElem.mp hpoint
    rw [← reaches_iff]
    exact hafter _ (by omega) (by omega)
  have hsplit : clockwise points position = points.drop i ++ points.take i := by
    have hpoints : points = points.take i ++ points.drop i := (List.take_append_drop i points).symm
    have hlast : points.filter (position ≤ ·) = points.drop i := by
      conv_lhs => rw [hpoints]
      rw [List.filter_append, List.filter_eq_nil_iff.mpr, List.filter_eq_self.mpr,
        List.nil_append]
      · simpa using hlate
      · simpa using hearly
    have hfirst : points.filter (· < position) = points.take i := by
      conv_lhs => rw [hpoints]
      rw [List.filter_append, List.filter_eq_self.mpr, List.filter_eq_nil_iff.mpr,
        List.append_nil]
      · simpa using hlate
      · simpa using hearly
    rw [clockwise, hlast, hfirst]
  by_cases hend : i = points.length
  · have hindex : index points position = 0 := if_pos hend
    rw [hsplit, hindex, hend, List.drop_length, List.take_length, List.nil_append,
      List.rotate_zero]
  · have hindex : index points position = i := if_neg hend
    rw [hsplit, hindex, List.rotate_eq_drop_append_take hle]

end SortedList

end CircularSearch
end DistCache
