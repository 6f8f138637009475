import Mathlib.Tactic

/-!
# A binary heap in a slice

The heap of the standard library's `container/heap`, on a list that stands for the
slice.  `up` and `down` are the two loops of that package; their first argument bounds
the iterations, and the length of the slice is always enough.  `push` and `pop` keep the
elements and the order of the heap, and what is popped has the least rank.
-/

namespace DistCache
namespace SliceHeap

variable {α : Type*} (less : α → α → Bool)

def swap (heap : List α) (i j : ℕ) : List α :=
  match heap[i]?, heap[j]? with
  | some x, some y => (heap.set i y).set j x
  | _, _ => heap

def lessAt (heap : List α) (i j : ℕ) : Bool :=
  match heap[i]?, heap[j]? with
  | some x, some y => less x y
  | _, _ => false

def up : ℕ → List α → ℕ → List α
  | 0, heap, _ => heap
  | fuel + 1, heap, j =>
      let i := (j - 1) / 2
      if i = j ∨ lessAt less heap j i = false then heap
      else up fuel (swap heap i j) i

def child (heap : List α) (i n : ℕ) : ℕ :=
  if 2 * i + 2 < n ∧ lessAt less heap (2 * i + 2) (2 * i + 1) = true
    then 2 * i + 2 else 2 * i + 1

def down : ℕ → List α → ℕ → ℕ → List α
  | 0, heap, _, _ => heap
  | fuel + 1, heap, i, n =>
      if n ≤ 2 * i + 1 then heap
      else
        let j := child less heap i n
        if lessAt less heap j i = false then heap
        else down fuel (swap heap i j) j n

def push (heap : List α) (x : α) : List α :=
  up less (heap.length + 1) (heap ++ [x]) heap.length

def pop (heap : List α) : Option (α × List α) :=
  let n := heap.length - 1
  let sifted := down less heap.length (swap heap 0 n) 0 n
  match sifted[n]? with
  | none => none
  | some x => some (x, sifted.take n)

/-! ## No element is lost or made up -/

theorem perm_swap (heap : List α) (i j : ℕ) : (swap heap i j).Perm heap := by
  unfold swap
  split
  · rename_i x y hx hy
    obtain ⟨hi, rfl⟩ := List.getElem?_eq_some_iff.mp hx
    obtain ⟨hj, rfl⟩ := List.getElem?_eq_some_iff.mp hy
    exact List.set_set_perm hi hj
  · exact .refl heap

theorem perm_up (fuel : ℕ) (heap : List α) (j : ℕ) :
    (up less fuel heap j).Perm heap := by
  induction fuel generalizing heap j with
  | zero => exact .refl heap
  | succ fuel ih =>
      simp only [up]
      split
      · exact .refl heap
      · exact (ih _ _).trans (perm_swap heap _ j)

theorem perm_down (fuel : ℕ) (heap : List α) (i n : ℕ) :
    (down less fuel heap i n).Perm heap := by
  induction fuel generalizing heap i with
  | zero => exact .refl heap
  | succ fuel ih =>
      simp only [down]
      split
      · exact .refl heap
      · split
        · exact .refl heap
        · exact (ih _ _).trans (perm_swap heap i _)

theorem perm_push (heap : List α) (x : α) : (push less heap x).Perm (x :: heap) :=
  (perm_up less _ _ _).trans (List.perm_append_singleton x heap)

theorem perm_pop {heap rest : List α} {x : α}
    (hpop : pop less heap = some (x, rest)) : heap.Perm (x :: rest) := by
  let n := heap.length - 1
  let sifted := down less heap.length (swap heap 0 n) 0 n
  have hsifted : sifted.Perm heap := (perm_down less _ _ _ _).trans (perm_swap heap 0 n)
  have hlength : sifted.length = heap.length := hsifted.length_eq
  unfold pop at hpop
  simp only at hpop
  split at hpop
  · contradiction
  · rename_i found hfound
    obtain ⟨hn, hget⟩ := List.getElem?_eq_some_iff.mp hfound
    simp only [Option.some.injEq, Prod.mk.injEq] at hpop
    obtain ⟨rfl, rfl⟩ := hpop
    have hlast : sifted = sifted.take n ++ [found] := by
      rw [← hget, List.take_append_getElem]
      rw [List.take_of_length_le]
      show sifted.length ≤ heap.length - 1 + 1
      omega
    have hperm : sifted.Perm (found :: sifted.take n) := by
      nth_rewrite 1 [hlast]
      exact List.perm_append_singleton found _
    exact hsifted.symm.trans hperm

theorem length_pop {heap rest : List α} {x : α}
    (hpop : pop less heap = some (x, rest)) : rest.length < heap.length := by
  have hlength := (perm_pop less hpop).length_eq
  rw [List.length_cons] at hlength
  omega

theorem eq_nil_of_pop_eq_none {heap : List α} (hpop : pop less heap = none) :
    heap = [] := by
  unfold pop at hpop
  simp only at hpop
  split at hpop
  · rename_i hnone
    have hlength : heap.length ≤ heap.length - 1 := by
      have hout := List.getElem?_eq_none_iff.mp hnone
      have hsame : (down less heap.length (swap heap 0 (heap.length - 1)) 0
          (heap.length - 1)).length = heap.length :=
        ((perm_down less _ _ _ _).trans (perm_swap heap 0 _)).length_eq
      omega
    exact List.eq_nil_of_length_eq_zero (by omega)
  · contradiction

/-! ## The order of the heap -/

theorem getElem?_swap {heap : List α} {i j : ℕ} (hi : i < heap.length) (hj : j < heap.length)
    (k : ℕ) :
    (swap heap i j)[k]? =
      if k = j then heap[i]? else if k = i then heap[j]? else heap[k]? := by
  have hx : heap[i]? = some heap[i] := List.getElem?_eq_getElem hi
  have hy : heap[j]? = some heap[j] := List.getElem?_eq_getElem hj
  simp only [swap, hx, hy]
  by_cases hkj : k = j
  · subst k
    rw [if_pos rfl, List.getElem?_set_self (by rwa [List.length_set])]
  · rw [if_neg hkj, List.getElem?_set_ne (Ne.symm hkj)]
    by_cases hki : k = i
    · subst k
      rw [if_pos rfl, List.getElem?_set_self hi]
    · rw [if_neg hki, List.getElem?_set_ne (Ne.symm hki)]

theorem length_swap (heap : List α) (i j : ℕ) : (swap heap i j).length = heap.length :=
  (perm_swap heap i j).length_eq

theorem child_bounds (heap : List α) {i n : ℕ} (hn : 2 * i + 1 < n) :
    child less heap i n < n ∧ (child less heap i n - 1) / 2 = i ∧ i < child less heap i n := by
  unfold child
  split_ifs with h
  · omega
  · omega

theorem getElem?_down {heap : List α} {fuel i k n : ℕ} (hn : n ≤ heap.length) (hk : n ≤ k) :
    (down less fuel heap i n)[k]? = heap[k]? := by
  induction fuel generalizing heap i with
  | zero => rfl
  | succ fuel ih =>
      simp only [down]
      split_ifs with hend hstop
      · rfl
      · rfl
      · obtain ⟨hj, -, hij⟩ := child_bounds less heap (not_le.mp hend)
        rw [ih (by rw [length_swap]; exact hn), getElem?_swap (by omega) (by omega),
          if_neg (by omega), if_neg (by omega)]

section Order

variable {β : Type*} [LinearOrder β] (rank : α → β)

def NotAbove (heap : List α) (i j : ℕ) : Prop :=
  ∀ x y, heap[i]? = some x → heap[j]? = some y → rank x ≤ rank y

/-- No element among the first `n` is below its parent. -/
def Ordered (heap : List α) (n : ℕ) : Prop :=
  ∀ k, 0 < k → k < n → NotAbove rank heap ((k - 1) / 2) k

variable {rank} {heap : List α} {n : ℕ}

theorem NotAbove.refl (i : ℕ) : NotAbove rank heap i i := by
  intro x y hx hy
  exact (congrArg rank (Option.some.inj (hx.symm.trans hy))).le

theorem NotAbove.trans {i j k : ℕ} (hj : j < heap.length) (hij : NotAbove rank heap i j)
    (hjk : NotAbove rank heap j k) : NotAbove rank heap i k := by
  intro x z hx hz
  have hy : heap[j]? = some heap[j] := List.getElem?_eq_getElem hj
  exact (hij x _ hx hy).trans (hjk _ z hy hz)

theorem NotAbove.congr {other : List α} {i j i' j' : ℕ} (h : NotAbove rank heap i j)
    (hi : other[i']? = heap[i]?) (hj : other[j']? = heap[j]?) :
    NotAbove rank other i' j' := by
  intro x y hx hy
  exact h x y (hi ▸ hx) (hj ▸ hy)

theorem notAbove_root (hordered : Ordered rank heap heap.length) (k : ℕ)
    (hk : k < heap.length) : NotAbove rank heap 0 k := by
  induction k using Nat.strong_induction_on with
  | _ k ih =>
      rcases Nat.eq_zero_or_pos k with rfl | hpos
      · exact .refl 0
      · have hparent : (k - 1) / 2 < k := by omega
        have habove := ih ((k - 1) / 2) hparent (by omega)
        exact habove.trans (by omega) (hordered k hpos hk)

theorem Ordered.of_take {n : ℕ} (hordered : Ordered rank heap n) :
    Ordered rank (heap.take n) (heap.take n).length := by
  intro k hpos hk
  have hlt : k < n := lt_of_lt_of_le hk (by simp)
  exact (hordered k hpos hlt).congr
    (List.getElem?_take_of_lt (by omega)) (List.getElem?_take_of_lt hlt)

variable {less} (hless : ∀ x y, less x y = true ↔ rank x < rank y)

include hless

theorem notAbove_of_lessAt {i j : ℕ} (h : lessAt less heap i j = true) :
    NotAbove rank heap i j := by
  intro x y hx hy
  simp only [lessAt, hx, hy] at h
  exact ((hless x y).mp h).le

theorem notAbove_of_not_lessAt {i j : ℕ} (h : lessAt less heap j i = false) :
    NotAbove rank heap i j := by
  intro x y hx hy
  simp only [lessAt, hx, hy] at h
  have hnot : ¬ rank y < rank x := by
    rw [← hless, h]
    exact Bool.false_ne_true
  exact not_lt.mp hnot

/-! ## Sifting up -/

/-- Only the element at `j` may be below its parent, and its children are not
below that parent either. -/
structure UpOrder (rank : α → β) (heap : List α) (j : ℕ) : Prop where
  others : ∀ k, 0 < k → k < heap.length → k ≠ j → NotAbove rank heap ((k - 1) / 2) k
  grand : ∀ k, 0 < k → k < heap.length → 0 < j → (k - 1) / 2 = j →
    NotAbove rank heap ((j - 1) / 2) k

theorem UpOrder.move {j : ℕ} (horder : UpOrder rank heap j) (hpos : 0 < j)
    (hj : j < heap.length) (hbelow : lessAt less heap j ((j - 1) / 2) = true) :
    UpOrder rank (swap heap ((j - 1) / 2) j) ((j - 1) / 2) := by
  have hi : (j - 1) / 2 < heap.length := by omega
  have hswapped := notAbove_of_lessAt hless hbelow
  have hget := getElem?_swap hi hj
  -- A sibling of `j` was not below the parent, which `j` has gone past.
  have hsibling : ∀ k, 0 < k → k < heap.length → k ≠ j → (k - 1) / 2 = (j - 1) / 2 →
      NotAbove rank heap ((j - 1) / 2) k := by
    intro k hk hlt hne hparent
    have hk := horder.others k hk hlt hne
    rwa [hparent] at hk
  constructor
  · intro k hk hlt hne
    rw [length_swap] at hlt
    by_cases hkj : k = j
    · subst k
      refine hswapped.congr ?_ ?_
      · rw [hget, if_neg (by omega), if_pos rfl]
      · rw [hget, if_pos rfl]
    have hkeep : (swap heap ((j - 1) / 2) j)[k]? = heap[k]? := by
      rw [hget, if_neg hkj, if_neg hne]
    by_cases hchild : (k - 1) / 2 = j
    · refine (horder.grand k hk hlt hpos hchild).congr ?_ hkeep
      rw [hchild, hget, if_pos rfl]
    by_cases hparent : (k - 1) / 2 = (j - 1) / 2
    · refine (hswapped.trans hi (hsibling k hk hlt hkj hparent)).congr ?_ hkeep
      rw [hparent, hget, if_neg (by omega), if_pos rfl]
    · refine (horder.others k hk hlt hkj).congr ?_ hkeep
      rw [hget, if_neg hchild, if_neg hparent]
  · intro k hk hlt hi0 hparent
    rw [length_swap] at hlt
    have hup := horder.others ((j - 1) / 2) hi0 hi (by omega)
    have htop : (swap heap ((j - 1) / 2) j)[((j - 1) / 2 - 1) / 2]? =
        heap[((j - 1) / 2 - 1) / 2]? := by
      rw [hget, if_neg (by omega), if_neg (by omega)]
    by_cases hkj : k = j
    · subst k
      refine hup.congr htop ?_
      rw [hget, if_pos rfl]
    · refine (hup.trans hi (hsibling k hk hlt hkj hparent)).congr htop ?_
      rw [hget, if_neg hkj, if_neg (by omega)]

theorem ordered_up {fuel j : ℕ} (hj : j < heap.length) (hfuel : j < fuel)
    (horder : UpOrder rank heap j) :
    Ordered rank (up less fuel heap j) heap.length := by
  induction fuel generalizing heap j with
  | zero => omega
  | succ fuel ih =>
      simp only [up]
      split_ifs with hstop
      · intro k hk hlt
        by_cases hkj : k = j
        · subst k
          have hdone := hstop.resolve_left (by omega)
          exact notAbove_of_not_lessAt hless hdone
        · exact horder.others k hk hlt hkj
      · rw [not_or, Bool.not_eq_false] at hstop
        have hpos : 0 < j := by
          by_contra hzero
          exact hstop.1 (by omega)
        have hmoved := ih (by rw [length_swap]; omega) (by omega)
          (horder.move hless hpos hj hstop.2)
        rwa [length_swap] at hmoved

theorem ordered_push (hordered : Ordered rank heap heap.length) (x : α) :
    Ordered rank (push less heap x) (push less heap x).length := by
  have hlength : (heap ++ [x]).length = heap.length + 1 := by simp
  have horder : UpOrder rank (heap ++ [x]) heap.length := by
    constructor
    · intro k hk hlt hne
      have hkeep : ∀ i, i < heap.length → (heap ++ [x])[i]? = heap[i]? := fun i hi =>
        List.getElem?_append_left hi
      exact (hordered k hk (by omega)).congr (hkeep _ (by omega)) (hkeep k (by omega))
    · intro k hk hlt _ hparent
      omega
  have hpushed : (push less heap x).length = (heap ++ [x]).length :=
    (perm_up less _ _ _).length_eq
  rw [hpushed]
  exact ordered_up hless (by omega) (Nat.lt_succ_self heap.length) horder

/-! ## Sifting down -/

/-- Among the first `n` elements only the children of `i` may be below their
parent, and they are not below the parent of `i`. -/
structure DownOrder (rank : α → β) (heap : List α) (i n : ℕ) : Prop where
  others : ∀ k, 0 < k → k < n → (k - 1) / 2 ≠ i → NotAbove rank heap ((k - 1) / 2) k
  grand : ∀ k, 0 < k → k < n → 0 < i → (k - 1) / 2 = i → NotAbove rank heap ((i - 1) / 2) k

theorem notAbove_child {i k : ℕ} (hk : 0 < k) (hlt : k < n) (hparent : (k - 1) / 2 = i) :
    NotAbove rank heap (child less heap i n) k := by
  have hcases : k = 2 * i + 1 ∨ k = 2 * i + 2 := by omega
  unfold child
  split_ifs with h
  · rcases hcases with rfl | rfl
    · exact notAbove_of_lessAt hless h.2
    · exact .refl _
  · rcases hcases with rfl | rfl
    · exact .refl _
    · rw [not_and, Bool.not_eq_true] at h
      exact notAbove_of_not_lessAt hless (h hlt)

theorem DownOrder.move {i : ℕ} (horder : DownOrder rank heap i n) (hn : n ≤ heap.length)
    (hroom : 2 * i + 1 < n) (hbelow : lessAt less heap (child less heap i n) i = true) :
    DownOrder rank (swap heap i (child less heap i n)) (child less heap i n) n := by
  obtain ⟨hj, hjparent, hij⟩ := child_bounds less heap hroom
  have hleast : ∀ k, 0 < k → k < n → (k - 1) / 2 = i →
      NotAbove rank heap (child less heap i n) k := fun k hk hlt hparent =>
    notAbove_child hless hk hlt hparent
  have hswapped := notAbove_of_lessAt hless hbelow
  generalize child less heap i n = j at hj hjparent hij hleast hswapped ⊢
  have hi : i < heap.length := by omega
  have hget := getElem?_swap hi (hj.trans_le hn)
  have htop : (swap heap i j)[i]? = heap[j]? := by
    rw [hget, if_neg (by omega), if_pos rfl]
  constructor
  · intro k hk hlt hne
    by_cases hki : k = i
    · subst k
      refine (horder.grand j (by omega) hj hk hjparent).congr ?_ htop
      rw [hget, if_neg (by omega), if_neg (by omega)]
    by_cases hparent : (k - 1) / 2 = i
    · rw [hparent]
      by_cases hkj : k = j
      · subst k
        refine hswapped.congr htop ?_
        rw [hget, if_pos rfl]
      · refine (hleast k hk hlt hparent).congr htop ?_
        rw [hget, if_neg hkj, if_neg hki]
    · have hkj : k ≠ j := by
        rintro rfl
        exact hparent hjparent
      refine (horder.others k hk hlt hparent).congr ?_ ?_
      · rw [hget, if_neg hne, if_neg hparent]
      · rw [hget, if_neg hkj, if_neg hki]
  · intro k hk hlt _ hparent
    rw [hjparent]
    have hbelow := horder.others k hk hlt (by omega)
    rw [hparent] at hbelow
    refine hbelow.congr htop ?_
    rw [hget, if_neg (by omega), if_neg (by omega)]

theorem ordered_down {fuel i : ℕ} (hn : n ≤ heap.length) (hfuel : n ≤ i + fuel)
    (horder : DownOrder rank heap i n) : Ordered rank (down less fuel heap i n) n := by
  induction fuel generalizing heap i with
  | zero =>
      intro k hk hlt
      exact horder.others k hk hlt (by omega)
  | succ fuel ih =>
      simp only [down]
      split_ifs with hend hstop
      · intro k hk hlt
        exact horder.others k hk hlt (by omega)
      · intro k hk hlt
        by_cases hparent : (k - 1) / 2 = i
        · rw [hparent]
          obtain ⟨hj, -, -⟩ := child_bounds less heap (not_le.mp hend)
          exact (notAbove_of_not_lessAt hless hstop).trans (by omega)
            (notAbove_child hless hk hlt hparent)
        · exact horder.others k hk hlt hparent
      · rw [Bool.not_eq_false] at hstop
        have hroom := not_le.mp hend
        obtain ⟨-, -, hij⟩ := child_bounds less heap hroom
        exact ih (by rw [length_swap]; exact hn) (by omega)
          (horder.move hless hn hroom hstop)

theorem ordered_pop {rest : List α} {x : α} (hordered : Ordered rank heap heap.length)
    (hpop : pop less heap = some (x, rest)) :
    Ordered rank rest rest.length ∧ ∀ y ∈ heap, rank x ≤ rank y := by
  have hlength := (perm_pop less hpop).length_eq
  rw [List.length_cons] at hlength
  have hlast : heap.length - 1 < heap.length := by omega
  have hswap := length_swap heap 0 (heap.length - 1)
  have hdown : DownOrder rank (swap heap 0 (heap.length - 1)) 0 (heap.length - 1) := by
    constructor
    · intro k hk hlt hparent
      have hkeep : ∀ i, 0 < i → i < heap.length - 1 →
          (swap heap 0 (heap.length - 1))[i]? = heap[i]? := by
        intro i hi hlt
        rw [getElem?_swap (by omega) hlast, if_neg (by omega), if_neg (by omega)]
      exact (hordered k hk (by omega)).congr (hkeep _ (by omega) (by omega)) (hkeep k hk hlt)
    · intro k _ _ hzero
      omega
  have hwithin : heap.length - 1 ≤ (swap heap 0 (heap.length - 1)).length := by omega
  have hfound : (down less heap.length (swap heap 0 (heap.length - 1)) 0
      (heap.length - 1))[heap.length - 1]? = heap[0]? := by
    rw [getElem?_down less hwithin le_rfl, getElem?_swap (by omega) hlast, if_pos rfl]
  unfold pop at hpop
  cases hroot : heap[0]? with
  | none => simp [hfound, hroot] at hpop
  | some root =>
      simp only [hfound, hroot, Option.some.injEq, Prod.mk.injEq] at hpop
      obtain ⟨rfl, rfl⟩ := hpop
      constructor
      · exact (ordered_down hless hwithin (by omega) hdown).of_take
      · intro y hy
        obtain ⟨k, hk, rfl⟩ := List.mem_iff_getElem.mp hy
        exact notAbove_root hordered k hk root _ hroot (List.getElem?_eq_getElem hk)

end Order

end SliceHeap
end DistCache
