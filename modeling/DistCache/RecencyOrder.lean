import Mathlib.Data.List.Dedup
import Mathlib.Data.List.Nodup
import Mathlib.Tactic

/-!
# The order of the last use, and shortest prefixes

A list of uses orders what was used by its last use, oldest first: this is `List.dedup`.
`Stamped` says the same of an order by stamps.

`ShortestPrefix` says that as many elements were taken from an order, from the oldest
on, as are enough for something, or all of them where no number is enough.
-/

namespace DistCache
namespace Recency

variable {α : Type*}

/-! ## The order of the last use -/

section Order

variable {order uses : List α}

theorem eq_filter_of_sublist {P : α → Prop} [DecidablePred P] (hnodup : uses.Nodup)
    (horder : order.Sublist uses) (hmem : ∀ a, a ∈ order ↔ a ∈ uses ∧ P a) :
    order = uses.filter P := by
  have hpart : order.Sublist (uses.filter P) := by
    have hkept : order.filter P = order := by
      rw [List.filter_eq_self]
      intro a ha
      simpa using ((hmem a).mp ha).2
    have hfilter := horder.filter (fun a => decide (P a))
    rwa [hkept] at hfilter
  have hperm : order.Perm (uses.filter P) := by
    rw [List.perm_ext_iff_of_nodup (hnodup.sublist horder) (hnodup.filter _)]
    intro a
    simpa using hmem a
  exact hpart.eq_of_length hperm.length_eq

theorem reverse_erase_sublist [BEq α] (horder : order.reverse.Sublist uses) (a : α) :
    (order.erase a).reverse.Sublist uses :=
  List.erase_sublist.reverse.trans horder

theorem reverse_erase [BEq α] [LawfulBEq α] (hnodup : order.Nodup) (a : α) :
    (order.erase a).reverse = order.reverse.erase a := by
  rw [hnodup.erase_eq_filter, (List.nodup_reverse.mpr hnodup).erase_eq_filter,
    ← List.filter_reverse]

variable [DecidableEq α]

theorem dedup_snoc (uses : List α) (last : α) :
    (uses ++ [last]).dedup = uses.dedup.filter (· ≠ last) ++ [last] := by
  induction uses with
  | nil => rfl
  | cons first rest ih =>
      rw [List.cons_append]
      by_cases hlast : first = last
      · subst first
        rw [List.dedup_cons_of_mem (by simp), ih]
        by_cases hmem : last ∈ rest
        · rw [List.dedup_cons_of_mem hmem]
        · rw [List.dedup_cons_of_notMem hmem, List.filter_cons_of_neg (by simp)]
      · by_cases hmem : first ∈ rest
        · rw [List.dedup_cons_of_mem hmem, List.dedup_cons_of_mem (by simp [hmem]), ih]
        · have habsent : first ∉ rest ++ [last] := by simp [hmem, hlast]
          rw [List.dedup_cons_of_notMem hmem, List.dedup_cons_of_notMem habsent, ih,
            List.filter_cons_of_pos (by simpa using hlast), List.cons_append]

theorem sublist_dedup_toFront [BEq α] [LawfulBEq α] (hnodup : order.Nodup)
    (horder : order.reverse.Sublist uses.dedup) (last : α) :
    (last :: order.erase last).reverse.Sublist (uses ++ [last]).dedup := by
  have herase : (order.erase last).reverse = order.reverse.filter (· ≠ last) := by
    rw [reverse_erase hnodup, (List.nodup_reverse.mpr hnodup).erase_eq_filter]
    apply List.filter_congr
    intro a _
    by_cases ha : a = last
    · simp [ha]
    · simp [ha]
  rw [List.reverse_cons, dedup_snoc, herase]
  exact (horder.filter _).append_right [last]

end Order

/-! ## Stamps -/

/-- The order lists what has a stamp, the smallest stamp first. -/
structure Stamped (stamp : α → Option ℕ) (order : List α) : Prop where
  mem_iff : ∀ a, a ∈ order ↔ (stamp a).isSome
  sorted : order.Pairwise fun a b => ∀ m n, stamp a = some m → stamp b = some n → m < n

namespace Stamped

variable {stamp : α → Option ℕ} {order : List α}

theorem nil (hnone : ∀ a, stamp a = none) : Stamped stamp [] :=
  ⟨fun a => by simp [hnone a], List.Pairwise.nil⟩

theorem nodup (hstamped : Stamped stamp order) : order.Nodup := by
  apply hstamped.sorted.imp_of_mem
  intro a b ha _ hlt heq
  subst b
  obtain ⟨n, hn⟩ := Option.isSome_iff_exists.mp ((hstamped.mem_iff a).mp ha)
  exact lt_irrefl n (hlt n n hn hn)

theorem first {first : α} {rest : List α} (hstamped : Stamped stamp (first :: rest)) :
    ∃ m, stamp first = some m ∧ ∀ a n, stamp a = some n → a ≠ first → m < n := by
  have hsome := (hstamped.mem_iff first).mp List.mem_cons_self
  obtain ⟨m, hm⟩ := Option.isSome_iff_exists.mp hsome
  refine ⟨m, hm, ?_⟩
  intro a n hn hne
  have hmem : a ∈ first :: rest := (hstamped.mem_iff a).mpr (by rw [hn]; rfl)
  have hrest : a ∈ rest := (List.mem_cons.mp hmem).resolve_left hne
  exact (List.pairwise_cons.mp hstamped.sorted).1 a hrest m n hm hn

variable [DecidableEq α]

theorem erase [BEq α] [LawfulBEq α] (hstamped : Stamped stamp order) (a : α) :
    Stamped (Function.update stamp a none) (order.erase a) := by
  constructor
  · intro b
    rw [hstamped.nodup.mem_erase_iff, hstamped.mem_iff]
    by_cases hb : b = a
    · simp [hb]
    · simp [hb]
  · have hsorted := hstamped.sorted.sublist (List.erase_sublist (a := a))
    apply hsorted.imp
    intro b c hlt m n hm hn
    have hkept : ∀ d k, Function.update stamp a none d = some k → stamp d = some k := by
      intro d k hd
      by_cases hda : d = a
      · simp [hda] at hd
      · rwa [Function.update_of_ne hda] at hd
    exact hlt m n (hkept b m hm) (hkept c n hn)

theorem last [BEq α] [LawfulBEq α] (hstamped : Stamped stamp order) {now : ℕ}
    (hnow : ∀ a n, stamp a = some n → n < now) (a : α) :
    Stamped (Function.update stamp a (some now)) (order.erase a ++ [a]) := by
  have hothers := hstamped.erase a
  have hne : ∀ b ∈ order.erase a, b ≠ a := by
    rintro b hb rfl
    exact hstamped.nodup.not_mem_erase hb
  constructor
  · intro b
    rw [List.mem_append, List.mem_singleton, hothers.mem_iff]
    by_cases hb : b = a
    · simp [hb]
    · simp [hb]
  · rw [List.pairwise_append]
    refine ⟨?_, List.pairwise_singleton _ a, ?_⟩
    · apply hothers.sorted.imp_of_mem
      intro b c hb hc hlt m n hm hn
      rw [Function.update_of_ne (hne b hb)] at hm
      rw [Function.update_of_ne (hne c hc)] at hn
      apply hlt m n
      · rwa [Function.update_of_ne (hne b hb)]
      · rwa [Function.update_of_ne (hne c hc)]
    · intro b hb c hc m n hm hn
      rw [List.mem_singleton] at hc
      subst c
      rw [Function.update_self, Option.some.injEq] at hn
      rw [Function.update_of_ne (hne b hb)] at hm
      exact hn ▸ hnow b m hm

end Stamped

/-! ## Shortest prefixes -/

/-- `chosen` is the shortest prefix that is enough, or all of the order if none
is. -/
structure ShortestPrefix (Enough : List α → Prop) (order chosen : List α) : Prop where
  part : chosen <+: order
  enough : Enough chosen ∨ chosen = order
  least : ∀ fewer, fewer <+: chosen → Enough fewer → fewer = chosen

namespace ShortestPrefix

variable {Enough : List α → Prop} {order chosen : List α}

theorem of_enough (henough : Enough []) : ShortestPrefix Enough order [] :=
  ⟨List.nil_prefix, Or.inl henough, fun _ hfewer _ => List.prefix_nil.mp hfewer⟩

theorem of_nil : ShortestPrefix Enough [] [] :=
  ⟨List.nil_prefix, Or.inr rfl, fun _ hfewer _ => List.prefix_nil.mp hfewer⟩

theorem cons {first : α} (hnone : ¬ Enough [])
    (hrest : ShortestPrefix (fun more => Enough (first :: more)) order chosen) :
    ShortestPrefix Enough (first :: order) (first :: chosen) := by
  refine ⟨(List.prefix_cons_inj first).mpr hrest.part, ?_, ?_⟩
  · exact hrest.enough.imp_right (congrArg (first :: ·))
  · intro fewer hfewer henough
    cases fewer with
    | nil => exact absurd henough hnone
    | cons head more =>
        obtain ⟨rfl, hmore⟩ := List.cons_prefix_cons.mp hfewer
        rw [hrest.least more hmore henough]

theorem congr {Other : List α → Prop} (hiff : ∀ more, Enough more ↔ Other more)
    (hchosen : ShortestPrefix Enough order chosen) : ShortestPrefix Other order chosen := by
  have heq : Enough = Other := funext fun more => propext (hiff more)
  rwa [← heq]

end ShortestPrefix

end Recency
end DistCache
