import Mathlib.Tactic

/-!
# Independent components and serial orders

Every action works on one component of the state.  Two lists of actions that agree on
every component end in the same state, and what was observed in one of them is also
observed in the other.  Gathering the actions under their numbers, in the order of the
numbers, changes nothing on a component if the numbers do not decrease there.
-/

namespace DistCache
namespace Components

section Order

variable {β : Type*} (number : β → ℕ)

def gather (order : List ℕ) (actions : List β) : List β :=
  order.flatMap fun n => actions.filter fun a => number a = n

theorem filter_gather (p : β → Bool) (order : List ℕ) (actions : List β) :
    (gather number order actions).filter p = gather number order (actions.filter p) := by
  unfold gather
  rw [List.filter_flatMap]
  congr 1
  funext n
  rw [List.filter_filter, List.filter_filter]
  congr 1
  funext a
  exact Bool.and_comm _ _

variable {number}

theorem split_at_last {actions : List β} {last : ℕ}
    (hsorted : actions.Pairwise fun a b => number a ≤ number b)
    (hbound : ∀ a ∈ actions, number a < last + 1) :
    (actions.filter fun a => number a < last) ++ (actions.filter fun a => number a = last) =
      actions := by
  induction actions with
  | nil => rfl
  | cons a rest ih =>
      obtain ⟨hfirst, hrest⟩ := List.pairwise_cons.mp hsorted
      have hle : number a < last + 1 := hbound a List.mem_cons_self
      have hbound' : ∀ b ∈ rest, number b < last + 1 :=
        fun b hmem => hbound b (List.mem_cons_of_mem a hmem)
      by_cases hlt : number a < last
      · have hne : number a ≠ last := by omega
        simp only [List.filter_cons, hlt, hne, decide_true, decide_false, if_true,
          Bool.false_eq_true, if_false, List.cons_append, ih hrest hbound']
      · have heq : number a = last := by omega
        have hlate : (rest.filter fun b => number b < last) = [] := by
          apply List.filter_eq_nil_iff.mpr
          intro b hmem
          have hab := hfirst b hmem
          rw [decide_eq_true_eq]
          omega
        have hall := ih hrest hbound'
        rw [hlate, List.nil_append] at hall
        simp only [List.filter_cons, heq, lt_irrefl, decide_true, decide_false, if_true,
          Bool.false_eq_true, if_false, hlate, List.nil_append, hall]

theorem gather_range_of_sorted {actions : List β} {count : ℕ}
    (hsorted : actions.Pairwise fun a b => number a ≤ number b)
    (hbound : ∀ a ∈ actions, number a < count) :
    gather number (List.range count) actions = actions := by
  induction count generalizing actions with
  | zero =>
      cases actions with
      | nil => rfl
      | cons a rest => exact absurd (hbound a List.mem_cons_self) (Nat.not_lt_zero _)
  | succ last ih =>
      have hearlier : gather number (List.range last) actions =
          gather number (List.range last) (actions.filter fun a => number a < last) := by
        unfold gather
        apply List.flatMap_congr
        intro n hn
        rw [List.filter_filter]
        apply List.filter_congr
        intro a _
        have hlt := List.mem_range.mp hn
        rw [Bool.eq_iff_iff, Bool.and_eq_true, decide_eq_true_eq, decide_eq_true_eq]
        omega
      have hpart : gather number (List.range last) (actions.filter fun a => number a < last) =
          actions.filter fun a => number a < last := by
        apply ih (hsorted.filter _)
        intro a hmem
        have hlt := List.of_mem_filter hmem
        rwa [decide_eq_true_eq] at hlt
      have hsnoc : gather number (List.range (last + 1)) actions =
          gather number (List.range last) actions ++
            actions.filter fun a => number a = last := by
        simp [gather, List.range_succ]
      rw [hsnoc, hearlier, hpart, split_at_last hsorted hbound]

end Order

section State

variable {ι σ β : Type*} [DecidableEq ι] (loc : β → ι) (act : β → σ → σ)
  (Observed : β → σ → Prop)

def on (i : ι) (actions : List β) : List β := actions.filter fun a => loc a = i

def exec (s : ι → σ) (a : β) : ι → σ := Function.update s (loc a) (act a (s (loc a)))

def execAll (s : ι → σ) (actions : List β) : ι → σ := actions.foldl (exec loc act) s

def Faithful : (ι → σ) → List β → Prop
  | _, [] => True
  | s, a :: rest => Observed a (s (loc a)) ∧ Faithful (exec loc act s a) rest

def FaithfulAt : σ → List β → Prop
  | _, [] => True
  | x, a :: rest => Observed a x ∧ FaithfulAt (act a x) rest

theorem on_cons_of_eq {i : ι} {a : β} (hloc : loc a = i) (rest : List β) :
    on loc i (a :: rest) = a :: on loc i rest := by
  simp [on, hloc]

theorem on_cons_of_ne {i : ι} {a : β} (hloc : loc a ≠ i) (rest : List β) :
    on loc i (a :: rest) = on loc i rest := by
  simp [on, hloc]

theorem execAll_apply (s : ι → σ) (actions : List β) (i : ι) :
    execAll loc act s actions i = (on loc i actions).foldl (fun x a => act a x) (s i) := by
  induction actions generalizing s with
  | nil => rfl
  | cons a rest ih =>
      have hcons : execAll loc act s (a :: rest) =
          execAll loc act (exec loc act s a) rest := rfl
      rw [hcons, ih]
      by_cases hloc : loc a = i
      · rw [on_cons_of_eq loc hloc, List.foldl_cons]
        subst i
        rw [exec, Function.update_self]
      · rw [on_cons_of_ne loc hloc, exec, Function.update_of_ne (Ne.symm hloc)]

theorem faithful_iff (s : ι → σ) (actions : List β) :
    Faithful loc act Observed s actions ↔
      ∀ i, FaithfulAt act Observed (s i) (on loc i actions) := by
  induction actions generalizing s with
  | nil => exact ⟨fun _ _ => trivial, fun _ => trivial⟩
  | cons a rest ih =>
      have hat : ∀ i, FaithfulAt act Observed (s i) (on loc i (a :: rest)) ↔
          (loc a = i → Observed a (s (loc a))) ∧
            FaithfulAt act Observed (exec loc act s a i) (on loc i rest) := by
        intro i
        by_cases hloc : loc a = i
        · rw [on_cons_of_eq loc hloc]
          subst i
          rw [exec, Function.update_self]
          exact ⟨fun h => ⟨fun _ => h.1, h.2⟩, fun h => ⟨h.1 rfl, h.2⟩⟩
        · rw [on_cons_of_ne loc hloc, exec, Function.update_of_ne (Ne.symm hloc)]
          exact ⟨fun h => ⟨fun heq => absurd heq hloc, h⟩, fun h => h.2⟩
      constructor
      · rintro ⟨hfirst, hrest⟩ i
        exact (hat i).mpr ⟨fun _ => hfirst, (ih _).mp hrest i⟩
      · intro hall
        exact ⟨((hat (loc a)).mp (hall (loc a))).1 rfl,
          (ih _).mpr fun i => ((hat i).mp (hall i)).2⟩

theorem execAll_snoc (s : ι → σ) (actions : List β) (a : β) :
    execAll loc act s (actions ++ [a]) = exec loc act (execAll loc act s actions) a := by
  rw [execAll, List.foldl_append]
  rfl

theorem faithful_snoc (s : ι → σ) (actions : List β) (a : β) :
    Faithful loc act Observed s (actions ++ [a]) ↔
      Faithful loc act Observed s actions ∧
        Observed a (execAll loc act s actions (loc a)) := by
  induction actions generalizing s with
  | nil => exact ⟨fun h => ⟨trivial, h.1⟩, fun h => ⟨h.2, trivial⟩⟩
  | cons first rest ih =>
      have hrest := ih (exec loc act s first)
      exact ⟨fun h => ⟨⟨h.1, (hrest.mp h.2).1⟩, (hrest.mp h.2).2⟩,
        fun h => ⟨h.1.1, hrest.mpr ⟨h.1.2, h.2⟩⟩⟩

variable {loc act Observed}

theorem execAll_of_on_eq {s : ι → σ} {actions other : List β}
    (hsame : ∀ i, on loc i other = on loc i actions) :
    execAll loc act s other = execAll loc act s actions := by
  funext i
  rw [execAll_apply, execAll_apply, hsame]

theorem Faithful.of_on_eq {s : ι → σ} {actions other : List β}
    (hfaithful : Faithful loc act Observed s actions)
    (hsame : ∀ i, on loc i other = on loc i actions) :
    Faithful loc act Observed s other := by
  rw [faithful_iff] at hfaithful ⊢
  intro i
  rw [hsame]
  exact hfaithful i

theorem pairwise_on_snoc {R : β → β → Prop} {actions : List β} {a : β} {i : ι}
    (hpairwise : (on loc i actions).Pairwise R)
    (hlast : ∀ b ∈ actions, loc b = loc a → R b a) :
    (on loc i (actions ++ [a])).Pairwise R := by
  unfold on at hpairwise ⊢
  rw [List.filter_append]
  refine List.pairwise_append.mpr ⟨hpairwise, ?_, ?_⟩
  · exact (List.pairwise_singleton R a).filter _
  · intro b hb a' ha'
    obtain ⟨hmem, hloc⟩ := List.mem_filter.mp hb
    obtain ⟨hmem', hloc'⟩ := List.mem_filter.mp ha'
    rw [List.mem_singleton] at hmem'
    subst a'
    rw [decide_eq_true_eq] at hloc hloc'
    exact hlast b hmem (hloc.trans hloc'.symm)

theorem on_gather_range {number : β → ℕ} {actions : List β} {count : ℕ}
    (hsorted : ∀ i, (on loc i actions).Pairwise fun a b => number a ≤ number b)
    (hbound : ∀ a ∈ actions, number a < count) (i : ι) :
    on loc i (gather number (List.range count) actions) = on loc i actions := by
  unfold on
  rw [filter_gather]
  exact gather_range_of_sorted (hsorted i)
    fun a hmem => hbound a (List.mem_of_mem_filter hmem)

end State

end Components
end DistCache
