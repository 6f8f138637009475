import Mathlib.Tactic

/-!
# Runs of a partial transition function

A component is given by a partial step function: `step s a` is the state after
the action `a`, or `none` when `a` is not enabled in `s`.  An interleaving of
several parties is a list of actions, and a run executes the list.  The rules
below are the only inductions over runs in the development: an invariant needs
one step lemma, and a condition on the steps of a run is carried by `Along`.
-/

namespace DistCache
namespace Transition

variable {σ α : Type*} (step : σ → α → Option σ)

def run : σ → List α → Option σ
  | s, [] => some s
  | s, a :: rest => (step s a).bind fun next => run next rest

/-- Every step taken by the run satisfies `P` in the state before it. -/
def Along (P : σ → α → Prop) : σ → List α → Prop
  | _, [] => True
  | s, a :: rest => P s a ∧ ∀ next, step s a = some next → Along P next rest

instance decidableAlong {P : σ → α → Prop} [∀ s a, Decidable (P s a)] :
    (s : σ) → (actions : List α) → Decidable (Along step P s actions)
  | _, [] => isTrue trivial
  | s, a :: rest =>
      match hstep : step s a with
      | none =>
          decidable_of_iff (P s a)
            ⟨fun hp => ⟨hp, fun next hnext => by simp [hstep] at hnext⟩, And.left⟩
      | some next =>
          have : Decidable (Along step P next rest) := decidableAlong next rest
          decidable_of_iff (P s a ∧ Along step P next rest)
            ⟨fun hp => ⟨hp.1, fun other hother => by
                rw [hstep] at hother
                rw [← Option.some.inj hother]
                exact hp.2⟩,
              fun hp => ⟨hp.1, hp.2 next hstep⟩⟩

@[simp] theorem run_nil (s : σ) : run step s [] = some s := rfl

theorem run_cons (s : σ) (a : α) (rest : List α) :
    run step s (a :: rest) = (step s a).bind fun next => run step next rest := rfl

theorem run_cons_eq_some {s final : σ} {a : α} {rest : List α} :
    run step s (a :: rest) = some final ↔
      ∃ next, step s a = some next ∧ run step next rest = some final := by
  rw [run_cons]
  exact Option.bind_eq_some_iff

theorem run_append (s : σ) (before after : List α) :
    run step s (before ++ after) =
      (run step s before).bind fun middle => run step middle after := by
  induction before generalizing s with
  | nil => rfl
  | cons a rest ih =>
      rw [List.cons_append, run_cons, run_cons]
      cases hstep : step s a with
      | none => rfl
      | some next => exact ih next

theorem run_append_eq_some {s final : σ} {before after : List α} :
    run step s (before ++ after) = some final ↔
      ∃ middle, run step s before = some middle ∧
        run step middle after = some final := by
  rw [run_append]
  exact Option.bind_eq_some_iff

@[simp] theorem along_nil (P : σ → α → Prop) (s : σ) :
    Along step P s [] := trivial

theorem along_cons {P : σ → α → Prop} {s : σ} {a : α} {rest : List α} :
    Along step P s (a :: rest) ↔
      P s a ∧ ∀ next, step s a = some next → Along step P next rest := Iff.rfl

theorem along_cons_of_step {P : σ → α → Prop} {s next : σ} {a : α}
    (hnext : step s a = some next) (rest : List α) :
    Along step P s (a :: rest) ↔ P s a ∧ Along step P next rest := by
  rw [along_cons, hnext]
  simp

theorem along_append {P : σ → α → Prop} {s : σ} {before after : List α} :
    Along step P s (before ++ after) ↔
      Along step P s before ∧
        ∀ middle, run step s before = some middle →
          Along step P middle after := by
  induction before generalizing s with
  | nil => simp
  | cons a rest ih =>
      rw [List.cons_append, along_cons, along_cons]
      constructor
      · rintro ⟨hhead, htail⟩
        refine ⟨⟨hhead, fun next hstep => (ih.mp (htail next hstep)).1⟩, ?_⟩
        intro middle hrun
        obtain ⟨next, hstep, hrest⟩ := (run_cons_eq_some step).mp hrun
        exact (ih.mp (htail next hstep)).2 middle hrest
      · rintro ⟨⟨hhead, hbefore⟩, hafter⟩
        refine ⟨hhead, fun next hstep => ih.mpr ⟨hbefore next hstep, ?_⟩⟩
        intro middle hrest
        exact hafter middle ((run_cons_eq_some step).mpr ⟨next, hstep, hrest⟩)

theorem along_iff_forall_split {P : σ → α → Prop} {s : σ} {actions : List α} :
    Along step P s actions ↔
      ∀ before a after, actions = before ++ a :: after →
        ∀ middle, run step s before = some middle → P middle a := by
  constructor
  · intro halong before a after hsplit middle hrun
    subst actions
    exact (((along_append step).mp halong).2 middle hrun).1
  · intro hsplit
    induction actions generalizing s with
    | nil => trivial
    | cons a rest ih =>
        refine ⟨hsplit [] a rest rfl s rfl, fun next hstep => ih ?_⟩
        intro before b after heq middle hrun
        apply hsplit (a :: before) b after (by rw [heq]; rfl) middle
        exact (run_cons_eq_some step).mpr ⟨next, hstep, hrun⟩

theorem Along.and {P Q : σ → α → Prop} {s : σ} {actions : List α}
    (hleft : Along step P s actions) (hright : Along step Q s actions) :
    Along step (fun s a => P s a ∧ Q s a) s actions := by
  induction actions generalizing s with
  | nil => trivial
  | cons a rest ih =>
      exact ⟨⟨hleft.1, hright.1⟩,
        fun next hnext => ih (hleft.2 next hnext) (hright.2 next hnext)⟩

theorem Along.of_invariant {P Q : σ → α → Prop} {I : σ → Prop}
    (hstep : ∀ s a next, I s → P s a → step s a = some next → I next)
    (hgood : ∀ s a, I s → P s a → Q s a) {s : σ} {actions : List α} (hinit : I s)
    (halong : Along step P s actions) : Along step Q s actions := by
  induction actions generalizing s with
  | nil => trivial
  | cons a rest ih =>
      refine ⟨hgood s a hinit halong.1, ?_⟩
      intro next hnext
      exact ih (hstep s a next hinit halong.1 hnext) (halong.2 next hnext)

theorem along_of_forall_mem {P : α → Prop} {actions : List α} (hall : ∀ a ∈ actions, P a)
    (s : σ) : Along step (fun _ a => P a) s actions := by
  induction actions generalizing s with
  | nil => trivial
  | cons a rest ih =>
      refine ⟨hall a List.mem_cons_self, ?_⟩
      intro next _
      exact ih (fun b hmem => hall b (List.mem_cons_of_mem a hmem)) next

theorem run_invariant_along {P : σ → α → Prop} {I : σ → Prop}
    (hstep : ∀ s a next, I s → P s a → step s a = some next → I next)
    {s final : σ} {actions : List α} (hinit : I s)
    (halong : Along step P s actions)
    (hrun : run step s actions = some final) : I final := by
  induction actions generalizing s with
  | nil =>
      cases hrun
      exact hinit
  | cons a rest ih =>
      obtain ⟨next, hnext, hrest⟩ := (run_cons_eq_some step).mp hrun
      exact ih (hstep s a next hinit halong.1 hnext)
        (halong.2 next hnext) hrest

theorem run_invariant {I : σ → Prop}
    (hstep : ∀ s a next, I s → step s a = some next → I next)
    {s final : σ} {actions : List α} (hinit : I s)
    (hrun : run step s actions = some final) : I final := by
  induction actions generalizing s with
  | nil =>
      cases hrun
      exact hinit
  | cons a rest ih =>
      obtain ⟨next, hnext, hrest⟩ := (run_cons_eq_some step).mp hrun
      exact ih (hstep s a next hinit hnext) hrest

/-- A property holds at every point of a run exactly if each step satisfies the
condition under which it keeps the property. -/
theorem always_iff_along {P : σ → α → Prop} {I G : σ → Prop}
    (hinv : ∀ s a next, I s → step s a = some next → I next)
    (hgood : ∀ s a next, I s → G s → step s a = some next → (G next ↔ P s a))
    {s final : σ} {actions : List α} (hI : I s) (hG : G s)
    (hrun : run step s actions = some final) :
    (∀ before after middle, actions = before ++ after →
        run step s before = some middle → G middle) ↔ Along step P s actions := by
  induction actions generalizing s with
  | nil =>
      refine iff_of_true ?_ trivial
      intro before after middle hsplit hmiddle
      obtain ⟨rfl, rfl⟩ := List.append_eq_nil_iff.mp hsplit.symm
      cases hmiddle
      exact hG
  | cons a rest ih =>
      obtain ⟨next, hnext, hrest⟩ := (run_cons_eq_some step).mp hrun
      rw [along_cons_of_step step hnext, ← hgood s a next hI hG hnext]
      constructor
      · intro halways
        have hG' : G next := halways [a] rest next rfl (by simp [run_cons, hnext])
        refine ⟨hG', (ih (hinv s a next hI hnext) hG' hrest).mp ?_⟩
        intro before after middle hsplit hmiddle
        apply halways (a :: before) after middle (by rw [hsplit]; rfl)
        exact (run_cons_eq_some step).mpr ⟨next, hnext, hmiddle⟩
      · rintro ⟨hG', halong⟩ before after middle hsplit hmiddle
        have halways := (ih (hinv s a next hI hnext) hG' hrest).mpr halong
        cases before with
        | nil =>
            cases hmiddle
            exact hG
        | cons b before =>
            obtain ⟨rfl, rfl⟩ := List.cons_eq_cons.mp hsplit
            obtain ⟨other, hother, hmiddle⟩ := (run_cons_eq_some step).mp hmiddle
            rw [hnext] at hother
            cases hother
            exact halways before after middle rfl hmiddle

theorem run_invariant_history {I : σ → List α → Prop}
    (hstep : ∀ s earlier a next, I s earlier → step s a = some next → I next (earlier ++ [a]))
    {s final : σ} {earlier actions : List α} (hinit : I s earlier)
    (hrun : run step s actions = some final) : I final (earlier ++ actions) := by
  induction actions generalizing s earlier with
  | nil =>
      cases hrun
      rw [List.append_nil]
      exact hinit
  | cons a rest ih =>
      obtain ⟨next, hnext, hrest⟩ := (run_cons_eq_some step).mp hrun
      have hmore := ih (hstep s earlier a next hinit hnext) hrest
      rwa [List.append_assoc] at hmore

/-! ## What is seen along a run -/

section Observe

variable {β : Type*} (seen : σ → α → List β)

def observe : σ → List α → List β
  | _, [] => []
  | s, a :: rest => seen s a ++ (step s a).elim [] fun next => observe next rest

theorem observe_cons_of_step {s next : σ} {a : α} (hnext : step s a = some next)
    (rest : List α) :
    observe step seen s (a :: rest) = seen s a ++ observe step seen next rest := by
  rw [observe, hnext, Option.elim_some]

theorem observe_append {s middle : σ} {before after : List α}
    (hrun : run step s before = some middle) :
    observe step seen s (before ++ after) =
      observe step seen s before ++ observe step seen middle after := by
  induction before generalizing s with
  | nil =>
      cases hrun
      rfl
  | cons a rest ih =>
      obtain ⟨next, hnext, hrest⟩ := (run_cons_eq_some step).mp hrun
      rw [List.cons_append, observe_cons_of_step step seen hnext,
        observe_cons_of_step step seen hnext, ih hrest, List.append_assoc]

theorem forall_mem_observe {P : β → Prop} (hseen : ∀ s a, ∀ b ∈ seen s a, P b) (s : σ)
    (actions : List α) : ∀ b ∈ observe step seen s actions, P b := by
  induction actions generalizing s with
  | nil => exact fun b hmem => absurd hmem List.not_mem_nil
  | cons a rest ih =>
      intro b hmem
      rcases List.mem_append.mp hmem with hhead | htail
      · exact hseen s a b hhead
      · cases hnext : step s a with
        | none => simp [hnext] at htail
        | some next =>
            rw [hnext, Option.elim_some] at htail
            exact ih next b htail

theorem exists_split_of_mem_observe {s : σ} {actions : List α} {b : β}
    (hmem : b ∈ observe step seen s actions) :
    ∃ before a after middle, actions = before ++ a :: after ∧
      run step s before = some middle ∧ b ∈ seen middle a := by
  induction actions generalizing s with
  | nil => exact absurd hmem List.not_mem_nil
  | cons a rest ih =>
      rcases List.mem_append.mp hmem with hhead | htail
      · exact ⟨[], a, rest, s, rfl, rfl, hhead⟩
      · cases hnext : step s a with
        | none => simp [hnext] at htail
        | some next =>
            rw [hnext, Option.elim_some] at htail
            obtain ⟨before, b', after, middle, hsplit, hrun, hseen⟩ := ih htail
            refine ⟨a :: before, b', after, middle, by rw [hsplit]; rfl, ?_, hseen⟩
            exact (run_cons_eq_some step).mpr ⟨next, hnext, hrun⟩

theorem filterMap_observe {γ : Type*} {f : β → Option γ} {other : σ → α → List γ}
    (hseen : ∀ s a, (seen s a).filterMap f = other s a) (s : σ) (actions : List α) :
    (observe step seen s actions).filterMap f = observe step other s actions := by
  induction actions generalizing s with
  | nil => rfl
  | cons a rest ih =>
      rw [observe, observe, List.filterMap_append, hseen]
      cases step s a with
      | none => rfl
      | some next => rw [Option.elim_some, Option.elim_some, ih]

theorem run_invariant_observe {P : σ → α → Prop} {I : σ → List β → Prop}
    (hstep : ∀ s earlier a next, I s earlier → P s a → step s a = some next →
      I next (earlier ++ seen s a))
    {s final : σ} {earlier : List β} {actions : List α} (hinit : I s earlier)
    (halong : Along step P s actions) (hrun : run step s actions = some final) :
    I final (earlier ++ observe step seen s actions) := by
  induction actions generalizing s earlier with
  | nil =>
      cases hrun
      rw [observe, List.append_nil]
      exact hinit
  | cons a rest ih =>
      obtain ⟨next, hnext, hrest⟩ := (run_cons_eq_some step).mp hrun
      have hmore := ih (hstep s earlier a next hinit halong.1 hnext) (halong.2 next hnext) hrest
      rw [observe_cons_of_step step seen hnext, ← List.append_assoc]
      exact hmore

theorem run_invariant_seen {I : σ → List β → Prop}
    (hstep : ∀ s earlier a next, I s earlier → step s a = some next →
      I next (earlier ++ seen s a))
    {s final : σ} {earlier : List β} {actions : List α} (hinit : I s earlier)
    (hrun : run step s actions = some final) :
    I final (earlier ++ observe step seen s actions) :=
  run_invariant_observe step seen (P := fun _ _ => True)
    (fun s earlier a next hs _ => hstep s earlier a next hs) hinit
    ((along_iff_forall_split step).mpr fun _ _ _ _ _ _ => trivial) hrun

end Observe

end Transition
end DistCache
