import DistCache.Transition

/-!
# Two runs that show the same

Two machines start in related states.  Each takes visible steps, and silent steps
of its own between them.  A silent step of either machine keeps the relation and
shows nothing.  Visible steps of the same kind, taken by both machines, keep the
relation and show the same.  Runs with the same visible steps then end in related
states and show the same, however the silent steps lie between the visible ones.
-/

namespace DistCache
namespace Transition

variable {σ τ α β ν γ : Type*}

structure InStep (step : σ → α → Option σ) (step' : τ → β → Option τ) (R : σ → τ → Prop)
    (P : σ → α → Prop) (P' : τ → β → Prop) (visible : α → Option ν) (visible' : β → Option ν)
    (shows : σ → α → List γ) (shows' : τ → β → List γ) : Prop where
  silent : ∀ {s t a next}, R s t → P s a → visible a = none → step s a = some next →
    R next t ∧ shows s a = []
  silent' : ∀ {s t b next}, R s t → P' t b → visible' b = none → step' t b = some next →
    R s next ∧ shows' t b = []
  both : ∀ {s t a b v next next'}, R s t → P s a → P' t b →
    visible a = some v → visible' b = some v →
    step s a = some next → step' t b = some next' → R next next' ∧ shows' t b = shows s a

namespace InStep

variable {step : σ → α → Option σ} {step' : τ → β → Option τ} {R : σ → τ → Prop}
  {P : σ → α → Prop} {P' : τ → β → Prop} {visible : α → Option ν} {visible' : β → Option ν}
  {shows : σ → α → List γ} {shows' : τ → β → List γ}

theorem run_silent (h : InStep step step' R P P' visible visible' shows shows')
    {s : σ} {t final : τ} {actions : List β} (hR : R s t)
    (halong : Along step' P' t actions) (hrun : run step' t actions = some final)
    (hsilent : ∀ b ∈ actions, visible' b = none) :
    R s final ∧ observe step' shows' t actions = [] := by
  induction actions generalizing t with
  | nil =>
      cases hrun
      exact ⟨hR, rfl⟩
  | cons b rest ih =>
      obtain ⟨next, hnext, hrest⟩ := (run_cons_eq_some step').mp hrun
      obtain ⟨hR', hnothing⟩ := h.silent' hR halong.1 (hsilent b List.mem_cons_self) hnext
      obtain ⟨hfinal, hshows⟩ := ih hR' (halong.2 next hnext) hrest
        fun b' hmem => hsilent b' (List.mem_cons_of_mem b hmem)
      rw [observe_cons_of_step step' shows' hnext, hnothing, hshows]
      exact ⟨hfinal, rfl⟩

theorem run_same (h : InStep step step' R P P' visible visible' shows shows')
    {s final : σ} {t final' : τ} {actions : List α} {actions' : List β} (hR : R s t)
    (halong : Along step P s actions) (halong' : Along step' P' t actions')
    (hrun : run step s actions = some final) (hrun' : run step' t actions' = some final')
    (hsame : actions'.filterMap visible' = actions.filterMap visible) :
    R final final' ∧ observe step' shows' t actions' = observe step shows s actions := by
  induction actions generalizing s t actions' with
  | nil =>
      cases hrun
      exact h.run_silent hR halong' hrun' (List.filterMap_eq_nil_iff.mp hsame)
  | cons a rest ih =>
      obtain ⟨next, hnext, hrest⟩ := (run_cons_eq_some step).mp hrun
      cases hvisible : visible a with
      | none =>
          rw [List.filterMap_cons_none hvisible] at hsame
          obtain ⟨hR', hnothing⟩ := h.silent hR halong.1 hvisible hnext
          obtain ⟨hfinal, hshows⟩ := ih hR' (halong.2 next hnext) halong' hrest hrun' hsame
          rw [observe_cons_of_step step shows hnext, hnothing, hshows]
          exact ⟨hfinal, rfl⟩
      | some v =>
          rw [List.filterMap_cons_some hvisible] at hsame
          -- the other machine is silent for a while and then takes the same step
          obtain ⟨before, b, after, rfl, hbefore, hb, hafter⟩ :=
            List.filterMap_eq_cons_iff.mp hsame
          obtain ⟨middle, hmiddle, hrun'⟩ := (run_append_eq_some step').mp hrun'
          obtain ⟨next', hnext', hrest'⟩ := (run_cons_eq_some step').mp hrun'
          obtain ⟨hquiet, halong'⟩ := (along_append step').mp halong'
          obtain ⟨hR', hnothing⟩ := h.run_silent hR hquiet hmiddle hbefore
          have hhere := halong' middle hmiddle
          obtain ⟨hR'', hshown⟩ := h.both hR' halong.1 hhere.1 hvisible hb hnext hnext'
          obtain ⟨hfinal, hshows⟩ := ih hR'' (halong.2 next hnext) (hhere.2 next' hnext')
            hrest hrest' hafter
          rw [observe_append step' shows' hmiddle, hnothing, List.nil_append,
            observe_cons_of_step step' shows' hnext', observe_cons_of_step step shows hnext,
            hshown, hshows]
          exact ⟨hfinal, rfl⟩

end InStep

end Transition
end DistCache
