import Mathlib.Tactic

/-!
# Runs with results on a clock

Every action carries the time at which it is performed.  An implementation and its
specification may agree only up to the time, so the relation between their states is
indexed by it and may only get weaker.  Such a relation, kept by every action, makes the
results of whole runs match.

A machine may also take silent actions; two runs with silent ones in different places
are compared through the run without any.
-/

namespace DistCache
namespace TimedRuns

variable {σ τ α β γ T : Type*}

def results (step : σ → α → σ × β) : σ → List α → List β
  | _, [] => []
  | s, a :: rest => (step s a).2 :: results step (step s a).1 rest

/-- The simulation rule: the actions come in the order of their times, and the
relation holds at the start from the time of the first one on. -/
theorem results_match [Preorder T] {time : α → T} {step : σ → α → σ × β}
    {spec : τ → α → τ × γ} {R : T → σ → τ → Prop} {Matches : β → γ → Prop}
    (hlater : ∀ now later s t, now ≤ later → R now s t → R later s t)
    (hstep : ∀ a s t, R (time a) s t →
      R (time a) (step s a).1 (spec t a).1 ∧ Matches (step s a).2 (spec t a).2)
    {actions : List α} (hclock : (actions.map time).Pairwise (· ≤ ·))
    {s : σ} {t : τ} (hrel : ∀ a ∈ actions, R (time a) s t) :
    List.Forall₂ Matches (results step s actions) (results spec t actions) := by
  induction actions generalizing s t with
  | nil => exact .nil
  | cons a rest ih =>
      rw [List.map_cons, List.pairwise_cons] at hclock
      obtain ⟨hnext, hresult⟩ := hstep a s t (hrel a List.mem_cons_self)
      apply List.Forall₂.cons hresult
      apply ih hclock.2
      intro b hb
      exact hlater _ _ _ _ (hclock.1 _ (List.mem_map_of_mem hb)) hnext

/-! ## Silent actions -/

def observed (step : σ → α → σ × β) (seen : α → Bool) : σ → List α → List β
  | _, [] => []
  | s, a :: rest =>
      if seen a then (step s a).2 :: observed step seen (step s a).1 rest
      else observed step seen (step s a).1 rest

/-- Every action of the run satisfies `P` in the state before it. -/
def Throughout (step : σ → α → σ × β) (P : σ → α → Prop) : σ → List α → Prop
  | _, [] => True
  | s, a :: rest => P s a ∧ Throughout step P (step s a).1 rest

/-- A run of the actions with silent ones inserted, each possible where it is. -/
structure Inserts [Preorder T] (time : α → T) (step : σ → α → σ × β) (silent : α → Bool)
    (Possible : σ → α → Prop) (s : σ) (actions run : List α) : Prop where
  same : run.filter (fun a => ¬ silent a) = actions
  clock : (run.map time).Pairwise (· ≤ ·)
  possible : Throughout step (fun s a => silent a → Possible s a) s run

section Silent

variable [Preorder T] {time : α → T} {step : σ → α → σ × β} {seen silent : α → Bool}
  {P Possible : σ → α → Prop} {R : T → σ → σ → Prop}

theorem observed_cons_of_seen {a : α} (hseen : seen a) (s : σ) (rest : List α) :
    observed step seen s (a :: rest) =
      (step s a).2 :: observed step seen (step s a).1 rest := by
  rw [observed, if_pos hseen]

theorem observed_cons_of_unseen {a : α} (hunseen : ¬ seen a) (s : σ) (rest : List α) :
    observed step seen s (a :: rest) = observed step seen (step s a).1 rest := by
  rw [observed, if_neg hunseen]

theorem filter_cons_of_silent {a : α} (hsilent : silent a) (rest : List α) :
    (a :: rest).filter (fun a => ¬ silent a) = rest.filter fun a => ¬ silent a := by
  simp [hsilent]

theorem filter_cons_of_loud {a : α} (hloud : ¬ silent a) (rest : List α) :
    (a :: rest).filter (fun a => ¬ silent a) = a :: rest.filter fun a => ¬ silent a := by
  simp [hloud]

/-- The run with silent actions is compared with the run without: what is looked at
has the same results as long as `P` holds along the second one. -/
theorem observed_filter
    (hlater : ∀ now later s t, now ≤ later → R now s t → R later s t)
    (hunseen : ∀ a, silent a → ¬ seen a)
    (hsilent : ∀ a s t, silent a → R (time a) s t → R (time a) (step s a).1 t)
    (hstep : ∀ a s t, ¬ silent a → R (time a) s t → R (time a) (step s a).1 (step t a).1)
    (hseen : ∀ a s t, seen a → R (time a) s t → P t a → (step s a).2 = (step t a).2)
    {run : List α} (hclock : (run.map time).Pairwise (· ≤ ·)) {s t : σ}
    (hrel : ∀ a ∈ run, R (time a) s t)
    (hthroughout : Throughout step P t (run.filter fun a => ¬ silent a)) :
    observed step seen s run = observed step seen t (run.filter fun a => ¬ silent a) := by
  induction run generalizing s t with
  | nil => rfl
  | cons a rest ih =>
      rw [List.map_cons, List.pairwise_cons] at hclock
      have hhere := hrel a List.mem_cons_self
      have hnext : ∀ {s t}, R (time a) s t → ∀ b ∈ rest, R (time b) s t := by
        intro s t hrel b hmem
        exact hlater _ _ _ _ (hclock.1 _ (List.mem_map_of_mem hmem)) hrel
      by_cases hcase : silent a
      · rw [filter_cons_of_silent hcase] at hthroughout ⊢
        rw [observed_cons_of_unseen (hunseen a hcase)]
        exact ih hclock.2 (hnext (hsilent a s t hcase hhere)) hthroughout
      · rw [filter_cons_of_loud hcase] at hthroughout ⊢
        have htail := ih hclock.2 (hnext (hstep a s t hcase hhere)) hthroughout.2
        by_cases hlooked : seen a
        · rw [observed_cons_of_seen hlooked, observed_cons_of_seen hlooked, htail,
            hseen a s t hlooked hhere hthroughout.1]
        · rw [observed_cons_of_unseen hlooked, observed_cons_of_unseen hlooked, htail]

theorem filter_client {actions : List α} (hclient : ∀ a ∈ actions, ¬ silent a) :
    actions.filter (fun a => ¬ silent a) = actions := by
  rw [List.filter_eq_self]
  intro a hmem
  exact decide_eq_true (hclient a hmem)

theorem throughout_client {actions : List α} (hclient : ∀ a ∈ actions, ¬ silent a) (s : σ) :
    Throughout step (fun s a => silent a → Possible s a) s actions := by
  induction actions generalizing s with
  | nil => trivial
  | cons a rest ih =>
      constructor
      · exact fun hsilent => absurd hsilent (hclient a List.mem_cons_self)
      · exact ih (fun b hmem => hclient b (List.mem_cons_of_mem _ hmem)) _

theorem Inserts.none {actions : List α} (hclient : ∀ a ∈ actions, ¬ silent a)
    (hclock : (actions.map time).Pairwise (· ≤ ·)) (s : σ) :
    Inserts time step silent Possible s actions actions :=
  ⟨filter_client hclient, hclock, throughout_client hclient s⟩

/-- Where `P` fails, a silent action right before shows it. -/
theorem exists_observed_ne
    (hunseen : ∀ a, silent a → ¬ seen a)
    (hbreak : ∀ a s, ¬ silent a → ¬ P s a → seen a ∧ ∃ b, silent b ∧ time b = time a ∧
      Possible s b ∧ (step (step s b).1 a).2 ≠ (step s a).2)
    {actions : List α} (hclient : ∀ a ∈ actions, ¬ silent a)
    (hclock : (actions.map time).Pairwise (· ≤ ·)) {s : σ}
    (hfails : ¬ Throughout step P s actions) :
    ∃ run, Inserts time step silent Possible s actions run ∧
      (∀ b ∈ run, time b ∈ actions.map time) ∧
      observed step seen s run ≠ observed step seen s actions := by
  induction actions generalizing s with
  | nil => exact absurd trivial hfails
  | cons a rest ih =>
      have hloud : ¬ silent a := hclient a List.mem_cons_self
      have hrest : ∀ b ∈ rest, ¬ silent b :=
        fun b hmem => hclient b (List.mem_cons_of_mem _ hmem)
      have hordered := hclock
      rw [List.map_cons, List.pairwise_cons] at hordered
      by_cases hhere : P s a
      · have hlater : ¬ Throughout step P (step s a).1 rest := fun hall => hfails ⟨hhere, hall⟩
        obtain ⟨run, hinserts, htimes, hne⟩ := ih hrest hordered.2 hlater
        refine ⟨a :: run, ⟨?_, ?_, ?_⟩, ?_, ?_⟩
        · rw [filter_cons_of_loud hloud, hinserts.same]
        · rw [List.map_cons, List.pairwise_cons]
          refine ⟨?_, hinserts.clock⟩
          intro later hmem
          obtain ⟨b, hb, rfl⟩ := List.mem_map.mp hmem
          exact hordered.1 _ (htimes b hb)
        · exact ⟨fun hsilent => absurd hsilent hloud, hinserts.possible⟩
        · intro b hmem
          rw [List.map_cons, List.mem_cons]
          rcases List.mem_cons.mp hmem with rfl | hmem
          · exact Or.inl rfl
          · exact Or.inr (htimes b hmem)
        · by_cases hlooked : seen a
          · rw [observed_cons_of_seen hlooked, observed_cons_of_seen hlooked]
            exact fun heq => hne (List.cons.inj heq).2
          · rw [observed_cons_of_unseen hlooked, observed_cons_of_unseen hlooked]
            exact hne
      · obtain ⟨hlooked, b, hsilent, htime, hpossible, hdiffers⟩ := hbreak a s hloud hhere
        refine ⟨b :: a :: rest, ⟨?_, ?_, ?_⟩, ?_, ?_⟩
        · rw [filter_cons_of_silent hsilent, filter_client hclient]
        · rw [List.map_cons, List.pairwise_cons, List.map_cons, htime]
          refine ⟨?_, hclock⟩
          intro later hmem
          rcases List.mem_cons.mp hmem with rfl | hmem
          · exact le_rfl
          · exact hordered.1 later hmem
        · exact ⟨fun _ => hpossible, throughout_client hclient _⟩
        · intro other hmem
          rcases List.mem_cons.mp hmem with rfl | hmem
          · rw [htime]
            exact List.mem_map_of_mem List.mem_cons_self
          · exact List.mem_map_of_mem hmem
        · rw [observed_cons_of_unseen (hunseen b hsilent), observed_cons_of_seen hlooked,
            observed_cons_of_seen hlooked]
          exact fun heq => hdiffers (List.cons.inj heq).1

/-- Silent actions cannot be told by what is looked at, wherever they happen, exactly
if `P` holds along the run without them. -/
theorem observed_eq_iff_throughout
    (hlater : ∀ now later s t, now ≤ later → R now s t → R later s t)
    (hunseen : ∀ a, silent a → ¬ seen a)
    (hsilent : ∀ a s t, silent a → R (time a) s t → R (time a) (step s a).1 t)
    (hstep : ∀ a s t, ¬ silent a → R (time a) s t → R (time a) (step s a).1 (step t a).1)
    (hseen : ∀ a s t, seen a → R (time a) s t → P t a → (step s a).2 = (step t a).2)
    (hbreak : ∀ a s, ¬ silent a → ¬ P s a → seen a ∧ ∃ b, silent b ∧ time b = time a ∧
      Possible s b ∧ (step (step s b).1 a).2 ≠ (step s a).2)
    {actions : List α} (hclient : ∀ a ∈ actions, ¬ silent a)
    (hclock : (actions.map time).Pairwise (· ≤ ·)) {s : σ} (hrefl : ∀ now, R now s s) :
    (∀ first second, Inserts time step silent Possible s actions first →
        Inserts time step silent Possible s actions second →
        observed step seen s first = observed step seen s second) ↔
      Throughout step P s actions := by
  constructor
  · intro hequal
    by_contra hfails
    obtain ⟨run, hinserts, -, hne⟩ := exists_observed_ne hunseen hbreak hclient hclock hfails
    exact hne (hequal run actions hinserts (.none hclient hclock s))
  · intro hthroughout
    have hplain : ∀ run, Inserts time step silent Possible s actions run →
        observed step seen s run = observed step seen s actions := by
      intro run hinserts
      have hrun := observed_filter hlater hunseen hsilent hstep hseen hinserts.clock
        (fun a _ => hrefl (time a)) (by rw [hinserts.same]; exact hthroughout)
      rw [hinserts.same] at hrun
      exact hrun
    intro first second hfirst hsecond
    rw [hplain first hfirst, hplain second hsecond]

end Silent

end TimedRuns
end DistCache
