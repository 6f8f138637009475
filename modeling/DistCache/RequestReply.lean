import DistCache.Transition

/-!
# Requests and replies over streams

A client writes a request, waits, and reads a reply; the server reads a request whenever
one has arrived and writes what it answers.  The calls of different clients overlap, and
a call takes effect when the server serves it.

What the clients read is what a server answers that is called directly in the order in
which the calls are served.  This needs requests and replies that are read as they were
written.
-/

namespace DistCache
namespace RequestReply

open Transition

variable {σ E M Q R β : Type*}

/-! ## The streams -/

/-- A server with a state, and the codecs of its streams.  `E` is what the server
finds outside when it serves a request. -/
structure Service (σ E M Q R β : Type*) where
  request : M → Q
  writeRequest : M → List β
  readRequest : List β → Option (Q × List β)
  serve : σ → E → ℕ → Q → σ × List R
  writeReply : R → List β
  readReply : List β → Option (R × List β)

/-- The server, the streams to it and from it, and what each client waits for. -/
structure Net (σ M β : Type*) where
  server : σ
  up : ℕ → List β
  down : ℕ → List β
  asked : ℕ → Option M

def Net.quiet (s : σ) : Net σ M β := ⟨s, fun _ => [], fun _ => [], fun _ => none⟩

inductive Move (σ E M : Type*) where
  | call (i : ℕ) (m : M)
  | serve (i : ℕ) (e : E)
  | ret (i : ℕ)
  | background (f : σ → σ)

/-- What happens to the server. -/
inductive Effect (σ E M : Type*) where
  | call (i : ℕ) (m : M) (e : E)
  | background (f : σ → σ)

def Effect.move : Effect σ E M → Move σ E M
  | .call i _ e => .serve i e
  | .background f => .background f

structure Answer (M R : Type*) where
  client : ℕ
  call : M
  reply : R

/-- What a run leaves behind: the effects on the server and what the clients have
read. -/
inductive Trace (σ E M R : Type*) where
  | effect (a : Effect σ E M)
  | returned (a : Answer M R)

namespace Service

variable (P : Service σ E M Q R β)

/-- A client calls again after it has read its reply. -/
def step (n : Net σ M β) : Move σ E M → Option (Net σ M β)
  | .call i m =>
      match n.asked i with
      | some _ => none
      | none => some { n with
          up := Function.update n.up i (n.up i ++ P.writeRequest m)
          asked := Function.update n.asked i (some m) }
  | .serve i e =>
      match P.readRequest (n.up i) with
      | none => none
      | some (q, rest) => some { n with
          server := (P.serve n.server e i q).1
          up := Function.update n.up i rest
          down := Function.update n.down i
            (n.down i ++ (P.serve n.server e i q).2.flatMap P.writeReply) }
  | .ret i =>
      match n.asked i, P.readReply (n.down i) with
      | some _, some (_, rest) => some { n with
          down := Function.update n.down i rest
          asked := Function.update n.asked i none }
      | _, _ => none
  | .background f => some { n with server := f n.server }

def trace (n : Net σ M β) : Move σ E M → List (Trace σ E M R)
  | .call _ _ => []
  | .serve i e => (n.asked i).toList.map fun m => .effect (.call i m e)
  | .ret i =>
      match n.asked i, P.readReply (n.down i) with
      | some m, some (r, _) => [.returned ⟨i, m, r⟩]
      | _, _ => []
  | .background f => [.effect (.background f)]

/-! ## The server called directly -/

def apply (s : σ) : Effect σ E M → σ × List (Answer M R)
  | .call i m e =>
      ((P.serve s e i (P.request m)).1, (P.serve s e i (P.request m)).2.map (⟨i, m, ·⟩))
  | .background f => (f s, [])

def sequential : σ → List (Effect σ E M) → σ × List (Answer M R)
  | s, [] => (s, [])
  | s, a :: rest =>
      let after := sequential (P.apply s a).1 rest
      (after.1, (P.apply s a).2 ++ after.2)

theorem sequential_append (s : σ) (first second : List (Effect σ E M)) :
    P.sequential s (first ++ second) =
      ((P.sequential (P.sequential s first).1 second).1,
        (P.sequential s first).2 ++ (P.sequential (P.sequential s first).1 second).2) := by
  induction first generalizing s with
  | nil => rfl
  | cons a rest ih => simp only [List.cons_append, sequential, ih, List.append_assoc]

theorem sequential_singleton (s : σ) (a : Effect σ E M) :
    P.sequential s [a] = P.apply s a := by
  simp [sequential]

end Service

/-! ## Readings of a trace -/

def effects (events : List (Trace σ E M R)) : List (Effect σ E M) :=
  events.filterMap fun
    | .effect a => some a
    | .returned _ => none

def returned (events : List (Trace σ E M R)) : List (Answer M R) :=
  events.filterMap fun
    | .effect _ => none
    | .returned a => some a

def ofClient (i : ℕ) (answers : List (Answer M R)) : List (Answer M R) :=
  answers.filter fun a => a.client = i

@[simp] theorem effects_nil : effects ([] : List (Trace σ E M R)) = [] := rfl

@[simp] theorem returned_nil : returned ([] : List (Trace σ E M R)) = [] := rfl

@[simp] theorem effects_append (first second : List (Trace σ E M R)) :
    effects (first ++ second) = effects first ++ effects second :=
  List.filterMap_append

@[simp] theorem returned_append (first second : List (Trace σ E M R)) :
    returned (first ++ second) = returned first ++ returned second :=
  List.filterMap_append

@[simp] theorem effects_effect (a : Effect σ E M) :
    effects [(.effect a : Trace σ E M R)] = [a] := rfl

@[simp] theorem effects_returned (a : Answer M R) :
    effects [(.returned a : Trace σ E M R)] = [] := rfl

@[simp] theorem returned_effect (a : Effect σ E M) :
    returned [(.effect a : Trace σ E M R)] = [] := rfl

@[simp] theorem returned_returned (a : Answer M R) :
    returned [(.returned a : Trace σ E M R)] = [a] := rfl

theorem ofClient_append (i : ℕ) (first second : List (Answer M R)) :
    ofClient i (first ++ second) = ofClient i first ++ ofClient i second :=
  List.filter_append _ _

theorem ofClient_singleton (i : ℕ) (a : Answer M R) :
    ofClient i [a] = if a.client = i then [a] else [] := by
  by_cases hclient : a.client = i <;> simp [ofClient, hclient]

theorem move_effects_sublist (P : Service σ E M Q R β) (n : Net σ M β)
    (moves : List (Move σ E M)) :
    ((effects (observe P.step P.trace n moves)).map Effect.move).Sublist moves := by
  induction moves generalizing n with
  | nil => exact List.Sublist.slnil
  | cons move rest ih =>
      have hrest : ((effects ((P.step n move).elim [] fun next =>
          observe P.step P.trace next rest)).map Effect.move).Sublist rest := by
        cases P.step n move with
        | none => exact List.nil_sublist rest
        | some next => exact ih next
      have hone : ((effects (P.trace n move)).map Effect.move).Sublist [move] := by
        cases move with
        | call i m => exact List.nil_sublist _
        | serve i e =>
            simp only [Service.trace]
            cases n.asked i with
            | none => exact List.nil_sublist _
            | some m => exact List.Sublist.refl _
        | ret i =>
            simp only [Service.trace]
            cases n.asked i with
            | none => exact List.nil_sublist _
            | some m =>
                cases P.readReply (n.down i) with
                | none => exact List.nil_sublist _
                | some found => exact List.nil_sublist _
        | background f => exact List.Sublist.refl _
      rw [observe, effects_append, List.map_append]
      exact hone.append hrest

/-! ## The order of the calls -/

namespace Service

variable (P : Service σ E M Q R β)

/-- The request of a call is read as it was written, and what is served has one
reply, which is read as it was written. -/
def Orderly (n : Net σ M β) : Move σ E M → Prop
  | .call _ m => P.readRequest (P.writeRequest m) = some (P.request m, [])
  | .serve i e => ∀ m, n.asked i = some m → ∃ r,
      (P.serve n.server e i (P.request m)).2 = [r] ∧
        P.readReply (P.writeReply r) = some (r, [])
  | _ => True

inductive Stage (n : Net σ M β) (i : ℕ) : List (Answer M R) → Prop where
  | idle (hasked : n.asked i = none) (hup : n.up i = []) (hdown : n.down i = []) :
      Stage n i []
  | sent (m : M) (hasked : n.asked i = some m) (hup : n.up i = P.writeRequest m)
      (hread : P.readRequest (P.writeRequest m) = some (P.request m, []))
      (hdown : n.down i = []) : Stage n i []
  | answered (m : M) (r : R) (hasked : n.asked i = some m) (hup : n.up i = [])
      (hdown : n.down i = P.writeReply r)
      (hread : P.readReply (P.writeReply r) = some (r, [])) : Stage n i [⟨i, m, r⟩]

structure Linked (s : σ) (n : Net σ M β) (events : List (Trace σ E M R)) : Prop where
  server : n.server = (P.sequential s (effects events)).1
  stages : ∀ i, ∃ pending, P.Stage n i pending ∧
    ofClient i (P.sequential s (effects events)).2 = ofClient i (returned events) ++ pending

variable {P} {s : σ} {n next : Net σ M β} {events : List (Trace σ E M R)}

theorem linked_quiet (s : σ) : P.Linked s (.quiet s) [] where
  server := rfl
  stages := fun _ => ⟨[], .idle rfl rfl rfl, rfl⟩

theorem Stage.same {i : ℕ} {pending : List (Answer M R)} (hstage : P.Stage n i pending)
    (hup : next.up i = n.up i) (hdown : next.down i = n.down i)
    (hasked : next.asked i = n.asked i) : P.Stage next i pending := by
  cases hstage with
  | idle hnone hempty hsilent =>
      exact .idle (hasked.trans hnone) (hup.trans hempty) (hdown.trans hsilent)
  | sent m hm hwritten hread hsilent =>
      exact .sent m (hasked.trans hm) (hup.trans hwritten) hread (hdown.trans hsilent)
  | answered m r hm hempty hwritten hread =>
      exact .answered m r (hasked.trans hm) (hup.trans hempty) (hdown.trans hwritten) hread

theorem Stage.of_none {i : ℕ} {pending : List (Answer M R)} (hstage : P.Stage n i pending)
    (hnone : n.asked i = none) : pending = [] ∧ n.up i = [] ∧ n.down i = [] := by
  cases hstage with
  | idle _ hup hdown => exact ⟨rfl, hup, hdown⟩
  | sent m hasked => simp [hnone] at hasked
  | answered m r hasked => simp [hnone] at hasked

theorem Stage.of_read {i : ℕ} {pending : List (Answer M R)} {q : Q} {rest : List β}
    (hstage : P.Stage n i pending) (hempty : P.readRequest [] = none)
    (hread : P.readRequest (n.up i) = some (q, rest)) :
    ∃ m, n.asked i = some m ∧ q = P.request m ∧ rest = [] ∧ pending = [] ∧ n.down i = [] := by
  cases hstage with
  | idle _ hup => simp [hup, hempty] at hread
  | answered m r _ hup => simp [hup, hempty] at hread
  | sent m hasked hup hwritten hdown =>
      rw [hup, hwritten, Option.some.injEq, Prod.mk.injEq] at hread
      exact ⟨m, hasked, hread.1.symm, hread.2.symm, rfl, hdown⟩

theorem Stage.of_reply {i : ℕ} {pending : List (Answer M R)} {m : M} {r : R} {rest : List β}
    (hstage : P.Stage n i pending) (hempty : P.readReply [] = none)
    (hasked : n.asked i = some m) (hread : P.readReply (n.down i) = some (r, rest)) :
    pending = [⟨i, m, r⟩] ∧ rest = [] ∧ n.up i = [] := by
  cases hstage with
  | idle hnone => simp [hnone] at hasked
  | sent m' _ _ _ hdown => simp [hdown, hempty] at hread
  | answered m' r' hm hup hdown hwritten =>
      rw [hdown, hwritten, Option.some.injEq, Prod.mk.injEq] at hread
      rw [hm, Option.some.injEq] at hasked
      rw [hasked, hread.1]
      exact ⟨rfl, hread.2.symm, hup⟩

theorem step_call {i : ℕ} {m : M} (hstep : P.step n (.call i m) = some next) :
    n.asked i = none ∧ next = { n with
      up := Function.update n.up i (n.up i ++ P.writeRequest m)
      asked := Function.update n.asked i (some m) } := by
  simp only [step] at hstep
  cases hasked : n.asked i with
  | some other => simp [hasked] at hstep
  | none =>
      simp only [hasked, Option.some.injEq] at hstep
      exact ⟨rfl, hstep.symm⟩

theorem step_ret {i : ℕ} (hstep : P.step n (.ret i) = some next) :
    ∃ m r rest, n.asked i = some m ∧ P.readReply (n.down i) = some (r, rest) ∧
      next = { n with
        down := Function.update n.down i rest
        asked := Function.update n.asked i none } := by
  simp only [step] at hstep
  cases hasked : n.asked i with
  | none => simp [hasked] at hstep
  | some m =>
      cases hread : P.readReply (n.down i) with
      | none => simp [hasked, hread] at hstep
      | some found =>
          simp only [hasked, hread, Option.some.injEq] at hstep
          exact ⟨m, found.1, found.2, rfl, rfl, hstep.symm⟩

theorem linked_call {i : ℕ} {m : M} (hlinked : P.Linked s n events)
    (horderly : P.Orderly n (.call i m)) (hstep : P.step n (.call i m) = some next) :
    P.Linked s next (events ++ P.trace n (.call i m)) := by
  obtain ⟨hasked, rfl⟩ := step_call hstep
  have htrace : events ++ P.trace n (.call i m) = events := by simp [trace]
  rw [htrace]
  refine ⟨hlinked.server, ?_⟩
  intro j
  obtain ⟨pending, hstage, hanswers⟩ := hlinked.stages j
  by_cases hj : j = i
  · subst hj
    obtain ⟨rfl, hup, hdown⟩ := hstage.of_none hasked
    refine ⟨[], .sent m ?_ ?_ horderly hdown, hanswers⟩
    · simp
    · simp [hup]
  · refine ⟨pending, hstage.same ?_ rfl ?_, hanswers⟩
    · exact Function.update_of_ne hj _ _
    · exact Function.update_of_ne hj _ _

theorem Linked.serve_inv {i : ℕ} {e : E} (hempty : P.readRequest [] = none)
    (hlinked : P.Linked s n events) (hstep : P.step n (.serve i e) = some next) :
    ∃ m, n.asked i = some m ∧ next = { n with
      server := (P.serve n.server e i (P.request m)).1
      up := Function.update n.up i []
      down := Function.update n.down i
        (n.down i ++ (P.serve n.server e i (P.request m)).2.flatMap P.writeReply) } := by
  simp only [step] at hstep
  cases hread : P.readRequest (n.up i) with
  | none => simp [hread] at hstep
  | some found =>
      obtain ⟨q, rest⟩ := found
      simp only [hread, Option.some.injEq] at hstep
      obtain ⟨pending, hstage, _⟩ := hlinked.stages i
      obtain ⟨m, hasked, rfl, rfl, _⟩ := hstage.of_read hempty hread
      exact ⟨m, hasked, hstep.symm⟩

theorem effects_serve {i : ℕ} {m : M} (hasked : n.asked i = some m) (e : E) :
    effects (P.trace n (.serve i e)) = [.call i m e] := by
  simp [trace, hasked]

theorem Linked.sequential_serve {i : ℕ} {m : M} {r : R} (hlinked : P.Linked s n events)
    (hasked : n.asked i = some m) {e : E}
    (hreply : (P.serve n.server e i (P.request m)).2 = [r]) :
    P.sequential s (effects (events ++ P.trace n (.serve i e))) =
      ((P.serve n.server e i (P.request m)).1,
        (P.sequential s (effects events)).2 ++ [⟨i, m, r⟩]) := by
  rw [effects_append, effects_serve hasked, sequential_append, sequential_singleton,
    ← hlinked.server, apply, hreply]
  rfl

theorem linked_serve {i : ℕ} {e : E} (hempty : P.readRequest [] = none)
    (hlinked : P.Linked s n events) (horderly : P.Orderly n (.serve i e))
    (hstep : P.step n (.serve i e) = some next) :
    P.Linked s next (events ++ P.trace n (.serve i e)) := by
  obtain ⟨m, hasked, rfl⟩ := hlinked.serve_inv hempty hstep
  obtain ⟨r, hreply, hback⟩ := horderly m hasked
  have hsequential := hlinked.sequential_serve hasked hreply
  have hreturned : returned (events ++ P.trace n (.serve i e)) = returned events := by
    simp [trace, hasked]
  refine ⟨by rw [hsequential], ?_⟩
  intro j
  rw [hsequential, hreturned, ofClient_append]
  obtain ⟨pending, hstage, hanswers⟩ := hlinked.stages j
  by_cases hj : j = i
  · subst hj
    have hunread : pending = [] ∧ n.down j = [] := by
      cases hstage with
      | idle hnone => simp [hnone] at hasked
      | sent m' _ _ _ hdown => exact ⟨rfl, hdown⟩
      | answered m' r' _ hup => simp [step, hup, hempty] at hstep
    refine ⟨[⟨j, m, r⟩], .answered m r hasked (by simp) ?_ hback, ?_⟩
    · simp [hunread.2, hreply]
    · rw [hanswers, hunread.1, ofClient_singleton, if_pos rfl, List.append_nil]
  · refine ⟨pending, hstage.same ?_ ?_ rfl, ?_⟩
    · exact Function.update_of_ne hj _ _
    · exact Function.update_of_ne hj _ _
    · rw [ofClient_singleton, if_neg (Ne.symm hj), List.append_nil, hanswers]

theorem linked_ret {i : ℕ} (hempty : P.readReply [] = none) (hlinked : P.Linked s n events)
    (hstep : P.step n (.ret i) = some next) :
    P.Linked s next (events ++ P.trace n (.ret i)) := by
  obtain ⟨m, r, rest, hasked, hread, rfl⟩ := step_ret hstep
  obtain ⟨pending, hstage, hanswers⟩ := hlinked.stages i
  obtain ⟨rfl, rfl, hup⟩ := hstage.of_reply hempty hasked hread
  have htrace : P.trace n (.ret i) = [.returned ⟨i, m, r⟩] := by
    simp [trace, hasked, hread]
  have heffects : effects (events ++ P.trace n (.ret i)) = effects events := by
    simp [htrace]
  have hreturned : returned (events ++ P.trace n (.ret i)) =
      returned events ++ [⟨i, m, r⟩] := by
    simp [htrace]
  refine ⟨by rw [heffects]; exact hlinked.server, ?_⟩
  intro j
  rw [heffects, hreturned, ofClient_append, ofClient_singleton]
  by_cases hj : j = i
  · subst hj
    refine ⟨[], .idle (by simp) hup (by simp), ?_⟩
    rw [hanswers, if_pos rfl, List.append_nil]
  · obtain ⟨others, hother, hothers⟩ := hlinked.stages j
    refine ⟨others, hother.same rfl ?_ ?_, ?_⟩
    · exact Function.update_of_ne hj _ _
    · exact Function.update_of_ne hj _ _
    · rw [if_neg (Ne.symm hj), List.append_nil, hothers]

theorem sequential_background (s : σ) (events : List (Trace σ E M R)) (f : σ → σ) :
    P.sequential s (effects (events ++ [.effect (.background f)])) =
      (f (P.sequential s (effects events)).1, (P.sequential s (effects events)).2) := by
  rw [effects_append, effects_effect, sequential_append, sequential_singleton, apply,
    List.append_nil]

theorem linked_background {f : σ → σ} (hlinked : P.Linked s n events)
    (hstep : P.step n (.background f) = some next) :
    P.Linked s next (events ++ P.trace n (.background f)) := by
  have hnext := (Option.some.inj hstep).symm
  subst hnext
  rw [trace]
  refine ⟨by rw [sequential_background, hlinked.server], ?_⟩
  intro j
  obtain ⟨pending, hstage, hanswers⟩ := hlinked.stages j
  refine ⟨pending, hstage.same rfl rfl rfl, ?_⟩
  rw [sequential_background, hanswers]
  simp

theorem linked_step (hrequest : P.readRequest [] = none) (hreply : P.readReply [] = none)
    {move : Move σ E M} (hlinked : P.Linked s n events) (horderly : P.Orderly n move)
    (hstep : P.step n move = some next) : P.Linked s next (events ++ P.trace n move) := by
  cases move with
  | call i m => exact linked_call hlinked horderly hstep
  | serve i e => exact linked_serve hrequest hlinked horderly hstep
  | ret i => exact linked_ret hreply hlinked hstep
  | background f => exact linked_background hlinked hstep

theorem linked_run (hrequest : P.readRequest [] = none) (hreply : P.readReply [] = none)
    {s : σ} {final : Net σ M β} {moves : List (Move σ E M)}
    (horderly : Along P.step P.Orderly (.quiet s) moves)
    (hrun : run P.step (.quiet s) moves = some final) :
    P.Linked s final (observe P.step P.trace (.quiet s) moves) :=
  run_invariant_observe P.step P.trace (I := P.Linked s)
    (fun _ _ _ _ hlinked horderly hstep => linked_step hrequest hreply hlinked horderly hstep)
    (linked_quiet s) horderly hrun

theorem Linked.server_step (hrequest : P.readRequest [] = none) {move : Move σ E M}
    (hlinked : P.Linked s n events) (hstep : P.step n move = some next) :
    next.server = n.server ∨
      (∃ i e m, move = .serve i e ∧ n.asked i = some m ∧
        next.server = (P.serve n.server e i (P.request m)).1) ∨
      ∃ f, move = .background f ∧ next.server = f n.server := by
  cases move with
  | call i m =>
      left
      rw [(step_call hstep).2]
  | serve i e =>
      obtain ⟨m, hasked, hnext⟩ := hlinked.serve_inv hrequest hstep
      right
      left
      refine ⟨i, e, m, rfl, hasked, ?_⟩
      rw [hnext]
  | ret i =>
      obtain ⟨_, _, _, _, _, hnext⟩ := step_ret hstep
      left
      rw [hnext]
  | background f =>
      right
      right
      refine ⟨f, rfl, ?_⟩
      rw [← Option.some.inj hstep]

theorem asked_step {move : Move σ E M} {i : ℕ} {m : M} (hstep : P.step n move = some next)
    (hasked : next.asked i = some m) : n.asked i = some m ∨ move = .call i m := by
  cases move with
  | call j other =>
      rw [(step_call hstep).2] at hasked
      by_cases hi : i = j
      · subst hi
        simp only [Function.update_self, Option.some.injEq] at hasked
        exact Or.inr (by rw [hasked])
      · simp only [Function.update_of_ne hi] at hasked
        exact Or.inl hasked
  | serve j e =>
      simp only [step] at hstep
      split at hstep
      · cases hstep
      · rw [← Option.some.inj hstep] at hasked
        exact Or.inl hasked
  | ret j =>
      obtain ⟨_, _, _, _, _, hnext⟩ := step_ret hstep
      rw [hnext] at hasked
      by_cases hi : i = j
      · subst hi
        simp at hasked
      · simp only [Function.update_of_ne hi] at hasked
        exact Or.inl hasked
  | background f =>
      rw [← Option.some.inj hstep] at hasked
      exact Or.inl hasked

theorem called_of_effect {C : M → Prop} {moves : List (Move σ E M)}
    (hasked : ∀ i m, n.asked i = some m → C m) (hcalls : ∀ i m, .call i m ∈ moves → C m)
    {i : ℕ} {m : M} {e : E} (hmem : .call i m e ∈ effects (observe P.step P.trace n moves)) :
    C m := by
  induction moves generalizing n with
  | nil => cases hmem
  | cons move rest ih =>
      rw [observe, effects_append, List.mem_append] at hmem
      rcases hmem with hmem | hmem
      · cases move with
        | serve j env =>
            cases hwaits : n.asked j with
            | none => simp [trace, hwaits] at hmem
            | some other =>
                rw [effects_serve hwaits, List.mem_singleton, Effect.call.injEq] at hmem
                obtain ⟨rfl, rfl, _⟩ := hmem
                exact hasked i m hwaits
        | ret j =>
            simp only [trace] at hmem
            split at hmem <;> cases hmem
        | call j other => cases hmem
        | background f => simp [trace] at hmem
      · cases hstep : P.step n move with
        | none =>
            rw [hstep] at hmem
            cases hmem
        | some next =>
            rw [hstep] at hmem
            refine ih ?_ (fun j other hother => hcalls j other (List.mem_cons_of_mem _ hother)) hmem
            intro j other hother
            rcases asked_step hstep hother with hbefore | rfl
            · exact hasked j other hbefore
            · exact hcalls j other List.mem_cons_self

/-- A run is orderly if an invariant of the server makes its replies readable and is
kept by the calls and in the background, under a condition on the moves. -/
theorem along_orderly {I : σ → Prop} {C : Net σ M β → Move σ E M → Prop}
    (hrequest : P.readRequest [] = none) (hreply : P.readReply [] = none)
    (hcall : ∀ n i m, C n (.call i m) →
      P.readRequest (P.writeRequest m) = some (P.request m, []))
    (hserve : ∀ n i e m, I n.server → C n (.serve i e) → n.asked i = some m →
      (∃ r, (P.serve n.server e i (P.request m)).2 = [r] ∧
        P.readReply (P.writeReply r) = some (r, [])) ∧
        I (P.serve n.server e i (P.request m)).1)
    (hbackground : ∀ n f, I n.server → C n (.background f) → I (f n.server))
    {s : σ} (hinit : I s) {moves : List (Move σ E M)}
    (halong : Along P.step C (.quiet s) moves) :
    Along P.step P.Orderly (.quiet s) moves := by
  have horderly : ∀ n move, I n.server → C n move → P.Orderly n move := by
    intro n move hI hC
    cases move with
    | call i m => exact hcall n i m hC
    | serve i e => exact fun m hasked => (hserve n i e m hI hC hasked).1
    | ret i => trivial
    | background f => trivial
  refine Along.of_invariant P.step
    (I := fun n => I n.server ∧ ∃ events, P.Linked s n events) ?_ ?_
    ⟨hinit, [], linked_quiet s⟩ halong
  · rintro n move next ⟨hI, events, hlinked⟩ hC hstep
    refine ⟨?_, _, linked_step hrequest hreply hlinked (horderly n move hI hC) hstep⟩
    obtain hsame | ⟨i, e, m, rfl, hasked, hserver⟩ | ⟨f, rfl, hserver⟩ :=
      hlinked.server_step hrequest hstep
    · rw [hsame]
      exact hI
    · rw [hserver]
      exact (hserve n i e m hI hC hasked).2
    · rw [hserver]
      exact hbackground n f hI hC
  · rintro n move ⟨hI, _⟩ hC
    exact horderly n move hI hC

/-- A client that waits has a request that the server can read, or a reply that it
can read itself. -/
theorem Linked.progress (hlinked : P.Linked s n events) {i : ℕ} {m : M}
    (hasked : n.asked i = some m) :
    (∀ e, (P.step n (.serve i e)).isSome) ∨ (P.step n (.ret i)).isSome := by
  obtain ⟨pending, hstage, _⟩ := hlinked.stages i
  cases hstage with
  | idle hnone => simp [hnone] at hasked
  | sent m' _ hup hread _ =>
      left
      intro e
      simp only [step, hup, hread, Option.isSome_some]
  | answered m' r hm _ hdown hread =>
      right
      simp only [step, hm, hdown, hread, Option.isSome_some]

/-- What a client has read is what the server called directly has answered to it, but
for the reply to a call that has not returned. -/
theorem Linked.answers (hlinked : P.Linked s n events) (i : ℕ) :
    ∃ pending, ofClient i (P.sequential s (effects events)).2 =
        ofClient i (returned events) ++ pending ∧
      pending.length ≤ 1 ∧ (n.asked i = none → pending = []) := by
  obtain ⟨pending, hstage, hanswers⟩ := hlinked.stages i
  refine ⟨pending, hanswers, ?_, fun hnone => (hstage.of_none hnone).1⟩
  cases hstage <;> simp

end Service

end RequestReply
end DistCache
