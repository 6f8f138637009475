import DistCache.Transition

/-!
# A bounded channel that is shut down

Senders put the items of their jobs into a channel with a bounded buffer, and one
receiver handles them.  Before each item a sender looks whether the channel is closed,
and then it waits for a place in the buffer or for the signal that ends all waiting.
Some senders wait in the same way until their items are handled.  After the signal the
receiver empties the buffer and stops.

Until the channel is closed nothing is lost or reordered.  Senders and receiver come to
an end by themselves, and what was in the channel before the receiver stopped is
handled.
-/

namespace DistCache
namespace BoundedChannel

open Transition

variable {ι α : Type*}

/-! ## The steps -/

structure Job (α : Type*) where
  items : List α
  passed : Bool

inductive Receiver where
  | running
  | draining
  | stopped
  deriving DecidableEq

/-- The items carry their senders. -/
structure Channel (ι α : Type*) where
  jobs : ι → Option (Job α)
  buffer : List (ι × α)
  holding : Option (ι × α)
  handled : List (ι × α)
  closed : Bool
  signalled : Bool
  receiver : Receiver

def Channel.open_ : Channel ι α := ⟨fun _ => none, [], none, [], false, false, .running⟩

inductive Move (ι α : Type*) where
  | begin_ (i : ι) (items : List α)
  | check (i : ι)
  | send (i : ι)
  | skip (i : ι)
  | finish (i : ι)
  | take
  | handle
  | drain
  | stop
  | close
  | signal

def Move.Internal : Move ι α → Prop
  | .begin_ _ _ => False
  | .close => False
  | .signal => False
  | _ => True

def Move.begins : Move ι α → Bool
  | .begin_ _ _ => true
  | _ => false

theorem Move.Internal.begins_eq {move : Move ι α} (hinternal : move.Internal) :
    move.begins = false := by
  cases move with
  | begin_ i items => exact absurd hinternal id
  | _ => rfl

namespace Channel

variable [DecidableEq ι]

def setJob (c : Channel ι α) (i : ι) (job : Option (Job α)) : Channel ι α :=
  { c with jobs := Function.update c.jobs i job }

/-- Something of the sender is in the channel and has not been handled. -/
def Pending (c : Channel ι α) (i : ι) : Prop := ∃ x ∈ c.holding.toList ++ c.buffer, x.1 = i

instance (c : Channel ι α) (i : ι) : Decidable (c.Pending i) :=
  inferInstanceAs (Decidable (∃ x ∈ _, _))

/-- At `send` and `skip` the sender waits at the same time for a place and for the
signal; if it could have both, it takes any of them.  So does the receiver at `take`
and `drain`. -/
def step (waits : ι → Bool) (cap : ℕ) (c : Channel ι α) : Move ι α → Option (Channel ι α)
  | .begin_ i items =>
      match c.jobs i with
      | none => some (c.setJob i (some ⟨items, false⟩))
      | some _ => none
  | .check i =>
      match c.jobs i with
      | some ⟨item :: rest, false⟩ =>
          some (c.setJob i (some (if c.closed then ⟨rest, false⟩ else ⟨item :: rest, true⟩)))
      | _ => none
  | .send i =>
      match c.jobs i with
      | some ⟨item :: rest, true⟩ =>
          if c.buffer.length < cap then
            some { c.setJob i (some ⟨rest, false⟩) with buffer := c.buffer ++ [(i, item)] }
          else none
      | _ => none
  | .skip i =>
      match c.jobs i with
      | some ⟨_ :: rest, true⟩ =>
          if c.signalled then some (c.setJob i (some ⟨rest, false⟩)) else none
      | _ => none
  | .finish i =>
      match c.jobs i with
      | some ⟨[], _⟩ =>
          if waits i ∧ c.Pending i ∧ ¬ c.signalled then none else some (c.setJob i none)
      | _ => none
  | .take =>
      match c.holding, c.buffer with
      | none, x :: rest =>
          if c.receiver = .stopped then none
          else some { c with buffer := rest, holding := some x }
      | _, _ => none
  | .handle =>
      match c.holding with
      | some x => some { c with holding := none, handled := c.handled ++ [x] }
      | none => none
  | .drain =>
      if c.receiver = .running ∧ c.signalled ∧ c.holding.isNone then
        some { c with receiver := .draining }
      else none
  | .stop =>
      if c.receiver = .draining ∧ c.holding.isNone ∧ c.buffer.isEmpty then
        some { c with receiver := .stopped }
      else none
  | .close => if c.closed then none else some { c with closed := true }
  | .signal =>
      if c.closed ∧ ¬ c.signalled then some { c with signalled := true } else none

inductive Steps (waits : ι → Bool) (cap : ℕ) (c : Channel ι α) : Move ι α → Channel ι α → Prop where
  | begin_ (i : ι) (items : List α) (hjob : c.jobs i = none) :
      Steps waits cap c (.begin_ i items) (c.setJob i (some ⟨items, false⟩))
  | pass (i : ι) (item : α) (rest : List α) (hjob : c.jobs i = some ⟨item :: rest, false⟩)
      (hopen : c.closed = false) :
      Steps waits cap c (.check i) (c.setJob i (some ⟨item :: rest, true⟩))
  | refuse (i : ι) (item : α) (rest : List α) (hjob : c.jobs i = some ⟨item :: rest, false⟩)
      (hclosed : c.closed = true) :
      Steps waits cap c (.check i) (c.setJob i (some ⟨rest, false⟩))
  | send (i : ι) (item : α) (rest : List α) (hjob : c.jobs i = some ⟨item :: rest, true⟩)
      (hplace : c.buffer.length < cap) :
      Steps waits cap c (.send i)
        { c.setJob i (some ⟨rest, false⟩) with buffer := c.buffer ++ [(i, item)] }
  | skip (i : ι) (item : α) (rest : List α) (hjob : c.jobs i = some ⟨item :: rest, true⟩)
      (hsignalled : c.signalled = true) :
      Steps waits cap c (.skip i) (c.setJob i (some ⟨rest, false⟩))
  | finish (i : ι) (passed : Bool) (hjob : c.jobs i = some ⟨[], passed⟩)
      (hfree : ¬ (waits i ∧ c.Pending i ∧ ¬ c.signalled)) :
      Steps waits cap c (.finish i) (c.setJob i none)
  | take (x : ι × α) (rest : List (ι × α)) (hholding : c.holding = none)
      (hbuffer : c.buffer = x :: rest) (hreceiver : c.receiver ≠ .stopped) :
      Steps waits cap c .take { c with buffer := rest, holding := some x }
  | handle (x : ι × α) (hholding : c.holding = some x) :
      Steps waits cap c .handle { c with holding := none, handled := c.handled ++ [x] }
  | drain (hreceiver : c.receiver = .running) (hsignalled : c.signalled = true)
      (hholding : c.holding = none) :
      Steps waits cap c .drain { c with receiver := .draining }
  | stop (hreceiver : c.receiver = .draining) (hholding : c.holding = none)
      (hbuffer : c.buffer = []) :
      Steps waits cap c .stop { c with receiver := .stopped }
  | close (hopen : c.closed = false) : Steps waits cap c .close { c with closed := true }
  | signal (hclosed : c.closed = true) (hsignalled : c.signalled = false) :
      Steps waits cap c .signal { c with signalled := true }

variable {waits : ι → Bool} {cap : ℕ} {c next : Channel ι α} {move : Move ι α}

theorem steps_of_step (hstep : c.step waits cap move = some next) :
    Steps waits cap c move next := by
  cases move with
  | begin_ i items =>
      simp only [step] at hstep
      cases hjob : c.jobs i with
      | some job => simp [hjob] at hstep
      | none =>
          simp only [hjob, Option.some.injEq] at hstep
          rw [← hstep]
          exact .begin_ i items hjob
  | check i =>
      simp only [step] at hstep
      split at hstep
      · rename_i item rest hjob
        cases hclosed : c.closed with
        | false =>
            simp only [hclosed, Bool.false_eq_true, if_false, Option.some.injEq] at hstep
            rw [← hstep]
            exact .pass i item rest hjob hclosed
        | true =>
            simp only [hclosed, if_true, Option.some.injEq] at hstep
            rw [← hstep]
            exact .refuse i item rest hjob hclosed
      · cases hstep
  | send i =>
      simp only [step] at hstep
      split at hstep
      · rename_i item rest hjob
        split_ifs at hstep with hplace
        rw [← Option.some.inj hstep]
        exact .send i item rest hjob hplace
      · cases hstep
  | skip i =>
      simp only [step] at hstep
      split at hstep
      · rename_i item rest hjob
        split_ifs at hstep with hsignalled
        rw [← Option.some.inj hstep]
        exact .skip i item rest hjob hsignalled
      · cases hstep
  | finish i =>
      simp only [step] at hstep
      split at hstep
      · rename_i passed hjob
        split_ifs at hstep with hwaits
        rw [← Option.some.inj hstep]
        exact .finish i passed hjob hwaits
      · cases hstep
  | take =>
      simp only [step] at hstep
      split at hstep
      · rename_i x rest hholding hbuffer
        split_ifs at hstep with hreceiver
        rw [← Option.some.inj hstep]
        exact .take x rest hholding hbuffer hreceiver
      · cases hstep
  | handle =>
      simp only [step] at hstep
      split at hstep
      · rename_i x hholding
        rw [← Option.some.inj hstep]
        exact .handle x hholding
      · cases hstep
  | drain =>
      simp only [step] at hstep
      split_ifs at hstep with hguard
      rw [← Option.some.inj hstep]
      exact .drain hguard.1 hguard.2.1 (Option.isNone_iff_eq_none.mp hguard.2.2)
  | stop =>
      simp only [step] at hstep
      split_ifs at hstep with hguard
      rw [← Option.some.inj hstep]
      exact .stop hguard.1 (Option.isNone_iff_eq_none.mp hguard.2.1)
        (List.isEmpty_iff.mp hguard.2.2)
  | close =>
      simp only [step] at hstep
      split_ifs at hstep with hclosed
      rw [← Option.some.inj hstep]
      exact .close (Bool.eq_false_of_not_eq_true hclosed)
  | signal =>
      simp only [step] at hstep
      split_ifs at hstep with hguard
      rw [← Option.some.inj hstep]
      exact .signal hguard.1 (Bool.eq_false_of_not_eq_true hguard.2)

/-! ## What is in the channel -/

def sent (c : Channel ι α) : List (ι × α) := c.handled ++ c.holding.toList ++ c.buffer

def ofSender (i : ι) (xs : List (ι × α)) : List α :=
  (xs.filter fun x => x.1 = i).map Prod.snd

def left (c : Channel ι α) (i : ι) : List α := (c.jobs i).elim [] Job.items

def given (i : ι) : Move ι α → List α
  | .begin_ j items => if j = i then items else []
  | _ => []

theorem given_of_not_begins (i : ι) {move : Move ι α} (hmove : move.begins = false) :
    given i move = [] := by
  cases move with
  | begin_ j items => cases hmove
  | _ => rfl

@[simp] theorem ofSender_append (i : ι) (first second : List (ι × α)) :
    ofSender i (first ++ second) = ofSender i first ++ ofSender i second := by
  simp [ofSender]

theorem mem_ofSender {x : ι × α} {xs : List (ι × α)} (hx : x ∈ xs) : x.2 ∈ ofSender x.1 xs := by
  simpa [ofSender] using hx

theorem ofSender_singleton (i : ι) (x : ι × α) :
    ofSender i [x] = if x.1 = i then [x.2] else [] := by
  by_cases hx : x.1 = i <;> simp [ofSender, hx]

theorem left_setJob (i j : ι) (job : Option (Job α)) :
    (c.setJob i job).left j = if j = i then job.elim [] Job.items else c.left j := by
  by_cases hj : j = i
  · subst hj
    simp [left, setJob]
  · simp [left, setJob, hj]

theorem left_setJob_same {i : ι} {job : Option (Job α)}
    (hsame : job.elim [] Job.items = c.left i) (j : ι) : (c.setJob i job).left j = c.left j := by
  rw [left_setJob]
  split_ifs with hj
  · rw [hj, hsame]
  · rfl

@[simp] theorem sent_setJob (i : ι) (job : Option (Job α)) : (c.setJob i job).sent = c.sent := rfl

theorem sent_prefix_step (hstep : c.step waits cap move = some next) : c.sent <+: next.sent := by
  have hsteps := steps_of_step hstep
  cases hsteps with
  | send i item rest hjob hplace =>
      exact ⟨[(i, item)], by simp [sent, setJob]⟩
  | take x rest hholding hbuffer hreceiver => simp [sent, hholding, hbuffer]
  | handle x hholding => simp [sent, hholding]
  | _ => exact List.prefix_rfl

/-- Closing and the signal are not taken back, and come in this order. -/
structure Regular (c : Channel ι α) : Prop where
  ordered : c.signalled = true → c.closed = true
  receiver : c.receiver ≠ .running → c.signalled = true
  stopped : c.receiver = .stopped → c.holding = none

omit [DecidableEq ι] in
theorem regular_open : (Channel.open_ : Channel ι α).Regular :=
  ⟨fun h => h, fun h => absurd rfl h, fun _ => rfl⟩

omit [DecidableEq ι] in
theorem Regular.not_stopped (hregular : c.Regular) (hopen : c.closed = false) :
    c.receiver ≠ .stopped := by
  intro hstopped
  have hclosed : c.closed = true := by
    apply hregular.ordered
    apply hregular.receiver
    rw [hstopped]
    exact Receiver.noConfusion
  rw [hopen] at hclosed
  cases hclosed

theorem Regular.step (hregular : c.Regular) (hstep : c.step waits cap move = some next) :
    next.Regular := by
  have hsteps := steps_of_step hstep
  cases hsteps with
  | take x rest hholding hbuffer hreceiver =>
      exact ⟨hregular.ordered, hregular.receiver, fun hstopped => absurd hstopped hreceiver⟩
  | handle x hholding => exact ⟨hregular.ordered, hregular.receiver, fun _ => rfl⟩
  | drain hreceiver hsignalled hholding =>
      exact ⟨hregular.ordered, fun _ => hsignalled, fun _ => hholding⟩
  | stop hreceiver hholding hbuffer =>
      refine ⟨hregular.ordered, fun _ => hregular.receiver ?_, fun _ => hholding⟩
      rw [hreceiver]
      exact Receiver.noConfusion
  | close hopen => exact ⟨fun _ => rfl, hregular.receiver, hregular.stopped⟩
  | signal hclosed hsignalled => exact ⟨fun _ => hclosed, fun _ => rfl, hregular.stopped⟩
  | _ => exact ⟨hregular.ordered, hregular.receiver, hregular.stopped⟩

theorem closed_of_step (hstep : c.step waits cap move = some next) (hopen : next.closed = false) :
    c.closed = false := by
  have hsteps := steps_of_step hstep
  cases hsteps with
  | close hwas => exact hwas
  | _ => exact hopen

theorem conserved_step (hregular : c.Regular) (hstep : c.step waits cap move = some next)
    (hopen : next.closed = false) (i : ι) :
    ofSender i next.sent ++ next.left i = ofSender i c.sent ++ c.left i ++ given i move := by
  have hwas := closed_of_step hstep hopen
  have hquiet : c.signalled = false := by
    cases hsignalled : c.signalled with
    | false => rfl
    | true => rw [hregular.ordered hsignalled] at hwas; exact hwas
  have hsteps := steps_of_step hstep
  cases hsteps with
  | begin_ j items hjob =>
      rw [sent_setJob, left_setJob, given]
      by_cases hj : j = i
      · subst hj
        rw [if_pos rfl, if_pos rfl]
        simp [left, hjob]
      · rw [if_neg (Ne.symm hj), if_neg hj, List.append_nil]
  | pass j item rest hjob hwasOpen =>
      have hsame : (some ⟨item :: rest, true⟩ : Option (Job α)).elim [] Job.items = c.left j := by
        simp [left, hjob]
      rw [sent_setJob, left_setJob_same hsame]
      exact (List.append_nil _).symm
  | refuse j item rest hjob hclosed => rw [hclosed] at hwas; cases hwas
  | send j item rest hjob hplace =>
      have hsent : ({ c.setJob j (some ⟨rest, false⟩) with
          buffer := c.buffer ++ [(j, item)] } : Channel ι α).sent = c.sent ++ [(j, item)] := by
        simp [sent, setJob]
      have hleft : ({ c.setJob j (some ⟨rest, false⟩) with
          buffer := c.buffer ++ [(j, item)] } : Channel ι α).left i =
            (c.setJob j (some ⟨rest, false⟩)).left i := rfl
      rw [hsent, hleft, left_setJob, ofSender_append, ofSender_singleton]
      by_cases hj : j = i
      · subst hj
        simp [left, hjob, given]
      · simp [left, given, hj, Ne.symm hj]
  | skip j item rest hjob hsignalled => rw [hsignalled] at hquiet; cases hquiet
  | finish j passed hjob hfree =>
      have hsame : (none : Option (Job α)).elim [] Job.items = c.left j := by
        simp [left, hjob]
      rw [sent_setJob, left_setJob_same hsame]
      exact (List.append_nil _).symm
  | take x rest hholding hbuffer hreceiver => simp [sent, left, given, hholding, hbuffer]
  | handle x hholding => simp [sent, left, given, hholding]
  | drain hreceiver hsignalled hholding => simp [sent, left, given]
  | stop hreceiver hholding hbuffer => simp [sent, left, given]
  | close hwasOpen => simp [sent, left, given]
  | signal hclosed hsignalled => simp [sent, left, given]

/-! ## Runs -/

variable {moves : List (Move ι α)} {final : Channel ι α}

theorem Regular.run (hregular : c.Regular)
    (hrun : Transition.run (Channel.step waits cap) c moves = some final) : final.Regular :=
  run_invariant (Channel.step waits cap) (I := Regular) (fun _ _ _ h hstep => h.step hstep)
    hregular hrun

theorem sent_prefix_run (hrun : run (step waits cap) c moves = some final) :
    c.sent <+: final.sent :=
  run_invariant (step waits cap) (I := fun s => c.sent <+: s.sent)
    (fun _ _ _ h hstep => h.trans (sent_prefix_step hstep)) List.prefix_rfl hrun

/-- An item that is new in the channel is handled after all that was there before. -/
theorem sent_prefix_handled (hrun : run (step waits cap) c moves = some final) {x : ι × α}
    (hnew : x ∉ c.sent) (hhandled : x ∈ final.handled) : c.sent <+: final.handled := by
  have hsent := sent_prefix_run hrun
  have hfirst : final.handled <+: final.sent := ⟨final.holding.toList ++ final.buffer, by
    simp [sent]⟩
  rcases le_total c.sent.length final.handled.length with hle | hle
  · exact List.prefix_of_prefix_length_le hsent hfirst hle
  · exact absurd ((List.prefix_of_prefix_length_le hfirst hsent hle).subset hhandled) hnew

/-- What was in the channel is handled before the receiver stops. -/
theorem sent_prefix_handled_of_stopped (hregular : c.Regular) (hreceiver : c.receiver ≠ .stopped)
    (hrun : run (step waits cap) c moves = some final) (hstopped : final.receiver = .stopped) :
    c.sent <+: final.handled := by
  have hinvariant : final.Regular ∧ c.sent <+: final.sent ∧
      (final.receiver = .stopped → c.sent <+: final.handled) := by
    refine run_invariant (step waits cap) (I := fun s : Channel ι α => s.Regular ∧
      c.sent <+: s.sent ∧ (s.receiver = .stopped → c.sent <+: s.handled)) ?_
      ⟨hregular, List.prefix_rfl, fun h => absurd h hreceiver⟩ hrun
    rintro s move next ⟨hs, hsent, hhandled⟩ hstep
    refine ⟨hs.step hstep, hsent.trans (sent_prefix_step hstep), ?_⟩
    have hsteps := steps_of_step hstep
    cases hsteps with
    | handle x hholding =>
        intro hwas
        exact (hhandled hwas).trans (List.prefix_append _ _)
    | drain _ _ _ => exact fun h => Receiver.noConfusion h
    | stop _ hholding hbuffer =>
        intro _
        have hall : s.sent = s.handled := by simp [sent, hholding, hbuffer]
        rw [hall] at hsent
        exact hsent
    | _ => exact hhandled
  exact hinvariant.2.2 hstopped

/-! ## Coming to an end -/

/-- A sender that was late may have left its item to a receiver that has stopped. -/
structure Settled (c : Channel ι α) : Prop where
  jobs : ∀ i, c.jobs i = none
  holding : c.holding = none
  buffer : c.receiver ≠ .stopped → c.buffer = []
  stopped : c.signalled = true → c.receiver = .stopped

omit [DecidableEq ι] in
theorem Settled.handled_eq (hsettled : c.Settled) (hreceiver : c.receiver ≠ .stopped) :
    c.handled = c.sent := by
  simp [sent, hsettled.holding, hsettled.buffer hreceiver]

/-- Nobody waits forever, if the buffer has a place at all. -/
theorem settled_of_stuck (hcap : 0 < cap) (hregular : c.Regular)
    (hstuck : ∀ move : Move ι α, move.Internal → c.step waits cap move = none) : c.Settled := by
  have hholding : c.holding = none := by
    have hhandle := hstuck .handle trivial
    cases hholding : c.holding with
    | none => rfl
    | some x => simp [step, hholding] at hhandle
  have hbuffer : c.receiver ≠ .stopped → c.buffer = [] := by
    intro hreceiver
    have htake := hstuck .take trivial
    cases hbuffer : c.buffer with
    | nil => rfl
    | cons x rest => simp [step, hholding, hbuffer, hreceiver] at htake
  have hsignalled : c.buffer ≠ [] → c.signalled = true := by
    intro hfull
    apply hregular.receiver
    intro hrunning
    exact hfull (hbuffer (by rw [hrunning]; exact Receiver.noConfusion))
  refine ⟨?_, hholding, hbuffer, ?_⟩
  · intro i
    cases hjob : c.jobs i with
    | none => rfl
    | some job =>
        obtain ⟨items, passed⟩ := job
        cases items with
        | nil =>
            -- What a sender waits for is in the buffer, and is taken before the signal.
            have hfinish := hstuck (.finish i) trivial
            simp only [step, hjob, ite_eq_left_iff, reduceCtorEq, imp_false, not_not] at hfinish
            obtain ⟨_, ⟨x, hx, _⟩, hquiet⟩ := hfinish
            rw [hholding] at hx
            exact absurd (hsignalled (List.ne_nil_of_mem hx)) hquiet
        | cons item rest =>
            cases passed with
            | false =>
                have hcheck := hstuck (.check i) trivial
                simp [step, hjob] at hcheck
            | true =>
                -- A full buffer is not taken from only after the signal.
                have hsend := hstuck (.send i) trivial
                have hskip := hstuck (.skip i) trivial
                have hfull : ¬ c.buffer.length < cap := by
                  intro hplace
                  simp [step, hjob, hplace] at hsend
                have hnonempty : c.buffer ≠ [] := by
                  intro hempty
                  rw [hempty] at hfull
                  exact hfull hcap
                simp [step, hjob, hsignalled hnonempty] at hskip
  · intro hsignalled
    cases hreceiver : c.receiver with
    | stopped => rfl
    | running =>
        have hdrain := hstuck .drain trivial
        simp [step, hreceiver, hsignalled, hholding] at hdrain
    | draining =>
        have hstop := hstuck .stop trivial
        have hempty : c.buffer = [] := by
          apply hbuffer
          rw [hreceiver]
          exact Receiver.noConfusion
        simp [step, hreceiver, hholding, hempty] at hstop

section Work

variable [Fintype ι]

def jobWork : Option (Job α) → ℕ
  | none => 0
  | some job => 4 * job.items.length + if job.passed then 1 else 2

def receiverWork : Receiver → ℕ
  | .running => 2
  | .draining => 1
  | .stopped => 0

def work (c : Channel ι α) : ℕ :=
  ∑ i, jobWork (c.jobs i) + 2 * c.buffer.length + c.holding.toList.length +
    receiverWork c.receiver

theorem work_setJob (i : ι) (job : Option (Job α)) :
    (c.setJob i job).work + jobWork (c.jobs i) = c.work + jobWork job := by
  have hupdate : (fun j => jobWork ((c.setJob i job).jobs j)) =
      Function.update (fun j => jobWork (c.jobs j)) i (jobWork job) := by
    funext j
    by_cases hj : j = i
    · subst hj
      simp [setJob]
    · simp [setJob, hj]
  have hsplit := Finset.sum_erase_add Finset.univ (fun j => jobWork (c.jobs j)) (Finset.mem_univ i)
  have hsum : ∑ j, jobWork ((c.setJob i job).jobs j) =
      jobWork job + ∑ j ∈ Finset.univ.erase i, jobWork (c.jobs j) := by
    rw [hupdate, Finset.sum_update_of_mem (Finset.mem_univ i), Finset.erase_eq]
  rw [work, work, hsum]
  simp only [setJob]
  omega

omit [DecidableEq ι] [Fintype ι] in
theorem jobWork_some (items : List α) (passed : Bool) :
    jobWork (some ⟨items, passed⟩) = 4 * items.length + if passed then 1 else 2 := rfl

omit [DecidableEq ι] [Fintype ι] in
theorem jobWork_none : jobWork (none : Option (Job α)) = 0 := rfl

theorem work_lt_of_step (hinternal : move.Internal) (hstep : c.step waits cap move = some next) :
    next.work < c.work := by
  have hsteps := steps_of_step hstep
  cases hsteps with
  | begin_ i items hjob => exact absurd hinternal id
  | close hopen => exact absurd hinternal id
  | signal hclosed hsignalled => exact absurd hinternal id
  | pass i item rest hjob hopen =>
      have hwork := c.work_setJob i (some ⟨item :: rest, true⟩)
      rw [hjob, jobWork_some, jobWork_some, if_pos rfl, if_neg Bool.false_ne_true] at hwork
      omega
  | refuse i item rest hjob hclosed =>
      have hwork := c.work_setJob i (some ⟨rest, false⟩)
      rw [hjob, jobWork_some, jobWork_some, List.length_cons] at hwork
      omega
  | send i item rest hjob hplace =>
      have hwork := c.work_setJob i (some ⟨rest, false⟩)
      rw [hjob, jobWork_some, jobWork_some, List.length_cons, if_pos rfl,
        if_neg Bool.false_ne_true] at hwork
      have hbuffer : ({ c.setJob i (some ⟨rest, false⟩) with
          buffer := c.buffer ++ [(i, item)] } : Channel ι α).work =
            (c.setJob i (some ⟨rest, false⟩)).work + 2 := by
        simp only [work, setJob, List.length_append, List.length_singleton]
        omega
      rw [hbuffer]
      omega
  | skip i item rest hjob hsignalled =>
      have hwork := c.work_setJob i (some ⟨rest, false⟩)
      rw [hjob, jobWork_some, jobWork_some, List.length_cons, if_pos rfl,
        if_neg Bool.false_ne_true] at hwork
      omega
  | finish i passed hjob hfree =>
      have hwork := c.work_setJob i none
      rw [hjob, jobWork_some, jobWork_none, List.length_nil] at hwork
      split_ifs at hwork <;> omega
  | take x rest hholding hbuffer hreceiver =>
      simp only [work, hholding, hbuffer, List.length_cons, Option.toList_none, Option.toList_some,
        List.length_nil]
      omega
  | handle x hholding =>
      simp only [work, hholding, Option.toList_none, Option.toList_some, List.length_nil,
        List.length_singleton]
      omega
  | drain hreceiver hsignalled hholding =>
      simp only [work, hreceiver, receiverWork]
      omega
  | stop hreceiver hholding hbuffer =>
      simp only [work, hreceiver, receiverWork]
      omega

theorem length_le_work (hinternal : ∀ move ∈ moves, move.Internal)
    (hrun : run (step waits cap) c moves = some final) : moves.length + final.work ≤ c.work := by
  induction moves generalizing c with
  | nil =>
      cases hrun
      simp
  | cons move rest ih =>
      obtain ⟨next, hnext, hrest⟩ := (run_cons_eq_some _).mp hrun
      have hlt := work_lt_of_step (hinternal move List.mem_cons_self) hnext
      have hle := ih (fun m hm => hinternal m (List.mem_cons_of_mem _ hm)) hrest
      rw [List.length_cons]
      omega

end Work

end Channel

end BoundedChannel
end DistCache
