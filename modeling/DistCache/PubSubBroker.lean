import DistCache.Transition
import DistCache.EvictionPolicy

/-!
# The publish/subscribe broker

`Publish` copies the subscribers of a topic under the read lock and then sends to them
one by one without it.  `Close` takes the subscription off its topic and closes its
channel.  A send on a closed channel panics, and the panic stops the server.

Subscriptions and calls of `Publish` are identified by the order in which they were
made.  A second call of `Close` does nothing.
-/

namespace DistCache
namespace PubSub

open Transition

structure Message where
  topic : Key
  payload : Bytes
  deriving DecidableEq, Repr

inductive Phase where
  | subscribed
  | removed
  | closed
  deriving DecidableEq, Repr

structure Subscription where
  topic : Key
  buffer : ℕ
  ch : List Message
  dropped : ℕ
  phase : Phase
  deriving DecidableEq, Repr

/-- A call of `Publish`: the targets it has still to send to, and its result. -/
structure Publishing where
  msg : Message
  targets : List ℕ
  count : ℕ
  deriving DecidableEq, Repr

structure Broker where
  topics : AList (fun _ : Key => Finset ℕ)
  subs : List Subscription
  publishing : List Publishing
  panicked : Bool

inductive Action where
  | subscribe (topic : Key) (buffer : ℤ)
  | publish (topic : Key) (payload : Bytes) (targets : List ℕ)
  | send (call : ℕ)
  | receive (sub : ℕ)
  | remove (sub : ℕ)
  | close (sub : ℕ)
  deriving DecidableEq, Repr

/-- The `select` with a default: a full buffer drops the message. -/
def Subscription.offer (s : Subscription) (msg : Message) : Subscription :=
  if s.ch.length < s.buffer then { s with ch := s.ch ++ [msg] }
  else { s with dropped := s.dropped + 1 }

namespace Broker

def new : Broker := ⟨∅, [], [], false⟩

def subscribers (b : Broker) (topic : Key) : Finset ℕ :=
  (b.topics.lookup topic).getD ∅

def subscribe (b : Broker) (topic : Key) (buffer : ℤ) : Broker :=
  { b with
    topics := b.topics.insert topic (insert b.subs.length (b.subscribers topic))
    subs := b.subs ++
      [⟨topic, if buffer ≤ 0 then 16 else buffer.toNat, [], 0, .subscribed⟩] }

/-- The targets are the subscribers in the order of the map, which the language
leaves open. -/
def publish (b : Broker) (topic : Key) (payload : Bytes) (targets : List ℕ) :
    Option Broker :=
  if targets.Nodup ∧ targets.toFinset = b.subscribers topic then
    some { b with
      publishing := b.publishing ++ [⟨⟨topic, payload⟩, targets, targets.length⟩] }
  else none

def setSub (b : Broker) (id : ℕ) (sub : Subscription) : Broker :=
  { b with subs := b.subs.set id sub }

def send (b : Broker) (call : ℕ) : Option Broker :=
  match b.publishing[call]? with
  | none => none
  | some pub =>
      match pub.targets with
      | [] => none
      | id :: rest =>
          match b.subs[id]? with
          | none => none
          | some sub =>
              if sub.phase = .closed then some { b with panicked := true }
              else
                some { b.setSub id (sub.offer pub.msg) with
                  publishing := b.publishing.set call { pub with targets := rest } }

def receive (b : Broker) (id : ℕ) : Option Broker :=
  match b.subs[id]? with
  | none => none
  | some sub =>
      match sub.ch with
      | [] => none
      | _ :: rest => some (b.setSub id { sub with ch := rest })

def withoutSub (b : Broker) (topic : Key) (id : ℕ) : AList (fun _ : Key => Finset ℕ) :=
  match b.topics.lookup topic with
  | none => b.topics
  | some subs =>
      if subs.erase id = ∅ then b.topics.erase topic
      else b.topics.insert topic (subs.erase id)

def remove (b : Broker) (id : ℕ) : Option Broker :=
  match b.subs[id]? with
  | none => none
  | some sub =>
      if sub.phase = .subscribed then
        some { b.setSub id { sub with phase := .removed } with
          topics := b.withoutSub sub.topic id }
      else none

def close (b : Broker) (id : ℕ) : Option Broker :=
  match b.subs[id]? with
  | none => none
  | some sub =>
      if sub.phase = .removed then some (b.setSub id { sub with phase := .closed })
      else none

def step (b : Broker) (a : Action) : Option Broker :=
  if b.panicked then none
  else
    match a with
    | .subscribe topic buffer => some (b.subscribe topic buffer)
    | .publish topic payload targets => b.publish topic payload targets
    | .send call => b.send call
    | .receive id => b.receive id
    | .remove id => b.remove id
    | .close id => b.close id

/-- A channel is closed only when no call of `Publish` has still to send to
it. -/
def ClosesSettled (b : Broker) : Action → Prop
  | .close id => ∀ pub ∈ b.publishing, id ∉ pub.targets
  | _ => True

def Returned (b : Broker) : Prop := ∀ pub ∈ b.publishing, pub.targets = []

/-! ## What the steps do -/

section Inversion

variable {b next : Broker}

theorem publish_eq_some {topic : Key} {payload : Bytes} {targets : List ℕ}
    (hstep : b.publish topic payload targets = some next) :
    targets.Nodup ∧ targets.toFinset = b.subscribers topic ∧
      next = { b with
        publishing := b.publishing ++ [⟨⟨topic, payload⟩, targets, targets.length⟩] } := by
  unfold publish at hstep
  split_ifs at hstep with horder
  exact ⟨horder.1, horder.2, (Option.some.inj hstep).symm⟩

theorem send_eq_some {call : ℕ} (hstep : b.send call = some next) :
    ∃ pub id rest sub, b.publishing[call]? = some pub ∧ pub.targets = id :: rest ∧
      b.subs[id]? = some sub ∧
      (sub.phase = .closed ∧ next = { b with panicked := true } ∨
        sub.phase ≠ .closed ∧ next = { b.setSub id (sub.offer pub.msg) with
          publishing := b.publishing.set call { pub with targets := rest } }) := by
  unfold send at hstep
  cases hpub : b.publishing[call]? with
  | none => simp [hpub] at hstep
  | some pub =>
      cases htargets : pub.targets with
      | nil => simp [hpub, htargets] at hstep
      | cons id rest =>
          cases hsub : b.subs[id]? with
          | none => simp [hpub, htargets, hsub] at hstep
          | some sub =>
              simp only [hpub, htargets, hsub] at hstep
              refine ⟨pub, id, rest, sub, rfl, htargets, hsub, ?_⟩
              split_ifs at hstep with hphase
              · exact Or.inl ⟨hphase, (Option.some.inj hstep).symm⟩
              · exact Or.inr ⟨hphase, (Option.some.inj hstep).symm⟩

theorem receive_eq_some {id : ℕ} (hstep : b.receive id = some next) :
    ∃ sub msg rest, b.subs[id]? = some sub ∧ sub.ch = msg :: rest ∧
      next = b.setSub id { sub with ch := rest } := by
  unfold receive at hstep
  cases hsub : b.subs[id]? with
  | none => simp [hsub] at hstep
  | some sub =>
      cases hch : sub.ch with
      | nil => simp [hsub, hch] at hstep
      | cons msg rest =>
          simp only [hsub, hch, Option.some.injEq] at hstep
          exact ⟨sub, msg, rest, rfl, hch, hstep.symm⟩

theorem remove_eq_some {id : ℕ} (hstep : b.remove id = some next) :
    ∃ sub, b.subs[id]? = some sub ∧ sub.phase = .subscribed ∧
      next = { b.setSub id { sub with phase := .removed } with
        topics := b.withoutSub sub.topic id } := by
  unfold remove at hstep
  cases hsub : b.subs[id]? with
  | none => simp [hsub] at hstep
  | some sub =>
      simp only [hsub] at hstep
      split_ifs at hstep with hphase
      exact ⟨sub, rfl, hphase, (Option.some.inj hstep).symm⟩

theorem close_eq_some {id : ℕ} (hstep : b.close id = some next) :
    ∃ sub, b.subs[id]? = some sub ∧ sub.phase = .removed ∧
      next = b.setSub id { sub with phase := .closed } := by
  unfold close at hstep
  cases hsub : b.subs[id]? with
  | none => simp [hsub] at hstep
  | some sub =>
      simp only [hsub] at hstep
      split_ifs at hstep with hphase
      exact ⟨sub, rfl, hphase, (Option.some.inj hstep).symm⟩

end Inversion

/-! ## The phase of a subscription -/

def phase (b : Broker) (id : ℕ) : Option Phase := b.subs[id]?.map Subscription.phase

def topic (b : Broker) (id : ℕ) : Option Key := b.subs[id]?.map Subscription.topic

@[simp] theorem offer_phase (s : Subscription) (msg : Message) :
    (s.offer msg).phase = s.phase := by
  unfold Subscription.offer
  split_ifs <;> rfl

@[simp] theorem offer_topic (s : Subscription) (msg : Message) :
    (s.offer msg).topic = s.topic := by
  unfold Subscription.offer
  split_ifs <;> rfl

theorem phase_setSub {b : Broker} {id : ℕ} {old : Subscription}
    (hold : b.subs[id]? = some old) (sub : Subscription) (other : ℕ) :
    (b.setSub id sub).phase other =
      if other = id then some sub.phase else b.phase other := by
  have hlt := (List.getElem?_eq_some_iff.mp hold).1
  unfold phase setSub
  by_cases heq : other = id
  · subst heq
    simp [hlt]
  · simp [heq, List.getElem?_set_ne (Ne.symm heq)]

theorem topic_setSub {b : Broker} {id : ℕ} {old sub : Subscription}
    (hold : b.subs[id]? = some old) (htopic : sub.topic = old.topic) (other : ℕ) :
    (b.setSub id sub).topic other = b.topic other := by
  have hlt := (List.getElem?_eq_some_iff.mp hold).1
  unfold topic setSub
  by_cases heq : other = id
  · subst heq
    rw [List.getElem?_set_self hlt, hold]
    simp [htopic]
  · rw [List.getElem?_set_ne (Ne.symm heq)]

theorem phase_setSub_of_eq {b : Broker} {id : ℕ} {old sub : Subscription}
    (hold : b.subs[id]? = some old) (hphase : sub.phase = old.phase) (other : ℕ) :
    (b.setSub id sub).phase other = b.phase other := by
  rw [phase_setSub hold]
  split_ifs with heq
  · subst heq
    simp [phase, hold, hphase]
  · rfl

theorem mem_withoutSub {b : Broker} {topic other : Key} {id sub : ℕ}
    (hmem : sub ∈ ((b.withoutSub topic id).lookup other).getD ∅) :
    sub ∈ b.subscribers other ∧ (other = topic → sub ≠ id) := by
  unfold withoutSub at hmem
  cases hlookup : b.topics.lookup topic with
  | none =>
      simp only [hlookup] at hmem
      refine ⟨hmem, fun heq => ?_⟩
      subst heq
      simp [hlookup] at hmem
  | some subs =>
      simp only [hlookup] at hmem
      by_cases hother : other = topic
      · subst hother
        split_ifs at hmem with hempty
        · simp at hmem
        · rw [AList.lookup_insert, Option.getD_some, Finset.mem_erase] at hmem
          refine ⟨?_, fun _ => hmem.1⟩
          rw [subscribers, hlookup]
          exact hmem.2
      · refine ⟨?_, fun heq => absurd heq hother⟩
        split_ifs at hmem with hempty
        · rwa [AList.lookup_erase_ne hother] at hmem
        · rwa [AList.lookup_insert_ne hother] at hmem

/-! ## Runs that close channels late enough -/

/-- Every subscriber of a topic is open, and so is every channel that a call of
`Publish` has still to send to. -/
structure Sound (b : Broker) : Prop where
  registered : ∀ topic, ∀ id ∈ b.subscribers topic,
    b.topic id = some topic ∧ b.phase id = some .subscribed
  pending : ∀ pub ∈ b.publishing, ∀ id ∈ pub.targets,
    b.phase id = some .subscribed ∨ b.phase id = some .removed
  quiet : b.panicked = false

theorem sound_new : Sound new := by
  refine ⟨?_, ?_, rfl⟩
  · intro topic id hmem
    simp [new, subscribers] at hmem
  · intro pub hmem
    simp [new] at hmem

theorem phase_lt {b : Broker} {id : ℕ} {p : Phase} (hphase : b.phase id = some p) :
    id < b.subs.length := by
  obtain ⟨sub, hsub, _⟩ := Option.map_eq_some_iff.mp hphase
  exact (List.getElem?_eq_some_iff.mp hsub).1

theorem subs_subscribe_of_lt (b : Broker) (topic : Key) (buffer : ℤ) {id : ℕ}
    (hid : id < b.subs.length) :
    (b.subscribe topic buffer).subs[id]? = b.subs[id]? :=
  List.getElem?_append_left hid

variable {b next : Broker}

theorem mem_subscribers_subscribe (topic other : Key) (buffer : ℤ) (id : ℕ) :
    id ∈ (b.subscribe topic buffer).subscribers other ↔
      id ∈ b.subscribers other ∨ other = topic ∧ id = b.subs.length := by
  by_cases hother : other = topic
  · subst hother
    simp only [subscribers, subscribe, AList.lookup_insert, Option.getD_some,
      Finset.mem_insert, true_and]
    exact or_comm
  · simp [subscribers, subscribe, AList.lookup_insert_ne hother, hother]

theorem Sound.subscribe (hsound : b.Sound) (topic : Key) (buffer : ℤ) :
    (b.subscribe topic buffer).Sound := by
  have hold : ∀ {id p}, b.phase id = some p →
      (b.subscribe topic buffer).phase id = some p := by
    intro id p hphase
    simpa [phase, subs_subscribe_of_lt b topic buffer (phase_lt hphase)] using hphase
  refine ⟨?_, ?_, hsound.quiet⟩
  · intro other id hmem
    rcases (mem_subscribers_subscribe topic other buffer id).mp hmem with hmem | ⟨rfl, rfl⟩
    · obtain ⟨htopic, hphase⟩ := hsound.registered other id hmem
      refine ⟨?_, hold hphase⟩
      simpa [Broker.topic, subs_subscribe_of_lt b topic buffer (phase_lt hphase)]
        using htopic
    · simp [Broker.topic, phase, Broker.subscribe]
  · intro pub hpub id hid
    exact (hsound.pending pub hpub id hid).imp hold hold

theorem Sound.publish {topic : Key} {payload : Bytes} {targets : List ℕ}
    (hsound : b.Sound) (hstep : b.publish topic payload targets = some next) :
    next.Sound := by
  obtain ⟨_, horder, rfl⟩ := publish_eq_some hstep
  refine ⟨hsound.registered, ?_, hsound.quiet⟩
  intro pub hpub id hid
  rcases List.mem_append.mp hpub with hpub | hpub
  · exact hsound.pending pub hpub id hid
  · rw [List.mem_singleton] at hpub
    subst hpub
    have hmem : id ∈ b.subscribers topic := by
      rw [← horder, List.mem_toFinset]
      exact hid
    exact Or.inl (hsound.registered topic id hmem).2

theorem Sound.setSub {id : ℕ} {old sub : Subscription} {publishing : List Publishing}
    (hsound : b.Sound) (hold : b.subs[id]? = some old)
    (hphase : sub.phase = old.phase) (htopic : sub.topic = old.topic)
    (htargets : ∀ pub ∈ publishing, ∀ target ∈ pub.targets,
      ∃ before ∈ b.publishing, target ∈ before.targets) :
    ({ b.setSub id sub with publishing := publishing } : Broker).Sound := by
  refine ⟨?_, ?_, hsound.quiet⟩
  · intro topic other hmem
    have hbefore := hsound.registered topic other hmem
    have hsame := topic_setSub hold htopic other
    have hsame' := phase_setSub_of_eq hold hphase other
    exact ⟨hsame.trans hbefore.1, hsame'.trans hbefore.2⟩
  · intro pub hpub target htarget
    obtain ⟨before, hbefore, hmem⟩ := htargets pub hpub target htarget
    have hsame := phase_setSub_of_eq hold hphase target
    exact (hsound.pending before hbefore target hmem).imp hsame.trans hsame.trans

theorem Sound.send {call : ℕ} (hsound : b.Sound) (hstep : b.send call = some next) :
    next.Sound := by
  obtain ⟨pub, id, rest, sub, hpub, htargets, hsub, ⟨hclosed, _⟩ | ⟨_, rfl⟩⟩ :=
    send_eq_some hstep
  · have hopen := hsound.pending pub (List.mem_of_getElem? hpub) id (by simp [htargets])
    simp [phase, hsub, hclosed] at hopen
  · apply hsound.setSub hsub (offer_phase sub pub.msg) (offer_topic sub pub.msg)
    intro other hother target htarget
    rcases List.mem_or_eq_of_mem_set hother with hother | rfl
    · exact ⟨other, hother, htarget⟩
    · refine ⟨pub, List.mem_of_getElem? hpub, ?_⟩
      rw [htargets]
      exact List.mem_cons_of_mem id htarget

theorem Sound.receive {id : ℕ} (hsound : b.Sound)
    (hstep : b.receive id = some next) : next.Sound := by
  obtain ⟨sub, msg, rest, hsub, _, rfl⟩ := receive_eq_some hstep
  exact hsound.setSub hsub rfl rfl fun pub hpub target htarget => ⟨pub, hpub, htarget⟩

theorem Sound.remove {id : ℕ} (hsound : b.Sound)
    (hstep : b.remove id = some next) : next.Sound := by
  obtain ⟨sub, hsub, hphase, rfl⟩ := remove_eq_some hstep
  have hnew := phase_setSub hsub { sub with phase := .removed }
  have hkeep : ∀ other, (b.setSub id { sub with phase := .removed }).topic other =
      b.topic other := topic_setSub hsub rfl
  refine ⟨?_, ?_, hsound.quiet⟩
  · intro topic other hmem
    obtain ⟨hbefore, hne⟩ := mem_withoutSub hmem
    obtain ⟨htopic, hactive⟩ := hsound.registered topic other hbefore
    have hother : other ≠ id := by
      rintro rfl
      have howner : sub.topic = topic := by simpa [Broker.topic, hsub] using htopic
      exact hne howner.symm rfl
    refine ⟨(hkeep other).trans htopic, (hnew other).trans ?_⟩
    rw [if_neg hother]
    exact hactive
  · intro pub hpub target htarget
    have hbefore := hsound.pending pub hpub target htarget
    have hphase := hnew target
    by_cases heq : target = id
    · rw [if_pos heq] at hphase
      exact Or.inr hphase
    · rw [if_neg heq] at hphase
      exact hbefore.imp hphase.trans hphase.trans

theorem Sound.close {id : ℕ} (hsound : b.Sound)
    (hsettled : ∀ pub ∈ b.publishing, id ∉ pub.targets)
    (hstep : b.close id = some next) : next.Sound := by
  obtain ⟨sub, hsub, hphase, rfl⟩ := close_eq_some hstep
  have hnew := phase_setSub hsub { sub with phase := .closed }
  have hkeep : ∀ other, (b.setSub id { sub with phase := .closed }).topic other =
      b.topic other := topic_setSub hsub rfl
  refine ⟨?_, ?_, hsound.quiet⟩
  · intro topic other hmem
    obtain ⟨htopic, hactive⟩ := hsound.registered topic other hmem
    have hother : other ≠ id := by
      rintro rfl
      simp [phase, hsub, hphase] at hactive
    refine ⟨(hkeep other).trans htopic, (hnew other).trans ?_⟩
    rw [if_neg hother]
    exact hactive
  · intro pub hpub target htarget
    have hother : target ≠ id := by
      rintro rfl
      exact hsettled pub hpub htarget
    have hphase := hnew target
    rw [if_neg hother] at hphase
    exact (hsound.pending pub hpub target htarget).imp hphase.trans hphase.trans

theorem sound_step {a : Action} (hsound : b.Sound) (hsettled : b.ClosesSettled a)
    (hstep : b.step a = some next) : next.Sound := by
  simp only [step, hsound.quiet, Bool.false_eq_true, if_false] at hstep
  cases a with
  | subscribe topic buffer =>
      cases hstep
      exact hsound.subscribe topic buffer
  | publish topic payload targets => exact hsound.publish hstep
  | send call => exact hsound.send hstep
  | receive id => exact hsound.receive hstep
  | remove id => exact hsound.remove hstep
  | close id => exact hsound.close hsettled hstep

/-! ## A channel closed too early -/

/-- A call of `Publish` has still to send to a closed channel, or has done so. -/
def Doomed (b : Broker) : Prop :=
  b.panicked = true ∨
    ∃ pub ∈ b.publishing, ∃ id ∈ pub.targets, b.phase id = some .closed

theorem Doomed.setSub {id : ℕ} {old sub : Subscription}
    (hdoomed : ∃ pub ∈ b.publishing, ∃ id ∈ pub.targets, b.phase id = some .closed)
    (hold : b.subs[id]? = some old)
    (hphase : old.phase = .closed → sub.phase = .closed) :
    ∃ pub ∈ b.publishing, ∃ target ∈ pub.targets,
      (b.setSub id sub).phase target = some .closed := by
  obtain ⟨pub, hpub, target, htarget, hclosed⟩ := hdoomed
  refine ⟨pub, hpub, target, htarget, ?_⟩
  rw [phase_setSub hold]
  split_ifs with heq
  · subst heq
    have holdClosed : old.phase = .closed := by simpa [phase, hold] using hclosed
    rw [hphase holdClosed]
  · exact hclosed

theorem mem_set_of_ne {calls : List Publishing} {call : ℕ} {pub new other : Publishing}
    (hother : other ∈ calls) (hpub : calls[call]? = some pub) (hne : other ≠ pub) :
    other ∈ calls.set call new := by
  obtain ⟨i, hi⟩ := List.mem_iff_getElem?.mp hother
  have hcall : call ≠ i := by
    rintro rfl
    exact hne (Option.some.inj (hi.symm.trans hpub))
  apply List.mem_of_getElem? (i := i)
  rw [List.getElem?_set_ne hcall]
  exact hi

theorem Doomed.send {call : ℕ}
    (hdoomed : ∃ pub ∈ b.publishing, ∃ id ∈ pub.targets, b.phase id = some .closed)
    (hstep : b.send call = some next) : next.Doomed := by
  obtain ⟨pub, id, rest, sub, hpub, htargets, hsub, ⟨_, rfl⟩ | ⟨hphase, rfl⟩⟩ :=
    send_eq_some hstep
  · exact Or.inl rfl
  · obtain ⟨other, hother, target, htarget, hclosed⟩ := hdoomed
    right
    have hstill := (phase_setSub_of_eq hsub (offer_phase sub pub.msg) target).trans hclosed
    by_cases hsame : other = pub
    · subst hsame
      have hrest : target ∈ rest := by
        rw [htargets, List.mem_cons] at htarget
        refine htarget.resolve_left ?_
        rintro rfl
        simp [phase, hsub, hphase] at hclosed
      have hlt := (List.getElem?_eq_some_iff.mp hpub).1
      refine ⟨{ other with targets := rest }, ?_, target, hrest, hstill⟩
      exact List.mem_set hlt _
    · exact ⟨other, mem_set_of_ne hother hpub hsame, target, htarget, hstill⟩

theorem doomed_step {a : Action} (hdoomed : b.Doomed) (hstep : b.step a = some next) :
    next.Doomed := by
  unfold step at hstep
  split_ifs at hstep with hpanicked
  have hpending := hdoomed.resolve_left (by simpa using hpanicked)
  cases a with
  | subscribe topic buffer =>
      cases hstep
      obtain ⟨pub, hpub, id, hid, hclosed⟩ := hpending
      refine Or.inr ⟨pub, hpub, id, hid, ?_⟩
      simpa [phase, subs_subscribe_of_lt b topic buffer (phase_lt hclosed)] using hclosed
  | publish topic payload targets =>
      obtain ⟨_, _, rfl⟩ := publish_eq_some hstep
      obtain ⟨pub, hpub, hrest⟩ := hpending
      exact Or.inr ⟨pub, List.mem_append_left _ hpub, hrest⟩
  | send call => exact Doomed.send hpending hstep
  | receive id =>
      obtain ⟨sub, msg, rest, hsub, _, rfl⟩ := receive_eq_some hstep
      exact Or.inr (Doomed.setSub hpending hsub fun hclosed => hclosed)
  | remove id =>
      obtain ⟨sub, hsub, hphase, rfl⟩ := remove_eq_some hstep
      exact Or.inr (Doomed.setSub hpending hsub fun hclosed => by simp [hphase] at hclosed)
  | close id =>
      obtain ⟨sub, hsub, _, rfl⟩ := close_eq_some hstep
      exact Or.inr (Doomed.setSub hpending hsub fun _ => rfl)

theorem doomed_close {id : ℕ} (hpending : ∃ pub ∈ b.publishing, id ∈ pub.targets)
    (hstep : b.step (.close id) = some next) : next.Doomed := by
  obtain ⟨pub, hpub, htarget⟩ := hpending
  unfold step at hstep
  split_ifs at hstep
  obtain ⟨sub, hsub, _, rfl⟩ := close_eq_some hstep
  refine Or.inr ⟨pub, hpub, id, htarget, ?_⟩
  have hphase := phase_setSub hsub { sub with phase := .closed } id
  rwa [if_pos rfl] at hphase

/-- A run in which every channel is closed after the calls of `Publish` that
hold it have sent to it never panics, and a run in which every call has
returned without a panic is of that kind. -/
theorem panicked_iff_closesSettled {actions : List Action} {final : Broker}
    (hrun : run step new actions = some final) :
    (Along step ClosesSettled new actions → final.panicked = false) ∧
      (final.Returned → final.panicked = false →
        Along step ClosesSettled new actions) := by
  constructor
  · intro halong
    have hsound : final.Sound :=
      run_invariant_along step (fun _ _ _ hs hp hstep => sound_step hs hp hstep)
        sound_new halong hrun
    exact hsound.quiet
  · intro hreturned hquiet
    rw [along_iff_forall_split]
    intro before a after hsplit middle hbefore
    rw [hsplit, run_append_eq_some] at hrun
    obtain ⟨reached, hreached, hafter⟩ := hrun
    have hsame : reached = middle := Option.some.inj (hreached.symm.trans hbefore)
    subst hsame
    obtain ⟨next, hstep, hrest⟩ := (run_cons_eq_some step).mp hafter
    cases a with
    | close id =>
        by_contra hunsettled
        simp only [ClosesSettled, not_forall, not_not] at hunsettled
        obtain ⟨pub, hpub, htarget⟩ := hunsettled
        have hdoomed : final.Doomed :=
          run_invariant step (fun _ _ _ hd hs => doomed_step hd hs)
            (doomed_close ⟨pub, hpub, htarget⟩ hstep) hrest
        rcases hdoomed with hpanicked | ⟨late, hlate, target, hmem, _⟩
        · rw [hquiet] at hpanicked
          contradiction
        · rw [hreturned late hlate] at hmem
          contradiction
    | _ => trivial

def unsubscribeDuringPublish : List Action :=
  [.subscribe [116] 0, .publish [116] [109] [0], .remove 0, .close 0, .send 0]

theorem send_on_closed_panics :
    ∃ final, run step new unsubscribeDuringPublish = some final ∧
      final.panicked = true :=
  ⟨_, rfl, rfl⟩

def unsubscribeAfterSend : List Action :=
  [.subscribe [116] 0, .publish [116] [109] [0], .remove 0, .send 0, .close 0]

theorem unsubscribeAfterSend_quiet :
    ∃ final, run step new unsubscribeAfterSend = some final ∧
      Along step ClosesSettled new unsubscribeAfterSend ∧ final.panicked = false := by
  have halong : Along step ClosesSettled new unsubscribeAfterSend := by
    refine ⟨trivial, ?_⟩
    intro subscribed hsubscribe
    cases hsubscribe
    refine ⟨trivial, ?_⟩
    intro copied hpublish
    cases hpublish
    refine ⟨trivial, ?_⟩
    intro removed hremove
    cases hremove
    refine ⟨trivial, ?_⟩
    intro sent hsend
    cases hsend
    have hsettled : ∀ pub ∈ [Publishing.mk ⟨[116], [109]⟩ [] 1], 0 ∉ pub.targets := by
      decide
    exact ⟨hsettled, fun _ _ => trivial⟩
  exact ⟨_, rfl, halong, (panicked_iff_closesSettled rfl).1 halong⟩

end Broker
end PubSub
end DistCache
