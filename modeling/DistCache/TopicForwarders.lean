import DistCache.SubscribeHandshake
import DistCache.MessageAccounting

/-!
# The topics of a connection and their forwarders

`SUBSCRIBE` makes a subscription, starts its forwarder and confirms; `UNSUBSCRIBE`
closes the subscription and confirms.  The forwarder goes on until the closed channel is
empty, and a topic that is subscribed again gets a second one.

The model keeps all that the connection ever subscribed to.  A subscription that has not
been closed is the current one of its topic.
-/

namespace DistCache

/-! ## The broker and one of its subscriptions -/

namespace PubSub.Broker

variable {b next : Broker} {id : ℕ}

def Bounded (b : Broker) : Prop :=
  ∀ id sub, b.box id = some sub → sub.ch.length ≤ sub.buffer

def queue (b : Broker) (id : ℕ) : List Message := ((b.box id).map Subscription.ch).getD []

theorem queue_of_box {sub : Subscription} (hbox : b.box id = some sub) : b.queue id = sub.ch := by
  rw [queue, hbox]
  rfl

theorem queue_congr (hbox : next.box id = b.box id) : next.queue id = b.queue id := by
  rw [queue, hbox, queue]

theorem queue_of_subs {sub : Subscription} (hsub : b.subs[id]? = some sub) :
    b.queue id = sub.ch := by
  rw [queue, box_of_subs hsub]
  rfl

theorem topic_eq_box (b : Broker) (id : ℕ) : b.topic id = (b.box id).map Subscription.topic := by
  rw [topic, box]
  cases b.subs[id]? <;> rfl

theorem bounded_new : Bounded new := by
  intro id sub hbox
  simp [box, new] at hbox

theorem Bounded.step {a : Action} (hbounded : b.Bounded) (hfiled : b.Filed)
    (hstep : b.step a = some next) : next.Bounded := by
  intro id sub hbox
  have heffect := step_effect hfiled id (hbounded id) hstep
  generalize entries id b a = log at heffect
  cases heffect with
  | still hsame =>
      rw [hsame] at hbox
      exact hbounded id sub hbox
  | joined topic buffer _ hnext =>
      rw [hnext] at hbox
      cases hbox
      exact Nat.zero_le buffer
  | passed old msg hold hroom _ hnext =>
      rw [hnext] at hbox
      cases hbox
      rw [List.length_append, List.length_singleton]
      exact hroom
  | missed old msg hold _ hnext =>
      rw [hnext] at hbox
      cases hbox
      exact hbounded id old hold
  | received old msg rest hold hch hnext =>
      rw [hnext] at hbox
      cases hbox
      have hle := hbounded id old hold
      rw [hch, List.length_cons] at hle
      exact (Nat.le_succ _).trans hle

theorem topic_step {a : Action} (hbounded : b.Bounded) (hfiled : b.Filed)
    (hstep : b.step a = some next) (hlt : id < b.subs.length) : next.topic id = b.topic id := by
  rw [topic_eq_box, topic_eq_box]
  have heffect := step_effect hfiled id (hbounded id) hstep
  generalize entries id b a = log at heffect
  cases heffect with
  | still hsame => rw [hsame]
  | joined topic buffer hnone _ => simp [box, hlt] at hnone
  | passed old msg hold _ _ hnext => rw [hnext, hold]; rfl
  | missed old msg hold _ hnext => rw [hnext, hold]; rfl
  | received old msg rest hold _ hnext => rw [hnext, hold]; rfl

theorem length_step {a : Action} (hstep : b.step a = some next) :
    b.subs.length ≤ next.subs.length := by
  unfold step at hstep
  split_ifs at hstep
  cases a with
  | subscribe topic buffer =>
      cases hstep
      simp [subscribe]
  | publish topic payload targets =>
      obtain ⟨_, _, rfl⟩ := publish_eq_some hstep
      exact le_rfl
  | send call =>
      obtain ⟨_, _, _, _, _, _, _, ⟨_, rfl⟩ | ⟨_, rfl⟩⟩ := send_eq_some hstep
      · exact le_rfl
      · simp [setSub]
  | receive other =>
      obtain ⟨_, _, _, _, _, rfl⟩ := receive_eq_some hstep
      simp [setSub]
  | remove other =>
      obtain ⟨_, _, _, rfl⟩ := remove_eq_some hstep
      simp [setSub]
  | close other =>
      obtain ⟨_, _, _, rfl⟩ := close_eq_some hstep
      simp [setSub]

theorem closed_step {a : Action} (hstep : b.step a = some next)
    (hclosed : b.phase id = some .closed) : next.phase id = some .closed := by
  have hlt := phase_lt hclosed
  unfold step at hstep
  split_ifs at hstep
  cases a with
  | subscribe topic buffer =>
      cases hstep
      rw [phase, subs_subscribe_of_lt b topic buffer hlt]
      exact hclosed
  | publish topic payload targets =>
      obtain ⟨_, _, rfl⟩ := publish_eq_some hstep
      exact hclosed
  | send call =>
      obtain ⟨pub, other, rest, sub, _, _, hsub, ⟨_, rfl⟩ | ⟨_, rfl⟩⟩ := send_eq_some hstep
      · exact hclosed
      · exact (phase_setSub_of_eq hsub (offer_phase sub pub.msg) id).trans hclosed
  | receive other =>
      obtain ⟨sub, _, rest, hsub, _, rfl⟩ := receive_eq_some hstep
      have hkept : (b.setSub other { sub with ch := rest }).phase id = b.phase id := by
        apply phase_setSub_of_eq hsub
        rfl
      exact hkept.trans hclosed
  | remove other =>
      obtain ⟨sub, hsub, hphase, rfl⟩ := remove_eq_some hstep
      have hne : id ≠ other := by
        rintro rfl
        simp [phase, hsub, hphase] at hclosed
      exact ((phase_setSub hsub _ id).trans (if_neg hne)).trans hclosed
  | close other =>
      obtain ⟨sub, hsub, hphase, rfl⟩ := close_eq_some hstep
      have hne : id ≠ other := by
        rintro rfl
        simp [phase, hsub, hphase] at hclosed
      exact ((phase_setSub hsub _ id).trans (if_neg hne)).trans hclosed

theorem phase_close (hclose : b.step (.close id) = some next) : next.phase id = some .closed := by
  unfold step at hclose
  split_ifs at hclose
  obtain ⟨sub, hsub, _, rfl⟩ := close_eq_some hclose
  rw [phase_setSub hsub, if_pos rfl]

theorem subs_subscribe {topic : Key} {buffer : ℤ}
    (hstep : b.step (.subscribe topic buffer) = some next) :
    next.subs.length = b.subs.length + 1 ∧ next.topic b.subs.length = some topic ∧
      next.queue b.subs.length = [] := by
  unfold step at hstep
  split_ifs at hstep
  cases hstep
  simp [subscribe, Broker.topic, queue, box]

def accepted (b : Broker) : Action → Option (ℕ × Message)
  | .send call =>
      match b.target call with
      | none => none
      | some (msg, id, sub) =>
          if sub.phase ≠ .closed ∧ sub.ch.length < sub.buffer then some (id, msg) else none
  | _ => none

theorem accepted_eq_some {a : Action} {msg : Message} (hfiled : b.Filed)
    (hstep : b.step a = some next) (haccepted : b.accepted a = some (id, msg)) :
    b.topic id = some msg.topic ∧ b.phase id ≠ some .closed := by
  unfold step at hstep
  split_ifs at hstep
  cases a with
  | send call =>
      obtain ⟨pub, other, rest, sub, hpub, htargets, hsub, _⟩ := send_eq_some hstep
      simp only [accepted, target_eq hpub htargets hsub] at haccepted
      split_ifs at haccepted with hroom
      simp only [Option.some.injEq, Prod.mk.injEq] at haccepted
      obtain ⟨rfl, rfl⟩ := haccepted
      refine ⟨hfiled.addressed pub (List.mem_of_getElem? hpub) other (by simp [htargets]), ?_⟩
      rw [phase, hsub]
      simpa using hroom.1
  | _ => contradiction

theorem queue_step {a : Action} (hstep : b.step a = some next) (hlt : id < b.subs.length)
    (hreceive : a ≠ .receive id) :
    next.queue id = b.queue id ++
      ((b.accepted a).toList.filter fun entry => entry.1 = id).map Prod.snd := by
  unfold step at hstep
  split_ifs at hstep
  cases a with
  | subscribe topic buffer =>
      cases hstep
      rw [queue, box, subs_subscribe_of_lt b topic buffer hlt]
      exact (List.append_nil _).symm
  | publish topic payload targets =>
      obtain ⟨_, _, rfl⟩ := publish_eq_some hstep
      exact (List.append_nil _).symm
  | send call =>
      obtain ⟨pub, other, rest, sub, hpub, htargets, hsub, hcase⟩ := send_eq_some hstep
      simp only [accepted, target_eq hpub htargets hsub]
      rcases hcase with ⟨hclosed, rfl⟩ | ⟨hopen, rfl⟩
      · rw [if_neg fun hboth => hboth.1 hclosed]
        exact (List.append_nil _).symm
      · have hnext := box_setSub hsub (sub.offer pub.msg) id
        by_cases heq : id = other
        · subst heq
          rw [if_pos rfl] at hnext
          by_cases hroom : sub.ch.length < sub.buffer
          · rw [if_pos ⟨hopen, hroom⟩, queue_of_subs hsub]
            refine (queue_of_box hnext).trans ?_
            simp [offer_of_room hroom]
          · rw [if_neg fun hboth => hroom hboth.2, queue_of_subs hsub]
            refine (queue_of_box hnext).trans ?_
            simp [Subscription.offer, hroom]
        · rw [if_neg heq] at hnext
          refine (queue_congr hnext).trans ?_
          split_ifs
          · simp [Ne.symm heq]
          · simp
  | receive other =>
      obtain ⟨sub, _, rest, hsub, _, rfl⟩ := receive_eq_some hstep
      have hne : id ≠ other := fun heq => hreceive (by rw [heq])
      have hbox := box_setSub hsub { sub with ch := rest } id
      rw [if_neg hne] at hbox
      exact (queue_congr hbox).trans (List.append_nil _).symm
  | remove other =>
      obtain ⟨sub, hsub, _, rfl⟩ := remove_eq_some hstep
      have hbox := box_setPhase hsub .removed id
      exact (queue_congr hbox).trans (List.append_nil _).symm
  | close other =>
      obtain ⟨sub, hsub, _, rfl⟩ := close_eq_some hstep
      have hbox := box_setPhase hsub .closed id
      exact (queue_congr hbox).trans (List.append_nil _).symm

end PubSub.Broker

/-! ## The connection -/

namespace CacheServer

open Transition PubSub

inductive Request where
  | subscribe (topic : Bytes)
  | unsubscribe (topic : Bytes)
  deriving DecidableEq, Repr

/-- Where the command loop is with a topic: `Close` has taken the subscription off
its topic and has still to close the channel, or the confirmation is still to be
written. -/
inductive Stage where
  | ready
  | closing (topic : Bytes) (id : ℕ)
  | confirming (request : Request) (count : ℕ)
  deriving DecidableEq, Repr

/-- A connection that subscribes and unsubscribes: the topics that its command has
still to do, its subscriptions, and the forwarders of all that it ever subscribed
to with the message that each of them has taken and not written. -/
structure Listener where
  broker : Broker
  requests : List Request
  stage : Stage
  subs : AList fun _ : Key => ℕ
  forwarders : List ℕ
  taken : ℕ → Option Message

namespace Listener

inductive Action where
  | doSubscribe (topics : List Bytes)
  | doUnsubscribe (topics order : List Bytes)
  | handle
  | close
  | confirm
  | take (id : ℕ)
  | forward (id : ℕ)
  | others (a : PubSub.Action)
  deriving DecidableEq, Repr

def start : Listener := ⟨.new, [], .ready, ∅, [], fun _ => none⟩

/-- The topics of `UNSUBSCRIBE`; without arguments these are all that are
subscribed, in the order of the map, and the empty topic if there is none. -/
def leaving (topics order : List Bytes) : List Bytes :=
  if topics = [] then if order = [] then [[]] else order else topics

/-- The part of an iteration under the lock of the subscriptions. -/
def handle (c : Listener) : Option Listener :=
  match c.stage, c.requests with
  | .ready, .subscribe topic :: rest =>
      if topic ∈ c.subs then
        some { c with
          requests := rest
          stage := .confirming (.subscribe topic) c.subs.keys.length }
      else
        let subs := c.subs.insert topic c.broker.subs.length
        (c.broker.step (.subscribe topic 256)).map fun b => { c with
          broker := b
          requests := rest
          stage := .confirming (.subscribe topic) subs.keys.length
          subs := subs
          forwarders := c.forwarders ++ [c.broker.subs.length] }
  | .ready, .unsubscribe topic :: rest =>
      match c.subs.lookup topic with
      | none =>
          some { c with
            requests := rest
            stage := .confirming (.unsubscribe topic) c.subs.keys.length }
      | some id =>
          (c.broker.step (.remove id)).map fun b =>
            { c with broker := b, requests := rest, stage := .closing topic id }
  | _, _ => none

/-- The other half of `Close`, and the topic goes out of the subscriptions. -/
def close (c : Listener) : Option Listener :=
  match c.stage with
  | .closing topic id =>
      let subs := c.subs.erase topic
      (c.broker.step (.close id)).map fun b => { c with
        broker := b
        stage := .confirming (.unsubscribe topic) subs.keys.length
        subs := subs }
  | _ => none

def take (c : Listener) (id : ℕ) : Option Listener :=
  if id ∈ c.forwarders ∧ c.taken id = none then
    match (c.broker.subs[id]?).bind fun sub => sub.ch.head? with
    | none => none
    | some msg => (c.broker.step (.receive id)).map fun b =>
        { c with broker := b, taken := Function.update c.taken id (some msg) }
  else none

/-- Nobody else reads or closes the channels of this connection. -/
def Foreign (c : Listener) (a : PubSub.Action) : Prop :=
  ∀ id ∈ c.forwarders, Handshake.subject a ≠ some id

instance (c : Listener) (a : PubSub.Action) : Decidable (c.Foreign a) :=
  inferInstanceAs (Decidable (∀ id ∈ c.forwarders, Handshake.subject a ≠ some id))

def step (c : Listener) (a : Action) : Option Listener :=
  if c.broker.panicked then none
  else
    match a with
    | .doSubscribe topics =>
        if c.requests = [] ∧ c.stage = .ready then
          some { c with requests := topics.map .subscribe }
        else none
    | .doUnsubscribe topics order =>
        if c.requests = [] ∧ c.stage = .ready ∧ order.Perm c.subs.keys then
          some { c with requests := (leaving topics order).map .unsubscribe }
        else none
    | .handle => c.handle
    | .close => c.close
    | .confirm =>
        match c.stage with
        | .confirming _ _ => some { c with stage := .ready }
        | _ => none
    | .take id => c.take id
    | .forward id =>
        if id ∈ c.forwarders then
          (c.taken id).map fun _ => { c with taken := Function.update c.taken id none }
        else none
    | .others a =>
        if c.Foreign a then (c.broker.step a).map fun b => { c with broker := b } else none

/-! ## What is seen of a run -/

/-- A topic is subscribed, a confirmation is written, a message goes into a channel
of the connection, a message is written. -/
inductive Mark where
  | subscribed (topic : Bytes)
  | confirmed (request : Request) (count : ℕ)
  | sent (msg : Message)
  | written (msg : Message)
  deriving DecidableEq, Repr

def marks (c : Listener) : Action → List Mark
  | .handle =>
      match c.stage, c.requests with
      | .ready, .subscribe topic :: _ => [.subscribed topic]
      | _, _ => []
  | .confirm =>
      match c.stage with
      | .confirming request count => [.confirmed request count]
      | _ => []
  | .forward id => ((c.taken id).map Mark.written).toList
  | .others a =>
      ((c.broker.accepted a).toList.filter fun entry => entry.1 ∈ c.forwarders).map fun entry =>
        .sent entry.2
  | _ => []

def waiting (c : Listener) (id : ℕ) : List Message := (c.taken id).toList ++ c.broker.queue id

/-! ## What a step does -/

/-- The ways in which a connection goes on, with what is seen of each. -/
inductive Moves (c : Listener) : Listener → List Mark → Prop where
  | command (requests : List Request) (hstage : c.stage = .ready) :
      Moves c { c with requests := requests } []
  | again (topic : Bytes) (rest : List Request) (count : ℕ) (hstage : c.stage = .ready)
      (hmem : topic ∈ c.subs) :
      Moves c { c with requests := rest, stage := .confirming (.subscribe topic) count }
        [.subscribed topic]
  | joined (topic : Bytes) (rest : List Request) (count : ℕ) (b : Broker)
      (hstage : c.stage = .ready) (hnew : topic ∉ c.subs)
      (hbroker : c.broker.step (.subscribe topic 256) = some b) :
      Moves c { c with
        broker := b
        requests := rest
        stage := .confirming (.subscribe topic) count
        subs := c.subs.insert topic c.broker.subs.length
        forwarders := c.forwarders ++ [c.broker.subs.length] } [.subscribed topic]
  | absent (topic : Bytes) (rest : List Request) (count : ℕ) (hstage : c.stage = .ready)
      (hlookup : c.subs.lookup topic = none) :
      Moves c { c with requests := rest, stage := .confirming (.unsubscribe topic) count } []
  | leaving (topic : Bytes) (rest : List Request) (id : ℕ) (b : Broker) (hstage : c.stage = .ready)
      (hlookup : c.subs.lookup topic = some id)
      (hbroker : c.broker.step (.remove id) = some b) :
      Moves c { c with broker := b, requests := rest, stage := .closing topic id } []
  | closed (topic : Bytes) (id count : ℕ) (b : Broker) (hstage : c.stage = .closing topic id)
      (hbroker : c.broker.step (.close id) = some b) :
      Moves c { c with
        broker := b
        stage := .confirming (.unsubscribe topic) count
        subs := c.subs.erase topic } []
  | confirmed (request : Request) (count : ℕ) (hstage : c.stage = .confirming request count) :
      Moves c { c with stage := .ready } [.confirmed request count]
  | taken (id : ℕ) (msg : Message) (rest : List Message) (b : Broker) (hid : id ∈ c.forwarders)
      (hnone : c.taken id = none) (hqueue : c.broker.queue id = msg :: rest)
      (hnext : b.queue id = rest) (hbroker : c.broker.step (.receive id) = some b) :
      Moves c { c with broker := b, taken := Function.update c.taken id (some msg) } []
  | written (id : ℕ) (msg : Message) (hid : id ∈ c.forwarders) (hmsg : c.taken id = some msg) :
      Moves c { c with taken := Function.update c.taken id none } [.written msg]
  | others (a : PubSub.Action) (b : Broker) (hforeign : c.Foreign a)
      (hbroker : c.broker.step a = some b) :
      Moves c { c with broker := b } (c.marks (.others a))

variable {c next : Listener} {a : Action}

theorem moves_handle (hhandle : c.handle = some next) : Moves c next (c.marks .handle) := by
  unfold handle at hhandle
  unfold marks
  split at hhandle
  · next topic rest hstage hrequests =>
      rw [hstage, hrequests]
      split_ifs at hhandle with hmem
      · cases hhandle
        exact .again topic rest _ hstage hmem
      · obtain ⟨b, hb, rfl⟩ := Option.map_eq_some_iff.mp hhandle
        exact .joined topic rest _ b hstage hmem hb
  · next topic rest hstage hrequests =>
      rw [hstage, hrequests]
      cases hlookup : c.subs.lookup topic with
      | none =>
          simp only [hlookup, Option.some.injEq] at hhandle
          cases hhandle
          exact .absent topic rest _ hstage hlookup
      | some id =>
          simp only [hlookup] at hhandle
          obtain ⟨b, hb, rfl⟩ := Option.map_eq_some_iff.mp hhandle
          exact .leaving topic rest id b hstage hlookup hb
  · contradiction

theorem moves_take {id : ℕ} (htake : c.take id = some next) : Moves c next [] := by
  unfold take at htake
  split_ifs at htake with hready
  split at htake
  · contradiction
  · next msg hhead =>
      obtain ⟨b, hb, rfl⟩ := Option.map_eq_some_iff.mp htake
      have hreceive : c.broker.receive id = some b := by
        unfold Broker.step at hb
        split_ifs at hb
        exact hb
      obtain ⟨sub, first, rest, hsub, hch, hnext⟩ := Broker.receive_eq_some hreceive
      have hmsg : first = msg := by
        rw [hsub, Option.bind_some, hch] at hhead
        exact Option.some.inj hhead
      subst hmsg
      refine .taken id first rest b hready.1 hready.2 ?_ ?_ hb
      · rw [Broker.queue_of_subs hsub, hch]
      · rw [hnext, Broker.queue, Broker.box_setSub hsub, if_pos rfl]
        rfl

theorem moves_step (hstep : c.step a = some next) : Moves c next (c.marks a) := by
  unfold step at hstep
  by_cases hpanicked : c.broker.panicked = true
  · rw [if_pos hpanicked] at hstep
    contradiction
  rw [if_neg hpanicked] at hstep
  cases a with
  | doSubscribe topics =>
      simp only at hstep
      split_ifs at hstep with hready
      cases hstep
      exact .command _ hready.2
  | doUnsubscribe topics order =>
      simp only at hstep
      split_ifs at hstep with hready
      cases hstep
      exact .command _ hready.2.1
  | handle => exact moves_handle hstep
  | close =>
      simp only [close] at hstep
      cases hstage : c.stage with
      | closing topic id =>
          simp only [hstage] at hstep
          obtain ⟨b, hb, rfl⟩ := Option.map_eq_some_iff.mp hstep
          exact .closed topic id _ b hstage hb
      | ready => simp [hstage] at hstep
      | confirming request count => simp [hstage] at hstep
  | confirm =>
      simp only [marks]
      cases hstage : c.stage with
      | confirming request count =>
          simp only [hstage, Option.some.injEq] at hstep
          cases hstep
          exact .confirmed request count hstage
      | ready => simp [hstage] at hstep
      | closing topic id => simp [hstage] at hstep
  | take id => exact moves_take hstep
  | forward id =>
      simp only at hstep
      split_ifs at hstep with hid
      obtain ⟨msg, hmsg, rfl⟩ := Option.map_eq_some_iff.mp hstep
      simp only [marks, hmsg]
      exact .written id msg hid hmsg
  | others a =>
      simp only at hstep
      split_ifs at hstep with hforeign
      obtain ⟨b, hb, rfl⟩ := Option.map_eq_some_iff.mp hstep
      exact .others a b hforeign hb

/-! ## The subscriptions and their forwarders -/

/-- Every subscription that was made has a forwarder, which has messages of its
topic only, and one that has not been closed is the current one of its topic. -/
structure Sound (c : Listener) : Prop where
  filed : c.broker.Filed
  bounded : c.broker.Bounded
  made : ∀ id ∈ c.forwarders, id < c.broker.subs.length
  untaken : ∀ id, id ∉ c.forwarders → c.taken id = none
  topics : ∀ id ∈ c.forwarders, ∀ msg ∈ c.waiting id, c.broker.topic id = some msg.topic
  current : ∀ topic id, c.subs.lookup topic = some id →
    id ∈ c.forwarders ∧ c.broker.topic id = some topic
  opened : ∀ id ∈ c.forwarders, ∀ topic, c.broker.topic id = some topic →
    c.broker.phase id ≠ some .closed → c.subs.lookup topic = some id
  closing : ∀ topic id, c.stage = .closing topic id → c.subs.lookup topic = some id
  confirming : ∀ topic count, c.stage = .confirming (.unsubscribe topic) count → topic ∉ c.subs

theorem sound_start : Sound start where
  filed := Broker.filed_new
  bounded := Broker.bounded_new
  made := fun _ hid => absurd hid List.not_mem_nil
  untaken := fun _ _ => rfl
  topics := fun _ hid => absurd hid List.not_mem_nil
  current := fun _ _ hlookup => absurd hlookup (by simp [start])
  opened := fun _ hid => absurd hid List.not_mem_nil
  closing := fun _ _ hstage => absurd hstage (by simp [start])
  confirming := fun _ _ hstage => absurd hstage (by simp [start])

theorem waiting_step (hsound : c.Sound) {act : PubSub.Action} {b : Broker}
    (hbroker : c.broker.step act = some b) {id : ℕ} (hid : id ∈ c.forwarders)
    (hreceive : act ≠ .receive id) :
    waiting { c with broker := b } id = c.waiting id ++
      ((c.broker.accepted act).toList.filter fun entry => entry.1 = id).map Prod.snd := by
  have hqueue := Broker.queue_step hbroker (hsound.made id hid) hreceive
  rw [waiting, waiting, hqueue, List.append_assoc]

theorem Sound.become (hsound : c.Sound) {act : PubSub.Action} {b : Broker}
    (hbroker : c.broker.step act = some b) {taken : ℕ → Option Message}
    (huntaken : ∀ id, id ∉ c.forwarders → taken id = none)
    (htopics : ∀ id ∈ c.forwarders, ∀ msg ∈ waiting { c with broker := b, taken := taken } id,
      c.broker.topic id = some msg.topic) :
    Sound { c with broker := b, taken := taken } where
  filed := hsound.filed.step hbroker
  bounded := hsound.bounded.step hsound.filed hbroker
  made := fun id hid => (hsound.made id hid).trans_le (Broker.length_step hbroker)
  untaken := huntaken
  topics := by
    intro id hid msg hmsg
    have htopic := Broker.topic_step hsound.bounded hsound.filed hbroker (hsound.made id hid)
    exact htopic.trans (htopics id hid msg hmsg)
  current := by
    intro topic id hlookup
    obtain ⟨hid, htopic⟩ := hsound.current topic id hlookup
    refine ⟨hid, ?_⟩
    exact (Broker.topic_step hsound.bounded hsound.filed hbroker (hsound.made id hid)).trans htopic
  opened := by
    intro id hid topic htopic hopen
    rw [Broker.topic_step hsound.bounded hsound.filed hbroker (hsound.made id hid)] at htopic
    exact hsound.opened id hid topic htopic fun hclosed =>
      hopen (Broker.closed_step hbroker hclosed)
  closing := hsound.closing
  confirming := hsound.confirming

theorem Sound.broker (hsound : c.Sound) {act : PubSub.Action} {b : Broker}
    (hbroker : c.broker.step act = some b)
    (hreceive : ∀ id ∈ c.forwarders, act ≠ .receive id) : Sound { c with broker := b } := by
  apply hsound.become hbroker hsound.untaken
  intro id hid msg hmsg
  have hwaiting := waiting_step hsound hbroker hid (hreceive id hid)
  rcases List.mem_append.mp (hwaiting ▸ hmsg) with hold | hnew
  · exact hsound.topics id hid msg hold
  · obtain ⟨entry, hentry, rfl⟩ := List.mem_map.mp hnew
    obtain ⟨haccepted, heq⟩ := List.mem_filter.mp hentry
    obtain rfl : entry.1 = id := by simpa using heq
    exact (Broker.accepted_eq_some hsound.filed hbroker (Option.mem_toList.mp haccepted)).1

theorem waiting_taken (hsound : c.Sound) {id : ℕ} {msg : Message} {rest : List Message}
    {b : Broker} (hnone : c.taken id = none) (hqueue : c.broker.queue id = msg :: rest)
    (hnext : b.queue id = rest) (hbroker : c.broker.step (.receive id) = some b) {other : ℕ}
    (hother : other ∈ c.forwarders) :
    waiting { c with broker := b, taken := Function.update c.taken id (some msg) } other =
      c.waiting other := by
  by_cases heq : other = id
  · subst heq
    simp [waiting, hnone, hqueue, hnext]
  · have hsame := waiting_step hsound hbroker hother (by simpa using Ne.symm heq)
    simp only [waiting] at hsame ⊢
    rw [Function.update_of_ne heq, hsame]
    exact List.append_nil _

theorem Sound.joined (hsound : c.Sound) {topic : Bytes} {rest : List Request} {count : ℕ}
    {b : Broker} (hnew : topic ∉ c.subs)
    (hbroker : c.broker.step (.subscribe topic 256) = some b) :
    Sound { c with
      broker := b
      requests := rest
      stage := .confirming (.subscribe topic) count
      subs := c.subs.insert topic c.broker.subs.length
      forwarders := c.forwarders ++ [c.broker.subs.length] } := by
  obtain ⟨hlength, htopic, hqueue⟩ := Broker.subs_subscribe hbroker
  have hkept := hsound.broker hbroker fun _ _ => by simp
  have hfresh : c.broker.subs.length ∉ c.forwarders := fun hmem =>
    absurd (hsound.made _ hmem) (lt_irrefl _)
  refine ⟨hkept.filed, hkept.bounded, ?_, ?_, ?_, ?_, ?_, ?_, ?_⟩
  · intro id hid
    rcases List.mem_append.mp hid with hold | hlast
    · exact hkept.made id hold
    · rw [List.mem_singleton.mp hlast]
      exact hlength ▸ Nat.lt_succ_self _
  · intro id hid
    exact hsound.untaken id fun hmem => hid (List.mem_append_left _ hmem)
  · intro id hid msg hmsg
    rcases List.mem_append.mp hid with hold | hlast
    · exact hkept.topics id hold msg hmsg
    · rw [List.mem_singleton.mp hlast] at hmsg
      simp [waiting, hsound.untaken _ hfresh, hqueue] at hmsg
  · intro other id hlookup
    by_cases heq : other = topic
    · subst heq
      rw [AList.lookup_insert] at hlookup
      cases hlookup
      exact ⟨List.mem_append_right _ List.mem_cons_self, htopic⟩
    · rw [AList.lookup_insert_ne heq] at hlookup
      obtain ⟨hid, hother⟩ := hkept.current other id hlookup
      exact ⟨List.mem_append_left _ hid, hother⟩
  · intro id hid other hother hopen
    rcases List.mem_append.mp hid with hold | hlast
    · have hlookup := hkept.opened id hold other hother hopen
      have hne : other ≠ topic := by
        rintro rfl
        exact hnew (AList.lookup_isSome.mp (by rw [hlookup]; rfl))
      exact (AList.lookup_insert_ne hne).trans hlookup
    · rw [List.mem_singleton.mp hlast] at hother ⊢
      rw [htopic] at hother
      cases hother
      exact AList.lookup_insert _
  · intro _ _ hstage
    contradiction
  · intro _ _ hstage
    exact absurd hstage (by simp)

theorem Sound.closed (hsound : c.Sound) {topic : Bytes} {id count : ℕ} {b : Broker}
    (hstage : c.stage = .closing topic id) (hbroker : c.broker.step (.close id) = some b) :
    Sound { c with
      broker := b
      stage := .confirming (.unsubscribe topic) count
      subs := c.subs.erase topic } := by
  have hkept := hsound.broker hbroker fun _ _ => by simp
  have hlookup := hsound.closing topic id hstage
  have hne : ∀ {other sub}, (c.subs.erase topic).lookup other = some sub → other ≠ topic := by
    rintro other sub hother rfl
    rw [AList.lookup_erase] at hother
    contradiction
  refine ⟨hkept.filed, hkept.bounded, hkept.made, hkept.untaken, hkept.topics, ?_, ?_, ?_, ?_⟩
  · intro other sub hother
    rw [AList.lookup_erase_ne (hne hother)] at hother
    exact hkept.current other sub hother
  · intro sub hsub other hother hopen
    have hcurrent := hkept.opened sub hsub other hother hopen
    refine (AList.lookup_erase_ne ?_).trans hcurrent
    rintro rfl
    obtain rfl : id = sub := Option.some.inj (hlookup.symm.trans hcurrent)
    exact hopen (Broker.phase_close hbroker)
  · intro _ _ hclosing
    contradiction
  · intro other _ hconfirming hmem
    cases hconfirming
    exact (AList.mem_erase.mp hmem).1 rfl

theorem Sound.taken (hsound : c.Sound) {id : ℕ} {msg : Message} {rest : List Message} {b : Broker}
    (hid : id ∈ c.forwarders) (hnone : c.taken id = none)
    (hqueue : c.broker.queue id = msg :: rest) (hnext : b.queue id = rest)
    (hbroker : c.broker.step (.receive id) = some b) :
    Sound { c with broker := b, taken := Function.update c.taken id (some msg) } := by
  apply hsound.become hbroker
  · intro other hother
    have hne : other ≠ id := fun heq => hother (heq ▸ hid)
    rw [Function.update_of_ne hne]
    exact hsound.untaken other hother
  · intro other hother first hfirst
    rw [waiting_taken hsound hnone hqueue hnext hbroker hother] at hfirst
    exact hsound.topics other hother first hfirst

theorem waiting_written {id : ℕ} {msg : Message} (hmsg : c.taken id = some msg) (other : ℕ) :
    c.waiting other = (if other = id then [msg] else []) ++
      waiting { c with taken := Function.update c.taken id none } other := by
  by_cases heq : other = id
  · subst heq
    simp [waiting, hmsg]
  · simp [waiting, heq]

theorem Sound.written (hsound : c.Sound) {id : ℕ} {msg : Message} (hmsg : c.taken id = some msg) :
    Sound { c with taken := Function.update c.taken id none } := by
  refine { hsound with untaken := ?_, topics := ?_ }
  · intro other hother
    change Function.update c.taken id none other = none
    by_cases heq : other = id
    · rw [heq, Function.update_self]
    · rw [Function.update_of_ne heq]
      exact hsound.untaken other hother
  · intro other hother first hfirst
    apply hsound.topics other hother first
    rw [waiting_written hmsg]
    exact List.mem_append_right _ hfirst

theorem Sound.moves {seen : List Mark} (hsound : c.Sound) (hmoves : Moves c next seen) :
    next.Sound := by
  cases hmoves with
  | command requests hstage => exact { hsound with }
  | again topic rest count hstage hmem | confirmed request count hstage =>
      refine { hsound with closing := ?_, confirming := ?_ }
      · exact fun _ _ hclosing => absurd hclosing (by simp)
      · exact fun _ _ hconfirming => absurd hconfirming (by simp)
  | joined topic rest count b hstage hnew hbroker => exact hsound.joined hnew hbroker
  | absent topic rest count hstage hlookup =>
      refine { hsound with closing := ?_, confirming := ?_ }
      · exact fun _ _ hclosing => absurd hclosing (by simp)
      · intro other n hconfirming
        cases hconfirming
        exact AList.lookup_eq_none.mp hlookup
  | leaving topic rest id b hstage hlookup hbroker =>
      have hkept := hsound.broker hbroker fun _ _ => by simp
      refine { hkept with closing := ?_, confirming := ?_ }
      · intro other sub hclosing
        cases hclosing
        exact hlookup
      · exact fun _ _ hconfirming => absurd hconfirming (by simp)
  | closed topic id count b hstage hbroker => exact hsound.closed hstage hbroker
  | taken id msg rest b hid hnone hqueue hnext hbroker =>
      exact hsound.taken hid hnone hqueue hnext hbroker
  | written id msg hid hmsg => exact hsound.written hmsg
  | others act b hforeign hbroker =>
      apply hsound.broker hbroker
      rintro id hid rfl
      exact hforeign id hid rfl

end Listener
end CacheServer
end DistCache
