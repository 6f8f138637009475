import DistCache.PubSubBroker
import DistCache.DropTail

/-!
# Every message is accounted for

A send of `Publish` that finds the buffer full counts the drop in a step of its own.
Here the counter that `Dropped` reads is kept beside the broker, with the calls of
`Publish` that have still to count.

For every interleaving, as long as nothing panics, what was received and what is
buffered is what was sent while there was room, and the counter is the number of the
other sends that are over.
-/

namespace DistCache
namespace PubSub

open DropTail Transition

/-! ## Who is subscribed -/

namespace Broker

def subscriptions (b : Broker) (topic : Key) : Finset ℕ :=
  (Finset.range b.subs.length).filter fun id =>
    b.topic id = some topic ∧ b.phase id = some .subscribed

/-- The topic map holds the subscriptions of each topic, and a call of `Publish`
has only subscriptions of its topic to send to. -/
structure Filed (b : Broker) : Prop where
  registered : ∀ topic id, id ∈ b.subscribers topic ↔
    b.topic id = some topic ∧ b.phase id = some .subscribed
  addressed : ∀ pub ∈ b.publishing, ∀ id ∈ pub.targets, b.topic id = some pub.msg.topic

variable {b next : Broker}

theorem filed_new : Filed new where
  registered := by
    intro topic id
    simp [new, subscribers, Broker.topic]
  addressed := fun _ hmem => absurd hmem List.not_mem_nil

theorem Filed.subscribers_eq (hfiled : b.Filed) (topic : Key) :
    b.subscribers topic = b.subscriptions topic := by
  ext id
  rw [subscriptions, Finset.mem_filter, Finset.mem_range, hfiled.registered]
  exact ⟨fun hid => ⟨phase_lt hid.2, hid⟩, And.right⟩

theorem topic_lt {id : ℕ} {key : Key} (htopic : b.topic id = some key) : id < b.subs.length := by
  obtain ⟨sub, hsub, _⟩ := Option.map_eq_some_iff.mp htopic
  exact (List.getElem?_eq_some_iff.mp hsub).1

theorem mem_withoutSub_of_mem {topic other : Key} {id sub : ℕ} (hmem : sub ∈ b.subscribers other)
    (hne : other = topic → sub ≠ id) : sub ∈ ((b.withoutSub topic id).lookup other).getD ∅ := by
  unfold withoutSub
  cases hlookup : b.topics.lookup topic with
  | none => exact hmem
  | some subs =>
      by_cases hother : other = topic
      · subst hother
        rw [subscribers, hlookup, Option.getD_some] at hmem
        have herase : sub ∈ subs.erase id := Finset.mem_erase.mpr ⟨hne rfl, hmem⟩
        simp only
        rw [if_neg (Finset.ne_empty_of_mem herase), AList.lookup_insert, Option.getD_some]
        exact herase
      · simp only
        split_ifs with hempty
        · rwa [AList.lookup_erase_ne hother]
        · rwa [AList.lookup_insert_ne hother]

theorem Filed.subscribe (hfiled : b.Filed) (topic : Key) (buffer : ℤ) :
    (b.subscribe topic buffer).Filed where
  registered := by
    intro other id
    rw [mem_subscribers_subscribe, hfiled.registered]
    rcases lt_trichotomy id b.subs.length with hlt | heq | hgt
    · have hne : id ≠ b.subs.length := hlt.ne
      simp [Broker.topic, phase, subs_subscribe_of_lt b topic buffer hlt, hne]
    · subst heq
      simp [Broker.topic, phase, Broker.subscribe, eq_comm]
    · have hnone : (b.subscribe topic buffer).subs[id]? = none := by
        rw [List.getElem?_eq_none_iff]
        simpa [Broker.subscribe] using hgt
      have hnone' : b.subs[id]? = none := List.getElem?_eq_none_iff.mpr hgt.le
      simp [Broker.topic, phase, hnone, hnone', hgt.ne']
  addressed := by
    intro pub hpub id hid
    have htopic := hfiled.addressed pub hpub id hid
    rwa [Broker.topic, subs_subscribe_of_lt b topic buffer (topic_lt htopic)]

theorem Filed.publish {topic : Key} {payload : Bytes} {targets : List ℕ} (hfiled : b.Filed)
    (hstep : b.publish topic payload targets = some next) : next.Filed := by
  obtain ⟨_, horder, rfl⟩ := publish_eq_some hstep
  refine ⟨hfiled.registered, ?_⟩
  intro pub hpub id hid
  rcases List.mem_append.mp hpub with hpub | hpub
  · exact hfiled.addressed pub hpub id hid
  · rw [List.mem_singleton] at hpub
    subst hpub
    have hmem : id ∈ b.subscribers topic := by
      rw [← horder, List.mem_toFinset]
      exact hid
    exact ((hfiled.registered topic id).mp hmem).1

theorem Filed.setSub {id : ℕ} {old sub : Subscription} {publishing : List Publishing}
    (hfiled : b.Filed) (hold : b.subs[id]? = some old) (hphase : sub.phase = old.phase)
    (htopic : sub.topic = old.topic)
    (htargets : ∀ pub ∈ publishing, ∀ target ∈ pub.targets,
      ∃ before ∈ b.publishing, before.msg = pub.msg ∧ target ∈ before.targets) :
    ({ b.setSub id sub with publishing := publishing } : Broker).Filed where
  registered := by
    intro topic other
    have hsame := topic_setSub hold htopic other
    have hsame' := phase_setSub_of_eq hold hphase other
    have hbefore := hfiled.registered topic other
    rw [← hsame, ← hsame'] at hbefore
    exact hbefore
  addressed := by
    intro pub hpub target htarget
    obtain ⟨before, hbefore, hmsg, hmem⟩ := htargets pub hpub target htarget
    have haddressed := hfiled.addressed before hbefore target hmem
    rw [hmsg] at haddressed
    exact (topic_setSub hold htopic target).trans haddressed

theorem Filed.send {call : ℕ} (hfiled : b.Filed) (hstep : b.send call = some next) :
    next.Filed := by
  obtain ⟨pub, id, rest, sub, hpub, htargets, hsub, ⟨_, rfl⟩ | ⟨_, rfl⟩⟩ := send_eq_some hstep
  · exact ⟨hfiled.registered, hfiled.addressed⟩
  · apply hfiled.setSub hsub (offer_phase sub pub.msg) (offer_topic sub pub.msg)
    intro other hother target htarget
    rcases List.mem_or_eq_of_mem_set hother with hother | rfl
    · exact ⟨other, hother, rfl, htarget⟩
    · refine ⟨pub, List.mem_of_getElem? hpub, rfl, ?_⟩
      rw [htargets]
      exact List.mem_cons_of_mem id htarget

theorem Filed.receive {id : ℕ} (hfiled : b.Filed) (hstep : b.receive id = some next) :
    next.Filed := by
  obtain ⟨sub, msg, rest, hsub, _, rfl⟩ := receive_eq_some hstep
  exact hfiled.setSub hsub rfl rfl fun pub hpub target htarget => ⟨pub, hpub, rfl, htarget⟩

theorem Filed.remove {id : ℕ} (hfiled : b.Filed) (hstep : b.remove id = some next) :
    next.Filed := by
  obtain ⟨sub, hsub, hphase, rfl⟩ := remove_eq_some hstep
  have hnew := phase_setSub hsub { sub with phase := .removed }
  have hkeep : ∀ other, (b.setSub id { sub with phase := .removed }).topic other =
      b.topic other := topic_setSub hsub rfl
  refine ⟨?_, ?_⟩
  · intro topic other
    show other ∈ ((b.withoutSub sub.topic id).lookup topic).getD ∅ ↔
      (b.setSub id { sub with phase := .removed }).topic other = some topic ∧
        (b.setSub id { sub with phase := .removed }).phase other = some .subscribed
    rw [hkeep, hnew]
    constructor
    · intro hmem
      obtain ⟨hbefore, hne⟩ := mem_withoutSub hmem
      obtain ⟨htopic, hactive⟩ := (hfiled.registered topic other).mp hbefore
      have hother : other ≠ id := by
        rintro rfl
        have howner : sub.topic = topic := by simpa [Broker.topic, hsub] using htopic
        exact hne howner.symm rfl
      rw [if_neg hother]
      exact ⟨htopic, hactive⟩
    · rintro ⟨htopic, hactive⟩
      split_ifs at hactive with heq
      · simp at hactive
      · exact mem_withoutSub_of_mem ((hfiled.registered topic other).mpr ⟨htopic, hactive⟩)
          fun _ => heq
  · intro pub hpub target htarget
    exact (hkeep target).trans (hfiled.addressed pub hpub target htarget)

theorem Filed.close {id : ℕ} (hfiled : b.Filed) (hstep : b.close id = some next) :
    next.Filed := by
  obtain ⟨sub, hsub, hphase, rfl⟩ := close_eq_some hstep
  have hnew := phase_setSub hsub { sub with phase := .closed }
  have hkeep : ∀ other, (b.setSub id { sub with phase := .closed }).topic other =
      b.topic other := topic_setSub hsub rfl
  refine ⟨?_, ?_⟩
  · intro topic other
    show other ∈ b.subscribers topic ↔ _
    rw [hkeep, hnew, hfiled.registered]
    by_cases heq : other = id
    · subst heq
      simp [phase, hsub, hphase]
    · rw [if_neg heq]
  · intro pub hpub target htarget
    exact (hkeep target).trans (hfiled.addressed pub hpub target htarget)

theorem Filed.step {a : Action} (hfiled : b.Filed) (hstep : b.step a = some next) :
    next.Filed := by
  unfold Broker.step at hstep
  split_ifs at hstep
  cases a with
  | subscribe topic buffer =>
      cases hstep
      exact hfiled.subscribe topic buffer
  | publish topic payload targets => exact hfiled.publish hstep
  | send call => exact hfiled.send hstep
  | receive id => exact hfiled.receive hstep
  | remove id => exact hfiled.remove hstep
  | close id => exact hfiled.close hstep

/-! ## One subscription -/

def target (b : Broker) (call : ℕ) : Option (Message × ℕ × Subscription) :=
  match b.publishing[call]? with
  | none => none
  | some pub =>
      match pub.targets with
      | [] => none
      | id :: _ => b.subs[id]?.map fun sub => (pub.msg, id, sub)

/-- What a step means for the log of a subscription.  A send on a closed channel is
not a send. -/
def entries (id : ℕ) (b : Broker) : Action → List (Entry Message)
  | .send call =>
      match b.target call with
      | none => []
      | some (msg, other, sub) =>
          if other = id ∧ sub.phase ≠ .closed then
            [if sub.ch.length = sub.buffer then .missed msg else .passed msg]
          else []
  | .receive other =>
      if other = id then
        ((b.subs[id]?.bind fun sub => sub.ch.head?).map Entry.received).toList
      else []
  | _ => []

def box (b : Broker) (id : ℕ) : Option Subscription :=
  b.subs[id]?.map fun sub => { sub with phase := .subscribed }

inductive Effect (id : ℕ) (b next : Broker) : List (Entry Message) → Prop where
  | still (hbox : next.box id = b.box id) : Effect id b next []
  | joined (topic : Key) (buffer : ℕ) (hbox : b.box id = none)
      (hnext : next.box id = some ⟨topic, buffer, [], 0, .subscribed⟩) : Effect id b next []
  | passed (sub : Subscription) (msg : Message) (hbox : b.box id = some sub)
      (hroom : sub.ch.length < sub.buffer) (htopic : msg.topic = sub.topic)
      (hnext : next.box id = some { sub with ch := sub.ch ++ [msg] }) :
      Effect id b next [.passed msg]
  | missed (sub : Subscription) (msg : Message) (hbox : b.box id = some sub)
      (htopic : msg.topic = sub.topic)
      (hnext : next.box id = some { sub with dropped := sub.dropped + 1 }) :
      Effect id b next [.missed msg]
  | received (sub : Subscription) (msg : Message) (rest : List Message)
      (hbox : b.box id = some sub) (hch : sub.ch = msg :: rest)
      (hnext : next.box id = some { sub with ch := rest }) : Effect id b next [.received msg]

theorem box_of_subs {id : ℕ} {sub : Subscription} (hsub : b.subs[id]? = some sub) :
    b.box id = some { sub with phase := .subscribed } := by
  rw [box, hsub, Option.map_some]

theorem box_setSub {id : ℕ} {old : Subscription} (hold : b.subs[id]? = some old)
    (sub : Subscription) (other : ℕ) :
    (b.setSub id sub).box other =
      if other = id then some { sub with phase := .subscribed } else b.box other := by
  have hlt := (List.getElem?_eq_some_iff.mp hold).1
  unfold box setSub
  by_cases heq : other = id
  · subst heq
    simp [hlt]
  · simp [heq, List.getElem?_set_ne (Ne.symm heq)]

theorem box_setPhase {id : ℕ} {sub : Subscription} (hsub : b.subs[id]? = some sub)
    (phase : Phase) (other : ℕ) :
    (b.setSub id { sub with phase := phase }).box other = b.box other := by
  rw [box_setSub hsub]
  split_ifs with heq
  · rw [heq, box_of_subs hsub]
  · rfl

theorem effect_subscribe (id : ℕ) (topic : Key) (buffer : ℤ) :
    Effect id b (b.subscribe topic buffer) [] := by
  rcases lt_trichotomy id b.subs.length with hlt | heq | hgt
  · exact .still (by rw [box, box, subs_subscribe_of_lt b topic buffer hlt])
  · subst heq
    exact .joined topic (if buffer ≤ 0 then 16 else buffer.toNat)
      (by simp [box]) (by simp [box, Broker.subscribe])
  · have hnone : (b.subscribe topic buffer).subs[id]? = none := by
      rw [List.getElem?_eq_none_iff]
      simpa [Broker.subscribe] using hgt
    have hnone' : b.subs[id]? = none := List.getElem?_eq_none_iff.mpr hgt.le
    exact .still (by rw [box, box, hnone, hnone'])

theorem target_eq {call id : ℕ} {pub : Publishing} {rest : List ℕ} {sub : Subscription}
    (hpub : b.publishing[call]? = some pub) (htargets : pub.targets = id :: rest)
    (hsub : b.subs[id]? = some sub) : b.target call = some (pub.msg, id, sub) := by
  simp [target, hpub, htargets, hsub]

theorem subs_of_target {call id : ℕ} {msg : Message} {sub : Subscription}
    (htarget : b.target call = some (msg, id, sub)) : b.subs[id]? = some sub := by
  unfold target at htarget
  cases hpub : b.publishing[call]? with
  | none => simp [hpub] at htarget
  | some pub =>
      cases htargets : pub.targets with
      | nil => simp [hpub, htargets] at htarget
      | cons other rest =>
          simp only [hpub, htargets] at htarget
          obtain ⟨found, hfound, hsame⟩ := Option.map_eq_some_iff.mp htarget
          simp only [Prod.mk.injEq] at hsame
          obtain ⟨_, rfl, rfl⟩ := hsame
          exact hfound

theorem offer_of_full {sub : Subscription} {msg : Message} (hfull : sub.ch.length = sub.buffer) :
    sub.offer msg = { sub with dropped := sub.dropped + 1 } := by
  rw [Subscription.offer, if_neg hfull.not_lt]

theorem offer_of_room {sub : Subscription} {msg : Message} (hroom : sub.ch.length < sub.buffer) :
    sub.offer msg = { sub with ch := sub.ch ++ [msg] } := by
  rw [Subscription.offer, if_pos hroom]

theorem effect_send {call : ℕ} (hfiled : b.Filed) (id : ℕ)
    (hbound : ∀ sub, b.box id = some sub → sub.ch.length ≤ sub.buffer)
    (hstep : b.send call = some next) : Effect id b next (entries id b (.send call)) := by
  obtain ⟨pub, other, rest, sub, hpub, htargets, hsub, hcase⟩ := send_eq_some hstep
  simp only [entries, target_eq hpub htargets hsub]
  rcases hcase with ⟨hclosed, rfl⟩ | ⟨hopen, rfl⟩
  · rw [if_neg fun hboth => hboth.2 hclosed]
    exact .still rfl
  · have hnext := box_setSub hsub (sub.offer pub.msg) id
    by_cases heq : other = id
    · subst heq
      rw [if_pos ⟨rfl, hopen⟩]
      rw [if_pos rfl] at hnext
      have hbox := box_of_subs hsub
      have htopic : pub.msg.topic = sub.topic := by
        have haddressed := hfiled.addressed pub (List.mem_of_getElem? hpub) other
          (by simp [htargets])
        simpa [Broker.topic, hsub, eq_comm] using haddressed
      by_cases hfull : sub.ch.length = sub.buffer
      · rw [if_pos hfull]
        refine .missed _ pub.msg hbox htopic (hnext.trans ?_)
        rw [offer_of_full hfull]
      · rw [if_neg hfull]
        have hle : sub.ch.length ≤ sub.buffer :=
          hbound { sub with phase := .subscribed } hbox
        have hroom : sub.ch.length < sub.buffer := lt_of_le_of_ne hle hfull
        refine .passed _ pub.msg hbox hroom htopic (hnext.trans ?_)
        rw [offer_of_room hroom]
    · rw [if_neg fun hboth => heq hboth.1]
      rw [if_neg (Ne.symm heq)] at hnext
      exact .still hnext

theorem effect_receive {other : ℕ} (id : ℕ) (hstep : b.receive other = some next) :
    Effect id b next (entries id b (.receive other)) := by
  obtain ⟨sub, msg, rest, hsub, hch, rfl⟩ := receive_eq_some hstep
  have hnext := box_setSub hsub { sub with ch := rest } id
  simp only [entries]
  by_cases heq : other = id
  · subst heq
    rw [if_pos rfl] at hnext ⊢
    rw [hsub, Option.bind_some, hch]
    exact .received _ msg rest (box_of_subs hsub) hch hnext
  · rw [if_neg heq]
    rw [if_neg (Ne.symm heq)] at hnext
    exact .still hnext

theorem step_effect {a : Action} (hfiled : b.Filed) (id : ℕ)
    (hbound : ∀ sub, b.box id = some sub → sub.ch.length ≤ sub.buffer)
    (hstep : b.step a = some next) : Effect id b next (entries id b a) := by
  unfold Broker.step at hstep
  split_ifs at hstep
  cases a with
  | subscribe topic buffer =>
      cases hstep
      exact effect_subscribe id topic buffer
  | publish topic payload targets =>
      obtain ⟨_, _, rfl⟩ := publish_eq_some hstep
      exact .still rfl
  | send call => exact effect_send hfiled id hbound hstep
  | receive other => exact effect_receive id hstep
  | remove other =>
      obtain ⟨sub, hsub, _, rfl⟩ := remove_eq_some hstep
      exact .still (box_setPhase hsub .removed id)
  | close other =>
      obtain ⟨sub, hsub, _, rfl⟩ := close_eq_some hstep
      exact .still (box_setPhase hsub .closed id)

theorem publishing_step {a : Action} {call : ℕ} {pub : Publishing}
    (hpub : b.publishing[call]? = some pub) (hstep : b.step a = some next) :
    ∃ later, next.publishing[call]? = some later ∧ later.msg = pub.msg ∧
      later.count = pub.count := by
  unfold Broker.step at hstep
  split_ifs at hstep
  cases a with
  | subscribe topic buffer =>
      cases hstep
      exact ⟨pub, hpub, rfl, rfl⟩
  | publish topic payload targets =>
      obtain ⟨_, _, rfl⟩ := publish_eq_some hstep
      have hlt := (List.getElem?_eq_some_iff.mp hpub).1
      exact ⟨pub, (List.getElem?_append_left hlt).trans hpub, rfl, rfl⟩
  | send other =>
      obtain ⟨sending, id, rest, sub, hsending, _, _, ⟨_, rfl⟩ | ⟨_, rfl⟩⟩ := send_eq_some hstep
      · exact ⟨pub, hpub, rfl, rfl⟩
      · by_cases heq : other = call
        · subst heq
          have hsame : sending = pub := Option.some.inj (hsending.symm.trans hpub)
          subst hsame
          have hlt := (List.getElem?_eq_some_iff.mp hpub).1
          exact ⟨_, List.getElem?_set_self hlt, rfl, rfl⟩
        · exact ⟨pub, (List.getElem?_set_ne heq).trans hpub, rfl, rfl⟩
  | receive id =>
      obtain ⟨_, _, _, _, _, rfl⟩ := receive_eq_some hstep
      exact ⟨pub, hpub, rfl, rfl⟩
  | remove id =>
      obtain ⟨_, _, _, rfl⟩ := remove_eq_some hstep
      exact ⟨pub, hpub, rfl, rfl⟩
  | close id =>
      obtain ⟨_, _, _, rfl⟩ := close_eq_some hstep
      exact ⟨pub, hpub, rfl, rfl⟩

def misses (b : Broker) : Action → List (ℕ × ℕ)
  | .send call =>
      match b.target call with
      | none => []
      | some (_, id, sub) =>
          if sub.phase = .closed ∨ sub.ch.length < sub.buffer then [] else [(call, id)]
  | _ => []

theorem countP_misses {a : Action} (id : ℕ)
    (hbound : ∀ sub, b.box id = some sub → sub.ch.length ≤ sub.buffer) :
    (b.misses a).countP (fun miss => miss.2 = id) = (missed (entries id b a)).length := by
  cases a with
  | send call =>
      cases htarget : b.target call with
      | none => simp [misses, entries, htarget, missed]
      | some found =>
          obtain ⟨msg, other, sub⟩ := found
          simp only [misses, entries, htarget]
          by_cases heq : other = id
          · subst heq
            have hle : sub.ch.length ≤ sub.buffer :=
              hbound { sub with phase := .subscribed } (box_of_subs (subs_of_target htarget))
            by_cases hclosed : sub.phase = .closed
            · simp [hclosed, missed]
            · by_cases hfull : sub.ch.length = sub.buffer
              · simp [hclosed, hfull, missed]
              · have hroom : sub.ch.length < sub.buffer := lt_of_le_of_ne hle hfull
                simp [hclosed, hfull, hroom, missed]
          · by_cases hskip : sub.phase = .closed ∨ sub.ch.length < sub.buffer
            · simp [hskip, heq, missed]
            · simp [hskip, heq, missed]
  | receive other =>
      unfold misses entries
      by_cases heq : other = id
      · subst heq
        cases b.subs[other]?.bind fun sub => sub.ch.head? <;> simp [missed]
      · simp [heq, missed]
  | subscribe topic buffer => rfl
  | publish topic payload targets => rfl
  | remove other => rfl
  | close other => rfl

end Broker

/-! ## The counters -/

/-- The broker with the counters that `Dropped` reads, and the calls of `Publish`
that have found a full buffer and have still to count it, with the subscription. -/
structure Counters where
  broker : Broker
  dropped : ℕ → UInt64
  counting : List (ℕ × ℕ)

namespace Counters

inductive Action where
  | broker (a : PubSub.Action)
  | count (call id : ℕ)
  deriving DecidableEq, Repr

/-- A call of `Publish` that has still to count sends nothing. -/
def Busy (c : Counters) : PubSub.Action → Prop
  | .send call => call ∈ c.counting.map Prod.fst
  | _ => False

instance (c : Counters) : (a : PubSub.Action) → Decidable (c.Busy a)
  | .send call => inferInstanceAs (Decidable (call ∈ c.counting.map Prod.fst))
  | .subscribe _ _ | .publish _ _ _ | .receive _ | .remove _ | .close _ =>
      inferInstanceAs (Decidable False)

def step (c : Counters) : Action → Option Counters
  | .broker a =>
      if c.Busy a then none
      else
        (c.broker.step a).map fun b =>
          { c with broker := b, counting := c.counting ++ c.broker.misses a }
  | .count call id =>
      if (call, id) ∈ c.counting then
        some { c with
          dropped := Function.update c.dropped id (c.dropped id + 1)
          counting := c.counting.erase (call, id) }
      else none

def new : Counters := ⟨.new, fun _ => 0, []⟩

def entries (id : ℕ) (c : Counters) : Action → List (Entry Message)
  | .broker a => c.broker.entries id a
  | .count _ other => if other = id then [.counted] else []

/-- The sends to the subscription that have found it full and are not counted. -/
def waiting (c : Counters) (id : ℕ) : ℕ := c.counting.countP fun miss => miss.2 = id

structure Balanced (id : ℕ) (c : Counters) (log : List (Entry Message)) : Prop where
  absent : c.broker.box id = none → log = [] ∧ c.waiting id = 0
  present : ∀ sub, c.broker.box id = some sub →
    Conserved sub.buffer log sub.ch (c.waiting id) ∧
      (∀ msg ∈ sent log, msg.topic = sub.topic) ∧ sub.dropped = (missed log).length
  dropped : c.dropped id = UInt64.ofNat (counted log)

variable {c next : Counters}

theorem balanced_new (id : ℕ) : Balanced id new [] where
  absent := fun _ => ⟨rfl, rfl⟩
  present := by
    intro sub hbox
    simp [new, Broker.box, Broker.new] at hbox
  dropped := rfl

theorem broker_eq_some {a : PubSub.Action} (hstep : c.step (.broker a) = some next) :
    ∃ b, c.broker.step a = some b ∧
      next = { c with broker := b, counting := c.counting ++ c.broker.misses a } := by
  simp only [step] at hstep
  split_ifs at hstep
  obtain ⟨b, hb, rfl⟩ := Option.map_eq_some_iff.mp hstep
  exact ⟨b, hb, rfl⟩

theorem count_eq_some {call id : ℕ} (hstep : c.step (.count call id) = some next) :
    (call, id) ∈ c.counting ∧ next = { c with
      dropped := Function.update c.dropped id (c.dropped id + 1)
      counting := c.counting.erase (call, id) } := by
  simp only [step] at hstep
  split_ifs at hstep with hmem
  exact ⟨hmem, (Option.some.inj hstep).symm⟩

namespace Balanced

variable {id : ℕ} {log : List (Entry Message)}

theorem forall_sent {topic : Key} {msg : Message} {entry : Entry Message}
    (hsent : ∀ msg ∈ sent log, msg.topic = topic) (htopic : msg.topic = topic)
    (hentry : entry = .passed msg ∨ entry = .missed msg) :
    ∀ msg ∈ sent (log ++ [entry]), msg.topic = topic := by
  intro other hother
  rw [sent_append] at hother
  rcases List.mem_append.mp hother with hother | hother
  · exact hsent other hother
  · have hsame : other = msg := by
      rcases hentry with rfl | rfl <;> simpa [sent] using hother
    rw [hsame]
    exact htopic

theorem bounded (hbalanced : Balanced id c log) :
    ∀ sub, c.broker.box id = some sub → sub.ch.length ≤ sub.buffer :=
  fun sub hbox => (hbalanced.present sub hbox).1.bounded

theorem become {b : Broker} {counting : List (ℕ × ℕ)} {sub : Subscription}
    (hnext : b.box id = some sub)
    (hconserved : Conserved sub.buffer log sub.ch (counting.countP fun miss => miss.2 = id))
    (hsent : ∀ msg ∈ sent log, msg.topic = sub.topic)
    (hmissed : sub.dropped = (missed log).length)
    (hdropped : c.dropped id = UInt64.ofNat (counted log)) :
    Balanced id { c with broker := b, counting := counting } log where
  absent := fun hnone => by simp [hnext] at hnone
  present := by
    intro other hother
    have hsame : sub = other := Option.some.inj (hnext.symm.trans hother)
    subst hsame
    exact ⟨hconserved, hsent, hmissed⟩
  dropped := hdropped

theorem effect {b : Broker} {counting : List (ℕ × ℕ)} {new : List (Entry Message)}
    (hbalanced : Balanced id c log) (heffect : Broker.Effect id c.broker b new)
    (hwaiting : counting.countP (fun miss => miss.2 = id) =
      c.waiting id + (missed new).length) :
    Balanced id { c with broker := b, counting := counting } (log ++ new) := by
  have hdropped := hbalanced.dropped
  cases heffect with
  | still hbox =>
      rw [List.append_nil]
      refine ⟨?_, ?_, hdropped⟩
      · rw [hbox, waiting, hwaiting]
        exact hbalanced.absent
      · rw [hbox, waiting, hwaiting]
        exact hbalanced.present
  | joined topic buffer hbox hnext =>
      obtain ⟨rfl, hzero⟩ := hbalanced.absent hbox
      refine become hnext ?_ (fun _ hmem => absurd hmem List.not_mem_nil) rfl hdropped
      rw [hwaiting, hzero]
      exact Conserved.nil buffer
  | passed sub msg hbox hroom htopic hnext =>
      obtain ⟨hconserved, hsent, hmissed⟩ := hbalanced.present sub hbox
      refine become hnext ?_ (forall_sent hsent htopic (Or.inl rfl)) ?_ ?_
      · rw [hwaiting]
        exact hconserved.pass hroom
      · rw [missed_append]
        simpa [missed] using hmissed
      · rw [counted_append]
        exact hdropped
  | missed sub msg hbox htopic hnext =>
      obtain ⟨hconserved, hsent, hmissed⟩ := hbalanced.present sub hbox
      refine become hnext ?_ (forall_sent hsent htopic (Or.inr rfl)) ?_ ?_
      · rw [hwaiting]
        exact hconserved.miss
      · rw [missed_append, List.length_append, ← hmissed]
        rfl
      · rw [counted_append]
        exact hdropped
  | received sub msg rest hbox hch hnext =>
      obtain ⟨hconserved, hsent, hmissed⟩ := hbalanced.present sub hbox
      rw [hch] at hconserved
      refine become hnext ?_ ?_ ?_ ?_
      · rw [hwaiting]
        exact hconserved.receive
      · rw [sent_append]
        simpa [sent] using hsent
      · rw [missed_append]
        simpa [missed] using hmissed
      · rw [counted_append]
        exact hdropped

theorem broker {a : PubSub.Action} (hbalanced : Balanced id c log) (hfiled : c.broker.Filed)
    (hstep : c.step (.broker a) = some next) :
    Balanced id next (log ++ c.entries id (.broker a)) := by
  obtain ⟨b, hb, rfl⟩ := broker_eq_some hstep
  apply hbalanced.effect (Broker.step_effect hfiled id hbalanced.bounded hb)
  rw [List.countP_append, Broker.countP_misses id hbalanced.bounded]
  rfl

theorem count {call other : ℕ} (hbalanced : Balanced id c log)
    (hstep : c.step (.count call other) = some next) :
    Balanced id next (log ++ c.entries id (.count call other)) := by
  obtain ⟨hmem, rfl⟩ := count_eq_some hstep
  have herase := (List.perm_cons_erase hmem).countP_eq fun miss => miss.2 = id
  rw [List.countP_cons] at herase
  by_cases heq : other = id
  · subst heq
    rw [if_pos (decide_eq_true rfl)] at herase
    rw [entries, if_pos rfl]
    refine ⟨?_, ?_, ?_⟩
    · intro hnone
      have hzero := (hbalanced.absent hnone).2
      rw [waiting, herase] at hzero
      omega
    · intro sub hbox
      obtain ⟨hconserved, hsent, hmissed⟩ := hbalanced.present sub hbox
      rw [waiting, herase] at hconserved
      refine ⟨hconserved.count, ?_, ?_⟩
      · rw [sent_append]
        simpa [sent] using hsent
      · rw [missed_append]
        simpa [missed] using hmissed
    · show Function.update c.dropped other (c.dropped other + 1) other = _
      rw [Function.update_self, counted_append, hbalanced.dropped]
      exact (UInt64.ofNat_add _ _).symm
  · have hfalse : ¬ decide (other = id) = true := by simpa using heq
    rw [if_neg hfalse, Nat.add_zero] at herase
    rw [entries, if_neg heq, List.append_nil]
    refine ⟨?_, ?_, ?_⟩
    · rw [waiting, ← herase]
      exact hbalanced.absent
    · rw [waiting, ← herase]
      exact hbalanced.present
    · show Function.update c.dropped other (c.dropped other + 1) id = _
      rw [Function.update_of_ne (Ne.symm heq)]
      exact hbalanced.dropped

end Balanced

/-! ## The balance of a run -/

/-- The account of a subscription: its log, what `Dropped` returns, and how many of
its sends have still to count a drop. -/
structure Account (log : List (Entry Message)) (dropped : UInt64) (waiting : ℕ)
    (sub : Subscription) : Prop where
  /-- What was received and what is buffered was sent while there was room. -/
  inOrder : received log ++ sub.ch = passed log
  total : UInt64.ofNat ((received log).length + sub.ch.length) + dropped =
    UInt64.ofNat (completed log)
  /-- As numbers, unless the counter has wrapped. -/
  asNumbers : counted log < 2 ^ 64 →
    (received log).length + sub.ch.length + dropped.toNat = completed log
  /-- Every send is over or about to count. -/
  sends : (sent log).length = completed log + waiting
  bounded : sub.ch.length ≤ sub.buffer
  topic : ∀ msg ∈ sent log, msg.topic = sub.topic
  /-- The broker's own count, which is made at once. -/
  atOnce : sub.dropped = counted log + waiting

variable {actions : List Action} {final : Counters}

theorem filed_step {a : Action} (hfiled : c.broker.Filed) (hstep : c.step a = some next) :
    next.broker.Filed := by
  cases a with
  | broker a =>
      obtain ⟨b, hb, rfl⟩ := broker_eq_some hstep
      exact hfiled.step hb
  | count call id =>
      obtain ⟨_, rfl⟩ := count_eq_some hstep
      exact hfiled

theorem Balanced.step {id : ℕ} {log : List (Entry Message)} {a : Action}
    (hbalanced : Balanced id c log) (hfiled : c.broker.Filed) (hstep : c.step a = some next) :
    Balanced id next (log ++ c.entries id a) := by
  cases a with
  | broker a => exact hbalanced.broker hfiled hstep
  | count call other => exact hbalanced.count hstep

theorem balanced_of_run (hrun : run step new actions = some final) (id : ℕ) :
    Balanced id final (observe step (entries id) new actions) := by
  have hstart : new.broker.Filed ∧ Balanced id new [] := ⟨Broker.filed_new, balanced_new id⟩
  have hbalanced := run_invariant_seen step (entries id)
    (I := fun c log => c.broker.Filed ∧ Balanced id c log)
    (fun _ _ _ _ hinv hstep => ⟨filed_step hinv.1 hstep, hinv.2.step hinv.1 hstep⟩) hstart hrun
  rw [List.nil_append] at hbalanced
  exact hbalanced.2

theorem Balanced.account {id : ℕ} {log : List (Entry Message)} {sub : Subscription}
    (hbalanced : Balanced id c log) (hsub : c.broker.subs[id]? = some sub) :
    Account log (c.dropped id) (c.waiting id) sub := by
  obtain ⟨hconserved, hsent, hmissed⟩ := hbalanced.present _ (Broker.box_of_subs hsub)
  exact {
    inOrder := hconserved.inOrder
    total := by
      rw [hbalanced.dropped, ← UInt64.ofNat_add, hconserved.total]
    asNumbers := by
      intro hsmall
      rw [hbalanced.dropped, UInt64.toNat_ofNat_of_lt' hsmall, hconserved.total]
    sends := hconserved.length_sent_eq
    bounded := hconserved.bounded
    topic := hsent
    atOnce := hmissed.trans hconserved.waiting }

theorem publishing_of_run {call : ℕ} {pub : Publishing} (hrun : run step c actions = some final)
    (hpub : c.broker.publishing[call]? = some pub) :
    ∃ later, final.broker.publishing[call]? = some later ∧ later.msg = pub.msg ∧
      later.count = pub.count := by
  refine run_invariant step (I := fun c => ∃ later, c.broker.publishing[call]? = some later ∧
    later.msg = pub.msg ∧ later.count = pub.count) ?_ ⟨pub, hpub, rfl, rfl⟩ hrun
  rintro s a next ⟨before, hbefore, hmsg, hcount⟩ hstep
  cases a with
  | broker a =>
      obtain ⟨b, hb, rfl⟩ := broker_eq_some hstep
      obtain ⟨later, hlater, hmsg', hcount'⟩ := Broker.publishing_step hbefore hb
      exact ⟨later, hlater, hmsg'.trans hmsg, hcount'.trans hcount⟩
  | count other id =>
      obtain ⟨_, rfl⟩ := count_eq_some hstep
      exact ⟨before, hbefore, hmsg, hcount⟩

/-- In every interleaving each subscription has its account in order, and a call of
`Publish` returns the number of subscriptions that its topic had when it copied
them. -/
theorem messages_accounted (hrun : run step new actions = some final) :
    (∀ id sub, final.broker.subs[id]? = some sub →
      Account (observe step (entries id) new actions) (final.dropped id) (final.waiting id)
        sub) ∧
    ∀ before topic payload targets after copied,
      actions = before ++ .broker (.publish topic payload targets) :: after →
      run step new before = some copied →
      ∃ pub, final.broker.publishing[copied.broker.publishing.length]? = some pub ∧
        pub.msg = ⟨topic, payload⟩ ∧ pub.count = (copied.broker.subscriptions topic).card := by
  refine ⟨fun id sub hsub => (balanced_of_run hrun id).account hsub, ?_⟩
  intro before topic payload targets after copied hsplit hcopied
  rw [hsplit, run_append_eq_some] at hrun
  obtain ⟨middle, hmiddle, hrest⟩ := hrun
  have hsame : middle = copied := Option.some.inj (hmiddle.symm.trans hcopied)
  subst hsame
  obtain ⟨next, hstep, hafter⟩ := (run_cons_eq_some step).mp hrest
  have hfiled : middle.broker.Filed :=
    run_invariant step (I := fun c => c.broker.Filed) (fun _ _ _ hinv hs => filed_step hinv hs)
      Broker.filed_new hcopied
  obtain ⟨b, hb, rfl⟩ := broker_eq_some hstep
  unfold Broker.step at hb
  split_ifs at hb
  obtain ⟨hnodup, horder, rfl⟩ := Broker.publish_eq_some hb
  have hcount : targets.length = (middle.broker.subscriptions topic).card := by
    rw [← hfiled.subscribers_eq, ← horder, List.toFinset_card_of_nodup hnodup]
  obtain ⟨later, hlater, hmsg, hresult⟩ :=
    publishing_of_run hafter (List.getElem?_concat_length)
  exact ⟨later, hlater, hmsg, hresult.trans hcount⟩

def secondDropped : List Action :=
  [.broker (.subscribe [116] 1), .broker (.publish [116] [109] [0]),
    .broker (.publish [116] [110] [0]), .broker (.send 0), .broker (.send 1),
    .broker (.receive 0), .count 1 0]

theorem messages_accounted_secondDropped :
    ∃ final sub, run step new secondDropped = some final ∧
      final.broker.subs[0]? = some sub ∧
      Account (observe step (entries 0) new secondDropped) (final.dropped 0) (final.waiting 0)
        sub ∧
      received (observe step (entries 0) new secondDropped) = [⟨[116], [109]⟩] ∧
      final.dropped 0 = 1 ∧ completed (observe step (entries 0) new secondDropped) = 2 :=
  ⟨_, _, rfl, rfl, (messages_accounted rfl).1 0 _ rfl, rfl, rfl, rfl⟩

end Counters

end PubSub
end DistCache
