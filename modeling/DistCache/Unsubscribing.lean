import DistCache.TopicForwarders

/-!
# What comes after an unsubscription

`UNSUBSCRIBE` confirms as soon as the subscription is closed.  What its forwarder
has taken or finds in the channel is written behind the confirmation, and when the
topic has been subscribed again, the two forwarders of the topic write in any order.

Unsubscribing is final, and the messages of a topic are written in the order in
which they were sent, exactly if the forwarders of the topic have nothing left at
each confirmation.
-/

namespace DistCache
namespace CacheServer

open Transition PubSub

namespace Listener

variable {c next : Listener} {a : Action}

/-! ## What an unsubscription promises -/

def sentOn (topic : Bytes) (trace : List Mark) : List Message :=
  trace.filterMap fun
    | .sent msg => if msg.topic = topic then some msg else none
    | _ => none

def writtenOn (topic : Bytes) (trace : List Mark) : List Message :=
  trace.filterMap fun
    | .written msg => if msg.topic = topic then some msg else none
    | _ => none

/-- The unsubscription of the topic has been confirmed, and the topic has not been
subscribed again. -/
def Ended (topic : Bytes) (trace : List Mark) : Prop :=
  ∃ before count after, trace = before ++ .confirmed (.unsubscribe topic) count :: after ∧
    Mark.subscribed topic ∉ after

/-- No message of the topic is written after its unsubscription. -/
def Prompt (topic : Bytes) (trace : List Mark) : Prop :=
  ∀ before msg after, trace = before ++ .written msg :: after → msg.topic = topic →
    ¬ Ended topic before

/-- The messages are also written in the order in which they were sent. -/
def Final (topic : Bytes) (trace : List Mark) : Prop :=
  Prompt topic trace ∧ (writtenOn topic trace).Sublist (sentOn topic trace)

def Serving (topic : Bytes) (c : Listener) (id : ℕ) : Prop :=
  id ∈ c.forwarders ∧ c.broker.topic id = some topic

def Drained (topic : Bytes) (c : Listener) : Prop :=
  ∀ id, c.Serving topic id → c.waiting id = []

instance (topic : Bytes) (c : Listener) : Decidable (c.Drained topic) :=
  decidable_of_iff (∀ id ∈ c.forwarders, c.broker.topic id = some topic → c.waiting id = [])
    ⟨fun hall id hid => hall id hid.1 hid.2,
      fun hdrained id hid htopic => hdrained id ⟨hid, htopic⟩⟩

def ConfirmsDrained (topic : Bytes) (c : Listener) : Action → Prop
  | .confirm => ∀ count, c.stage = .confirming (.unsubscribe topic) count → c.Drained topic
  | _ => True

instance (topic : Bytes) (c : Listener) (a : Action) : Decidable (c.ConfirmsDrained topic a) :=
  match a with
  | .confirm =>
      match hstage : c.stage with
      | .confirming request count =>
          decidable_of_iff (request = .unsubscribe topic → c.Drained topic)
            ⟨fun hdrained n hn => hdrained (Stage.confirming.inj (hstage.symm.trans hn)).1,
              fun hall hrequest => hall count (hrequest ▸ hstage)⟩
      | .ready => isTrue fun n hn => by rw [hstage] at hn; contradiction
      | .closing other id => isTrue fun n hn => by rw [hstage] at hn; contradiction
  | .doSubscribe _ | .doUnsubscribe _ _ | .handle | .close | .take _ | .forward _ | .others _ =>
      isTrue trivial

/-! ## The trace -/

section Trace

variable {topic : Bytes} {trace : List Mark} {mark : Mark}

theorem sentOn_append (trace more : List Mark) :
    sentOn topic (trace ++ more) = sentOn topic trace ++ sentOn topic more :=
  List.filterMap_append

theorem writtenOn_append (trace more : List Mark) :
    writtenOn topic (trace ++ more) = writtenOn topic trace ++ writtenOn topic more :=
  List.filterMap_append

theorem not_ended_nil : ¬ Ended topic [] := by
  rintro ⟨before, count, after, hsplit, _⟩
  simp at hsplit

theorem ended_snoc (hended : Ended topic (trace ++ [mark])) :
    (∃ count, mark = .confirmed (.unsubscribe topic) count) ∨
      mark ≠ .subscribed topic ∧ Ended topic trace := by
  obtain ⟨before, count, after, hsplit, hnone⟩ := hended
  rcases List.eq_nil_or_concat after with rfl | ⟨middle, last, rfl⟩
  · obtain ⟨_, heq⟩ := List.append_inj' hsplit rfl
    exact Or.inl ⟨count, List.singleton_inj.mp heq⟩
  · right
    rw [List.concat_eq_append, ← List.cons_append, ← List.append_assoc] at hsplit
    obtain ⟨htrace, hlast⟩ := List.append_inj' hsplit rfl
    rw [List.singleton_inj.mp hlast]
    rw [List.concat_eq_append, List.mem_append, not_or] at hnone
    refine ⟨?_, before, count, middle, htrace, hnone.1⟩
    rintro rfl
    exact hnone.2 List.mem_cons_self

theorem ended_confirmed (trace : List Mark) (count : ℕ) :
    Ended topic (trace ++ [.confirmed (.unsubscribe topic) count]) :=
  ⟨trace, count, [], rfl, List.not_mem_nil⟩

theorem Prompt.snoc (hprompt : Prompt topic trace)
    (hmark : ∀ msg, mark = .written msg → msg.topic = topic → ¬ Ended topic trace) :
    Prompt topic (trace ++ [mark]) := by
  intro before msg after hsplit htopic
  rcases List.eq_nil_or_concat after with rfl | ⟨middle, last, rfl⟩
  · obtain ⟨rfl, heq⟩ := List.append_inj' hsplit rfl
    exact hmark msg (List.singleton_inj.mp heq) htopic
  · rw [List.concat_eq_append, ← List.cons_append, ← List.append_assoc] at hsplit
    obtain ⟨htrace, _⟩ := List.append_inj' hsplit rfl
    exact hprompt before msg middle htrace htopic

end Trace

/-! ## One topic -/

def Placed (topic : Bytes) (c : Listener) (id : ℕ) : Prop :=
  c.subs.lookup topic = some id ∨
    topic ∉ c.subs ∧ ∃ count, c.stage = .confirming (.unsubscribe topic) count

/-- What is still to be written of the topic: nothing, or what one forwarder alone
has to write. -/
inductive Serves (topic : Bytes) (c : Listener) : List Message → Prop where
  | gone (hsubs : topic ∉ c.subs) (hdrained : c.Drained topic) : Serves topic c []
  | alone (id : ℕ) (hid : c.Serving topic id)
      (hothers : ∀ other, c.Serving topic other → other ≠ id → c.waiting other = [])
      (hplaced : c.Placed topic id) : Serves topic c (c.waiting id)

def Untouched (topic : Bytes) (c next : Listener) : Prop :=
  ∀ id, (next.Serving topic id ↔ c.Serving topic id) ∧
    (c.Serving topic id → next.waiting id = c.waiting id)

structure Undisturbed (topic : Bytes) (c next : Listener) : Prop where
  same : Untouched topic c next
  gone : topic ∉ c.subs → topic ∉ next.subs
  placed : ∀ id, c.Placed topic id → next.Placed topic id

variable {topic : Bytes} {pending : List Message}

theorem mem_of_lookup {id : ℕ} (hlookup : c.subs.lookup topic = some id) : topic ∈ c.subs :=
  AList.lookup_isSome.mp (by rw [hlookup]; rfl)

theorem Drained.keep (hdrained : c.Drained topic) (hsame : Untouched topic c next) :
    next.Drained topic := by
  intro id hid
  have hbefore := (hsame id).1.mp hid
  exact ((hsame id).2 hbefore).trans (hdrained id hbefore)

theorem Untouched.undisturbed (hsame : Untouched topic c next) (hsubs : next.subs = c.subs)
    (hstage : next.stage = c.stage) : Undisturbed topic c next := by
  refine ⟨hsame, ?_, ?_⟩
  · rw [hsubs]
    exact id
  · intro id hplaced
    rw [Placed, hsubs, hstage]
    exact hplaced

theorem Serves.transfer (hserves : Serves topic c pending)
    (hquiet : Undisturbed topic c next) : Serves topic next pending := by
  obtain ⟨hsame, hgone, hplaced⟩ := hquiet
  cases hserves with
  | gone hnot hdrained => exact .gone (hgone hnot) (hdrained.keep hsame)
  | alone id hid hothers hplace =>
      rw [← (hsame id).2 hid]
      refine .alone id ((hsame id).1.mpr hid) ?_ (hplaced id hplace)
      intro other hother hne
      have hbefore := (hsame other).1.mp hother
      exact ((hsame other).2 hbefore).trans (hothers other hbefore hne)

theorem Serves.eq_nil (hserves : Serves topic c pending) (hdrained : c.Drained topic) :
    pending = [] := by
  cases hserves with
  | gone _ _ => rfl
  | alone id hid _ _ => exact hdrained id hid

theorem Serves.drained (hserves : Serves topic c pending) (hnot : topic ∉ c.subs)
    (hstage : c.stage = .ready) : c.Drained topic := by
  cases hserves with
  | gone _ hdrained => exact hdrained
  | alone id _ _ hplaced =>
      rcases hplaced with hcurrent | ⟨_, count, hleaving⟩
      · exact absurd (mem_of_lookup hcurrent) hnot
      · rw [hstage] at hleaving
        contradiction

theorem Serves.change (hserves : Serves topic c pending) {id : ℕ} (hid : c.Serving topic id)
    (hbusy : c.waiting id ≠ [] ∨ c.subs.lookup topic = some id)
    (hview : ∀ other, (next.Serving topic other ↔ c.Serving topic other) ∧
      (c.Serving topic other → other ≠ id → next.waiting other = c.waiting other))
    (hplaced : c.Placed topic id → next.Placed topic id) :
    pending = c.waiting id ∧ Serves topic next (next.waiting id) := by
  cases hserves with
  | gone hnot hdrained =>
      rcases hbusy with hbusy | hcurrent
      · exact absurd (hdrained id hid) hbusy
      · exact absurd (mem_of_lookup hcurrent) hnot
  | alone served _ hothers hplace =>
      have heq : id = served := by
        by_contra hne
        rcases hbusy with hbusy | hcurrent
        · exact hbusy (hothers id hid hne)
        · rcases hplace with hserved | ⟨hnot, _⟩
          · exact hne (Option.some.inj (hcurrent.symm.trans hserved))
          · exact hnot (mem_of_lookup hcurrent)
      subst heq
      refine ⟨rfl, .alone id ((hview id).1.mpr hid) ?_ (hplaced hplace)⟩
      intro other hother hne
      have hbefore := (hview other).1.mp hother
      exact ((hview other).2 hbefore hne).trans (hothers other hbefore hne)

structure Orderly (topic : Bytes) (c : Listener) (trace : List Mark) : Prop where
  sound : c.Sound
  inOrder : ∃ pending, Serves topic c pending ∧
    sentOn topic trace = writtenOn topic trace ++ pending
  ended : Ended topic trace → topic ∉ c.subs ∧ c.Drained topic
  prompt : Prompt topic trace

theorem Orderly.final {trace : List Mark} (horderly : Orderly topic c trace) :
    Final topic trace := by
  obtain ⟨pending, _, horder⟩ := horderly.inOrder
  refine ⟨horderly.prompt, ?_⟩
  rw [horder]
  exact List.sublist_append_left _ _

theorem orderly_start (topic : Bytes) : Orderly topic start [] where
  sound := sound_start
  inOrder := ⟨[], .gone (by simp [start]) fun _ hid => absurd hid.1 List.not_mem_nil, rfl⟩
  ended := fun hended => absurd hended not_ended_nil
  prompt := by
    intro before msg after hsplit
    simp at hsplit

/-! ## The steps, for one topic -/

variable {trace : List Mark}

theorem untouched_refl (topic : Bytes) (c : Listener) : Untouched topic c c :=
  fun _ => ⟨Iff.rfl, fun _ => rfl⟩

theorem serving_broker (hsound : c.Sound) {act : PubSub.Action} {b : Broker}
    (hbroker : c.broker.step act = some b) (id : ℕ) :
    Serving topic { c with broker := b } id ↔ c.Serving topic id := by
  unfold Serving
  rw [and_congr_right_iff]
  intro hid
  rw [Broker.topic_step hsound.bounded hsound.filed hbroker (hsound.made id hid)]

theorem untouched_broker (hsound : c.Sound) {act : PubSub.Action} {b : Broker}
    (hbroker : c.broker.step act = some b) (hreceive : ∀ id ∈ c.forwarders, act ≠ .receive id)
    (hquiet : ∀ id msg, c.broker.accepted act = some (id, msg) → ¬ c.Serving topic id) :
    Untouched topic c { c with broker := b } := by
  refine fun id => ⟨serving_broker hsound hbroker id, fun hid => ?_⟩
  rw [waiting_step hsound hbroker hid.1 (hreceive id hid.1)]
  cases haccepted : c.broker.accepted act with
  | none => exact List.append_nil _
  | some entry =>
      have hne : entry.1 ≠ id := by
        rintro rfl
        exact hquiet entry.1 entry.2 haccepted hid
      simp [hne]

theorem untouched_of_none (hsound : c.Sound) {act : PubSub.Action} {b : Broker}
    (hbroker : c.broker.step act = some b) (hreceive : ∀ id ∈ c.forwarders, act ≠ .receive id)
    (hnone : c.broker.accepted act = none) : Untouched topic c { c with broker := b } := by
  apply untouched_broker hsound hbroker hreceive
  intro id msg hsome
  rw [hnone] at hsome
  contradiction

theorem Orderly.silent (horderly : Orderly topic c trace) (hsound : next.Sound)
    (hquiet : Undisturbed topic c next) : Orderly topic next (trace ++ []) := by
  rw [List.append_nil]
  obtain ⟨pending, hserves, horder⟩ := horderly.inOrder
  refine ⟨hsound, ⟨pending, hserves.transfer hquiet, horder⟩, ?_, horderly.prompt⟩
  intro hended
  obtain ⟨hnot, hdrained⟩ := horderly.ended hended
  exact ⟨hquiet.gone hnot, hdrained.keep hquiet.same⟩

theorem Orderly.noted {mark : Mark} (horderly : Orderly topic c trace) (hsound : next.Sound)
    (hmark : sentOn topic [mark] = [] ∧ writtenOn topic [mark] = [])
    (hserves : ∀ pending, Serves topic c pending → Serves topic next pending)
    (hended : Ended topic (trace ++ [mark]) → topic ∉ next.subs ∧ next.Drained topic) :
    Orderly topic next (trace ++ [mark]) := by
  obtain ⟨pending, hpending, horder⟩ := horderly.inOrder
  refine ⟨hsound, ⟨pending, hserves pending hpending, ?_⟩, hended, ?_⟩
  · rw [sentOn_append, writtenOn_append, hmark.1, hmark.2, List.append_nil, List.append_nil]
    exact horder
  · apply horderly.prompt.snoc
    rintro msg rfl htopic
    simp [writtenOn, htopic] at hmark

theorem Orderly.aside {mark : Mark} (horderly : Orderly topic c trace) (hsound : next.Sound)
    (hmark : sentOn topic [mark] = [] ∧ writtenOn topic [mark] = [])
    (hconfirmed : ∀ count, mark ≠ .confirmed (.unsubscribe topic) count)
    (hquiet : Undisturbed topic c next) : Orderly topic next (trace ++ [mark]) := by
  apply horderly.noted hsound hmark
  · exact fun _ hserves => hserves.transfer hquiet
  · intro hended
    rcases ended_snoc hended with ⟨count, heq⟩ | ⟨_, hbefore⟩
    · exact absurd heq (hconfirmed count)
    · obtain ⟨hnot, hdrained⟩ := horderly.ended hbefore
      exact ⟨hquiet.gone hnot, hdrained.keep hquiet.same⟩

theorem Orderly.joined (horderly : Orderly topic c trace) {other : Bytes} {rest : List Request}
    {count : ℕ} {b : Broker} (hstage : c.stage = .ready) (hnew : other ∉ c.subs)
    (hbroker : c.broker.step (.subscribe other 256) = some b) :
    Orderly topic { c with
      broker := b
      requests := rest
      stage := .confirming (.subscribe other) count
      subs := c.subs.insert other c.broker.subs.length
      forwarders := c.forwarders ++ [c.broker.subs.length] } (trace ++ [.subscribed other]) := by
  obtain ⟨_, hfirst, hqueue⟩ := Broker.subs_subscribe hbroker
  have hfresh : c.broker.subs.length ∉ c.forwarders := fun hmem =>
    absurd (horderly.sound.made _ hmem) (lt_irrefl _)
  have hsame : Untouched topic c { c with broker := b } :=
    untouched_of_none horderly.sound hbroker (fun _ _ => by simp) rfl
  by_cases heq : other = topic
  · subst heq
    obtain ⟨pending, hserves, horder⟩ := horderly.inOrder
    have hdrained := hserves.drained hnew hstage
    have hnothing : (waiting { c with broker := b } c.broker.subs.length) = [] := by
      simp [waiting, horderly.sound.untaken _ hfresh, hqueue]
    refine ⟨horderly.sound.joined hnew hbroker, ⟨[], ?_, ?_⟩, ?_, ?_⟩
    · rw [← hnothing]
      refine .alone c.broker.subs.length ⟨List.mem_append_right _ List.mem_cons_self, hfirst⟩ ?_
        (Or.inl (AList.lookup_insert _))
      rintro id ⟨hid, htopic⟩ hne
      rcases List.mem_append.mp hid with hold | hlast
      · exact hdrained.keep hsame id ⟨hold, htopic⟩
      · exact absurd (List.mem_singleton.mp hlast) hne
    · rw [sentOn_append, writtenOn_append, horder, hserves.eq_nil hdrained]
      rfl
    · intro hended
      rcases ended_snoc hended with ⟨_, hmark⟩ | ⟨hne, _⟩
      · contradiction
      · exact absurd rfl hne
    · exact horderly.prompt.snoc fun _ hmark => by contradiction
  · refine horderly.aside (horderly.sound.joined hnew hbroker) ⟨rfl, rfl⟩
      (fun _ hmark => by contradiction) ⟨?_, ?_, ?_⟩
    · intro id
      refine ⟨Iff.trans ⟨?_, ?_⟩ (hsame id).1, (hsame id).2⟩
      · rintro ⟨hid, htopic⟩
        rcases List.mem_append.mp hid with hold | hlast
        · exact ⟨hold, htopic⟩
        · rw [List.mem_singleton.mp hlast] at htopic
          exact absurd (Option.some.inj (hfirst.symm.trans htopic)) heq
      · rintro ⟨hold, htopic⟩
        exact ⟨List.mem_append_left _ hold, htopic⟩
    · intro hnot hmem
      exact hnot ((AList.mem_insert _).mp hmem |>.resolve_left (Ne.symm heq))
    · rintro id (hcurrent | ⟨_, n, hleaving⟩)
      · exact Or.inl ((AList.lookup_insert_ne (Ne.symm heq)).trans hcurrent)
      · rw [hstage] at hleaving
        contradiction

theorem Orderly.written (horderly : Orderly topic c trace) {id : ℕ} {msg : Message}
    (hid : id ∈ c.forwarders) (hmsg : c.taken id = some msg) :
    Orderly topic { c with taken := Function.update c.taken id none }
      (trace ++ [.written msg]) := by
  have hwaiting : msg ∈ c.waiting id := by
    rw [waiting, hmsg]
    exact List.mem_cons_self
  have htopic := horderly.sound.topics id hid msg hwaiting
  have hsound := horderly.sound.written hmsg
  have hothers : ∀ other, other ≠ id →
      waiting { c with taken := Function.update c.taken id none } other = c.waiting other := by
    intro other hne
    rw [waiting_written hmsg other, if_neg hne]
    rfl
  by_cases heq : msg.topic = topic
  · obtain ⟨pending, hserves, horder⟩ := horderly.inOrder
    have hserving : c.Serving topic id := ⟨hid, heq ▸ htopic⟩
    have hbusy : c.waiting id ≠ [] := List.ne_nil_of_mem hwaiting
    have hchange : pending = c.waiting id ∧
        Serves topic { c with taken := Function.update c.taken id none }
          (waiting { c with taken := Function.update c.taken id none } id) :=
      hserves.change hserving (Or.inl hbusy) (fun other => ⟨Iff.rfl, fun _ => hothers other⟩)
        fun hplaced => hplaced
    have hnot : ¬ Ended topic trace := fun hended =>
      hbusy ((horderly.ended hended).2 id hserving)
    refine ⟨hsound, ⟨_, hchange.2, ?_⟩, ?_, ?_⟩
    · rw [sentOn_append, writtenOn_append, horder, hchange.1, waiting_written hmsg id, if_pos rfl]
      simp [sentOn, writtenOn, heq]
    · intro hended
      rcases ended_snoc hended with ⟨_, hmark⟩ | ⟨_, hbefore⟩
      · contradiction
      · exact absurd hbefore hnot
    · exact horderly.prompt.snoc fun _ _ _ => hnot
  · have hsame : Untouched topic c { c with taken := Function.update c.taken id none } := by
      refine fun other => ⟨Iff.rfl, fun hother => hothers other ?_⟩
      rintro rfl
      exact heq (Option.some.inj (htopic.symm.trans hother.2))
    exact horderly.aside hsound (by simp [sentOn, writtenOn, heq])
      (fun _ hmark => by contradiction) (hsame.undisturbed rfl rfl)

theorem Orderly.others (horderly : Orderly topic c trace) {act : PubSub.Action} {b : Broker}
    (hforeign : c.Foreign act) (hbroker : c.broker.step act = some b) :
    Orderly topic { c with broker := b } (trace ++ c.marks (.others act)) := by
  have hreceive : ∀ id ∈ c.forwarders, act ≠ .receive id := by
    rintro id hid rfl
    exact hforeign id hid rfl
  have hsound := horderly.sound.broker hbroker hreceive
  cases haccepted : c.broker.accepted act with
  | none =>
      simp only [marks, haccepted, Option.toList_none, List.filter_nil, List.map_nil]
      have hsame : Untouched topic c { c with broker := b } :=
        untouched_of_none horderly.sound hbroker hreceive haccepted
      exact horderly.silent hsound (hsame.undisturbed rfl rfl)
  | some entry =>
      obtain ⟨id, msg⟩ := entry
      obtain ⟨htopic, hopen⟩ := Broker.accepted_eq_some horderly.sound.filed hbroker haccepted
      have hquiet : ¬ c.Serving topic id → Undisturbed topic c { c with broker := b } := by
        intro hnot
        have hsame : Untouched topic c { c with broker := b } := by
          apply untouched_broker horderly.sound hbroker hreceive
          intro other first hsome
          rw [haccepted] at hsome
          cases hsome
          exact hnot
        exact hsame.undisturbed rfl rfl
      by_cases hid : id ∈ c.forwarders
      · simp only [marks, haccepted, Option.toList_some, List.filter_cons, hid, decide_true,
          if_true, List.filter_nil, List.map_cons, List.map_nil]
        by_cases heq : msg.topic = topic
        · have hserving : c.Serving topic id := ⟨hid, heq ▸ htopic⟩
          have hcurrent := horderly.sound.opened id hid topic hserving.2 hopen
          obtain ⟨pending, hserves, horder⟩ := horderly.inOrder
          have hothers : ∀ other, c.Serving topic other → other ≠ id →
              waiting { c with broker := b } other = c.waiting other := by
            intro other hother hne
            rw [waiting_step horderly.sound hbroker hother.1 (hreceive other hother.1), haccepted]
            simp [Ne.symm hne]
          have hchange : pending = c.waiting id ∧
              Serves topic { c with broker := b } (waiting { c with broker := b } id) :=
            hserves.change hserving (Or.inr hcurrent)
              (fun other => ⟨serving_broker horderly.sound hbroker other, hothers other⟩)
              fun hplaced => hplaced
          refine ⟨hsound, ⟨_, hchange.2, ?_⟩, ?_, ?_⟩
          · rw [sentOn_append, writtenOn_append, horder, hchange.1,
              waiting_step horderly.sound hbroker hid (hreceive id hid), haccepted]
            simp [sentOn, writtenOn, heq]
          · intro hended
            rcases ended_snoc hended with ⟨_, hmark⟩ | ⟨_, hbefore⟩
            · contradiction
            · exact absurd (mem_of_lookup hcurrent) (horderly.ended hbefore).1
          · exact horderly.prompt.snoc fun _ hmark => by contradiction
        · apply horderly.aside hsound (by simp [sentOn, writtenOn, heq])
            (fun _ hmark => by contradiction) (hquiet ?_)
          rintro ⟨_, hother⟩
          exact heq (Option.some.inj (htopic.symm.trans hother))
      · simp only [marks, haccepted, Option.toList_some, List.filter_cons, hid, decide_false,
          Bool.false_eq_true, if_false, List.filter_nil, List.map_nil]
        exact horderly.silent hsound (hquiet fun hserving => hid hserving.1)

theorem Orderly.moves {seen : List Mark} (horderly : Orderly topic c trace)
    (hmoves : Moves c next seen)
    (hdrained : ∀ count, seen = [.confirmed (.unsubscribe topic) count] → c.Drained topic) :
    Orderly topic next (trace ++ seen) := by
  have hsound := horderly.sound.moves hmoves
  have hplaced_of_ready : c.stage = .ready → ∀ {id : ℕ}, c.Placed topic id →
      c.subs.lookup topic = some id := by
    rintro hready id (hcurrent | ⟨_, count, hleaving⟩)
    · exact hcurrent
    · rw [hready] at hleaving
      contradiction
  cases hmoves with
  | command requests hstage =>
      exact horderly.silent hsound ⟨untouched_refl topic c, id, fun _ => id⟩
  | again other rest count hstage hmem =>
      exact horderly.aside hsound ⟨rfl, rfl⟩ (fun _ hmark => by contradiction)
        ⟨untouched_refl topic c, id, fun _ hplaced => Or.inl (hplaced_of_ready hstage hplaced)⟩
  | joined other rest count b hstage hnew hbroker => exact horderly.joined hstage hnew hbroker
  | absent other rest count hstage hlookup =>
      exact horderly.silent hsound
        ⟨untouched_refl topic c, id, fun _ hplaced => Or.inl (hplaced_of_ready hstage hplaced)⟩
  | leaving other rest sub b hstage hlookup hbroker =>
      have hsame : Untouched topic c { c with broker := b } :=
        untouched_of_none horderly.sound hbroker (fun _ _ => by simp) rfl
      exact horderly.silent hsound
        ⟨hsame, id, fun _ hplaced => Or.inl (hplaced_of_ready hstage hplaced)⟩
  | closed other id count b hstage hbroker =>
      have hsame : Untouched topic c { c with broker := b } :=
        untouched_of_none horderly.sound hbroker (fun _ _ => by simp) rfl
      refine horderly.silent hsound
        ⟨hsame, fun hnot hmem => hnot (AList.mem_erase.mp hmem).2, ?_⟩
      intro sub hplaced
      by_cases heq : topic = other
      · subst heq
        exact Or.inr ⟨fun hmem => (AList.mem_erase.mp hmem).1 rfl, count, rfl⟩
      · rcases hplaced with hcurrent | ⟨_, n, hleaving⟩
        · exact Or.inl ((AList.lookup_erase_ne heq).trans hcurrent)
        · rw [hstage] at hleaving
          contradiction
  | confirmed request count hstage =>
      by_cases heq : request = .unsubscribe topic
      · subst heq
        have hdone : c.Drained topic := hdrained count rfl
        have hnot := horderly.sound.confirming topic count hstage
        apply horderly.noted hsound ⟨rfl, rfl⟩
        · intro pending hserves
          rw [hserves.eq_nil hdone]
          exact .gone hnot hdone
        · exact fun _ => ⟨hnot, hdone⟩
      · refine horderly.aside hsound ⟨rfl, rfl⟩ ?_ ⟨untouched_refl topic c, id, ?_⟩
        · intro n hmark
          cases hmark
          exact heq rfl
        · rintro id (hcurrent | ⟨_, n, hleaving⟩)
          · exact Or.inl hcurrent
          · rw [hstage] at hleaving
            cases hleaving
            exact absurd rfl heq
  | taken id msg rest b hid hnone hqueue hnext hbroker =>
      have hsame : Untouched topic c
          { c with broker := b, taken := Function.update c.taken id (some msg) } := by
        refine fun other => ⟨serving_broker horderly.sound hbroker other, fun hother => ?_⟩
        exact waiting_taken horderly.sound hnone hqueue hnext hbroker hother.1
      exact horderly.silent hsound (hsame.undisturbed rfl rfl)
  | written id msg hid hmsg => exact horderly.written hid hmsg
  | others act b hforeign hbroker => exact horderly.others hforeign hbroker

theorem Orderly.step (horderly : Orderly topic c trace) (hdrained : c.ConfirmsDrained topic a)
    (hstep : c.step a = some next) : Orderly topic next (trace ++ c.marks a) := by
  apply horderly.moves (moves_step hstep)
  intro count hseen
  cases a with
  | confirm =>
      apply hdrained count
      cases hstage : c.stage with
      | confirming request n =>
          simp only [marks, hstage] at hseen
          cases hseen
          rfl
      | ready => simp [marks, hstage] at hseen
      | closing other id => simp [marks, hstage] at hseen
  | handle =>
      simp only [marks] at hseen
      split at hseen
      · simp at hseen
      · simp at hseen
  | forward id => cases hmsg : c.taken id <;> simp [marks, hmsg] at hseen
  | others act => cases hentry : c.broker.accepted act <;> simp [marks, hentry] at hseen
  | doSubscribe topics => simp [marks] at hseen
  | doUnsubscribe topics order => simp [marks] at hseen
  | close => simp [marks] at hseen
  | take id => simp [marks] at hseen

/-! ## Whole runs -/

def Action.OfForwarder : Action → Prop
  | .take _ | .forward _ => True
  | _ => False

theorem along_forwarders (topic : Bytes) (c : Listener) {drain : List Action}
    (hdrain : ∀ a ∈ drain, a.OfForwarder) : Along step (ConfirmsDrained topic) c drain := by
  rw [along_iff_forall_split]
  rintro before a after rfl middle _
  have ha := hdrain a (by simp)
  cases a with
  | take id => trivial
  | forward id => trivial
  | _ => contradiction

theorem step_forward (hquiet : c.broker.panicked = false) {id : ℕ} (hid : id ∈ c.forwarders)
    {msg : Message} (hmsg : c.taken id = some msg) :
    c.step (.forward id) = some { c with taken := Function.update c.taken id none } := by
  simp [step, hquiet, hid, hmsg]

theorem step_take (hquiet : c.broker.panicked = false) {id : ℕ} (hid : id ∈ c.forwarders)
    (hnone : c.taken id = none) {sub : Subscription} {msg : Message} {rest : List Message}
    (hsub : c.broker.subs[id]? = some sub) (hch : sub.ch = msg :: rest) :
    c.step (.take id) = some { c with
      broker := c.broker.setSub id { sub with ch := rest }
      taken := Function.update c.taken id (some msg) } := by
  simp [step, take, hquiet, hid, hnone, hsub, hch, Broker.step, Broker.receive]

theorem exists_drain (hsound : c.Sound) (hquiet : c.broker.panicked = false) {id : ℕ}
    (hid : c.Serving topic id) (hbusy : c.waiting id ≠ []) :
    ∃ drain msg final, (∀ a ∈ drain, a.OfForwarder) ∧ run step c drain = some final ∧
      observe step marks c drain = [.written msg] ∧ msg.topic = topic := by
  have htopic : ∀ msg ∈ c.waiting id, msg.topic = topic := fun msg hmsg =>
    Option.some.inj ((hsound.topics id hid.1 msg hmsg).symm.trans hid.2)
  cases hmsg : c.taken id with
  | some msg =>
      have hforward := step_forward hquiet hid.1 hmsg
      refine ⟨[.forward id], msg, _, by simp [Action.OfForwarder],
        (run_cons_eq_some step).mpr ⟨_, hforward, rfl⟩, ?_, htopic msg (by simp [waiting, hmsg])⟩
      rw [observe_cons_of_step step marks hforward]
      simp [marks, hmsg, observe]
  | none =>
      have hqueue : c.broker.queue id ≠ [] := by
        simpa [waiting, hmsg] using hbusy
      obtain ⟨sub, hsub, _⟩ := Option.map_eq_some_iff.mp hid.2
      rw [Broker.queue_of_subs hsub] at hqueue
      obtain ⟨msg, rest, hch⟩ := List.exists_cons_of_ne_nil hqueue
      have htake := step_take hquiet hid.1 hmsg hsub hch
      have hforward := step_forward
        (c := { c with
          broker := c.broker.setSub id { sub with ch := rest }
          taken := Function.update c.taken id (some msg) }) hquiet hid.1
        (Function.update_self id (some msg) c.taken)
      refine ⟨[.take id, .forward id], msg, _, by simp [Action.OfForwarder],
        (run_cons_eq_some step).mpr ⟨_, htake, (run_cons_eq_some step).mpr ⟨_, hforward, rfl⟩⟩,
        ?_, htopic msg (by simp [waiting, Broker.queue_of_subs hsub, hch])⟩
      rw [observe_cons_of_step step marks htake, observe_cons_of_step step marks hforward]
      simp [marks, observe]

theorem step_confirm {request : Request} {count : ℕ}
    (hstage : c.stage = .confirming request count) (hconfirm : c.step .confirm = some next) :
    c.broker.panicked = false ∧ next = { c with stage := .ready } := by
  simp only [step, hstage] at hconfirm
  split_ifs at hconfirm with hpanicked
  exact ⟨Bool.eq_false_iff.mpr hpanicked, (Option.some.inj hconfirm).symm⟩

theorem orderly_of_run {actions : List Action} {final : Listener}
    (halong : Along step (ConfirmsDrained topic) start actions)
    (hrun : run step start actions = some final) :
    Orderly topic final (observe step marks start actions) := by
  have hrule := run_invariant_observe step marks (I := Orderly topic)
    (fun _ _ _ _ horderly hdrained hstep => horderly.step hdrained hstep) (orderly_start topic)
    halong hrun
  rwa [List.nil_append] at hrule

theorem sound_of_run {actions : List Action} {final : Listener}
    (hrun : run step start actions = some final) : final.Sound :=
  run_invariant step (fun _ _ _ hsound hstep => hsound.moves (moves_step hstep)) sound_start hrun

/-- Whatever the forwarders do from any point of a run on, no message of the topic
is written between its unsubscription and the next subscription, and its messages
are written in the order in which they were sent, exactly if each unsubscription of
the topic is confirmed when the forwarders of the topic have nothing left. -/
theorem unsubscribe_final_iff {actions : List Action} {last : Listener} (topic : Bytes)
    (hrun : run step start actions = some last) :
    (∀ before after drain final, actions = before ++ after → (∀ a ∈ drain, a.OfForwarder) →
        run step start (before ++ drain) = some final →
        Final topic (observe step marks start (before ++ drain))) ↔
      Along step (ConfirmsDrained topic) start actions := by
  constructor
  · intro hfinal
    rw [along_iff_forall_split]
    intro before a after hsplit middle hmiddle
    cases a with
    | confirm =>
        intro count hstage id hid
        by_contra hbusy
        subst hsplit
        obtain ⟨reached, hreached, hrest⟩ := (run_append_eq_some step).mp hrun
        rw [hmiddle] at hreached
        cases hreached
        obtain ⟨confirmed, hconfirm, _⟩ := (run_cons_eq_some step).mp hrest
        have hbefore : run step start (before ++ [.confirm]) = some confirmed :=
          (run_append_eq_some step).mpr
            ⟨middle, hmiddle, (run_cons_eq_some step).mpr ⟨confirmed, hconfirm, rfl⟩⟩
        have hseen : observe step marks start (before ++ [.confirm]) =
            observe step marks start before ++ [.confirmed (.unsubscribe topic) count] := by
          rw [observe_append step marks hmiddle, observe_cons_of_step step marks hconfirm]
          simp [marks, hstage, observe]
        have hsound := sound_of_run hbefore
        obtain ⟨hquiet, rfl⟩ := step_confirm hstage hconfirm
        obtain ⟨drain, msg, final, hdrain, hdrained, hwritten, htopic⟩ :=
          exists_drain hsound hquiet hid hbusy
        have hlate := hfinal (before ++ [.confirm]) after drain final (by simp) hdrain
          ((run_append_eq_some step).mpr ⟨_, hbefore, hdrained⟩)
        rw [observe_append step marks hbefore, hseen, hwritten] at hlate
        exact hlate.1 _ msg [] rfl htopic (ended_confirmed _ count)
    | _ => trivial
  · intro halong before after drain final hsplit hdrain hfinal
    apply Orderly.final
    apply orderly_of_run _ hfinal
    rw [along_append]
    refine ⟨?_, fun middle _ => along_forwarders topic middle hdrain⟩
    rw [hsplit, along_append] at halong
    exact halong.1

def joinAndHear : List Action :=
  [.doSubscribe [[116]], .handle, .confirm, .others (.publish [116] [1] [0]), .others (.send 0)]

def hear : List Action := [.take 0, .forward 0]

def leave : List Action := [.doUnsubscribe [[116]] [[116]], .handle, .close, .confirm]

theorem unsubscribe_final_drained :
    Final [116] (observe step marks start (joinAndHear ++ hear ++ leave)) := by
  obtain ⟨last, hrun⟩ : ∃ last, run step start (joinAndHear ++ hear ++ leave) = some last :=
    Option.isSome_iff_exists.mp (by decide +kernel)
  have halong : Along step (ConfirmsDrained [116]) start (joinAndHear ++ hear ++ leave) := by
    decide +kernel
  have hfinal := (unsubscribe_final_iff [116] hrun).mpr halong _ [] [] last
    (List.append_nil _).symm (by simp) (by rw [List.append_nil]; exact hrun)
  rwa [List.append_nil] at hfinal

def joinAgain : List Action :=
  [.doSubscribe [[116]], .handle, .confirm, .others (.publish [116] [2] [1]), .others (.send 1),
    .take 1, .forward 1]

/-- The message in the channel is written behind the confirmation; and after a new
subscription a later message can be written before it. -/
theorem message_after_unsubscribe :
    (run step start (joinAndHear ++ leave ++ hear)).isSome ∧
      ¬ Final [116] (observe step marks start (joinAndHear ++ leave ++ hear)) ∧
      (run step start (joinAndHear ++ leave ++ joinAgain ++ hear)).isSome ∧
      ¬ Final [116] (observe step marks start (joinAndHear ++ leave ++ joinAgain ++ hear)) := by
  have hlate : (run step start (joinAndHear ++ leave ++ hear)).isSome ∧
      observe step marks start (joinAndHear ++ leave ++ hear) =
        ([Mark.subscribed [116], Mark.confirmed (.subscribe [116]) 1, Mark.sent ⟨[116], [1]⟩] ++
          [Mark.confirmed (.unsubscribe [116]) 0]) ++ [Mark.written ⟨[116], [1]⟩] := by
    decide +kernel
  have hback : (run step start (joinAndHear ++ leave ++ joinAgain ++ hear)).isSome ∧
      sentOn [116] (observe step marks start (joinAndHear ++ leave ++ joinAgain ++ hear)) =
        [⟨[116], [1]⟩, ⟨[116], [2]⟩] ∧
      writtenOn [116] (observe step marks start (joinAndHear ++ leave ++ joinAgain ++ hear)) =
        [⟨[116], [2]⟩, ⟨[116], [1]⟩] := by
    decide +kernel
  refine ⟨hlate.1, ?_, hback.1, ?_⟩
  · rintro ⟨hprompt, _⟩
    exact hprompt _ _ [] hlate.2 rfl (ended_confirmed _ 0)
  · rintro ⟨_, hsublist⟩
    rw [hback.2.1, hback.2.2] at hsublist
    exact absurd hsublist (by decide)

end Listener
end CacheServer
end DistCache
