import DistCache.CommandServer

/-!
# The handshake of a subscriber

`SUBSCRIBE` subscribes at the broker, starts the forwarder and then writes the
confirmation, topic by topic.  A message can be written before the confirmation of its
topic, or before that of a later one.  The client discards one reply for each topic it
asked for, whatever the reply is, and passes on the messages after these: all of them
exactly if the server wrote none before its last confirmation.
-/

namespace DistCache
namespace CacheServer

open Resp Transition

/-! ## The connection -/

/-- A connection in the loop of `doSubscribe`: the topics still to do, the topic
and the count that `confirm` has still to write, and the messages that the
forwarders have taken and not written. -/
structure Handshake where
  broker : PubSub.Broker
  topics : List Bytes
  pending : Option (Bytes × ℕ)
  subs : AList fun _ : Key => ℕ
  taken : AList fun _ : Key => PubSub.Message

namespace Handshake

inductive Action where
  | subscribe
  | confirm
  | take (topic : Key)
  | forward (topic : Key)
  | others (a : PubSub.Action)
  deriving DecidableEq, Repr

def subject : PubSub.Action → Option ℕ
  | .receive id => some id
  | .remove id => some id
  | .close id => some id
  | _ => none

/-- The channels of this connection are read by its forwarders only, and no
other connection closes them. -/
def Foreign (h : Handshake) (a : PubSub.Action) : Prop :=
  ∀ sub ∈ h.subs.entries, subject a ≠ some sub.2

instance (h : Handshake) (a : PubSub.Action) : Decidable (h.Foreign a) :=
  inferInstanceAs (Decidable (∀ sub ∈ h.subs.entries, subject a ≠ some sub.2))

def subscribe (h : Handshake) : Option Handshake :=
  match h.pending, h.topics with
  | none, topic :: rest =>
      if topic ∈ h.subs then
        some { h with topics := rest, pending := some (topic, h.subs.keys.length) }
      else
        let subs := h.subs.insert topic h.broker.subs.length
        some { h with
          broker := h.broker.subscribe topic 256
          topics := rest
          pending := some (topic, subs.keys.length)
          subs := subs }
  | _, _ => none

def take (h : Handshake) (topic : Key) : Option Handshake :=
  match h.taken.lookup topic, h.subs.lookup topic with
  | none, some id =>
      match (h.broker.subs[id]?).bind fun sub => sub.ch.head? with
      | none => none
      | some msg => (h.broker.receive id).map fun b =>
          { h with broker := b, taken := h.taken.insert topic msg }
  | _, _ => none

def step (h : Handshake) (a : Action) : Option Handshake :=
  if h.broker.panicked then none
  else
    match a with
    | .subscribe => h.subscribe
    | .confirm => h.pending.map fun _ => { h with pending := none }
    | .take topic => h.take topic
    | .forward topic =>
        (h.taken.lookup topic).map fun _ => { h with taken := h.taken.erase topic }
    | .others a =>
        if h.Foreign a then (h.broker.step a).map fun b => { h with broker := b } else none

def frames (h : Handshake) : Action → List Reply
  | .confirm => (h.pending.map fun p => CacheServer.confirm "subscribe" p.1 p.2).toList
  | .forward topic => ((h.taken.lookup topic).map push).toList
  | _ => []

def messages (h : Handshake) : Action → List PubSub.Message
  | .forward topic => (h.taken.lookup topic).toList
  | _ => []

def start (broker : PubSub.Broker) (subs : AList fun _ : Key => ℕ) (topics : List Bytes) :
    Handshake :=
  ⟨broker, topics, none, subs, ∅⟩

/-- No message is written before the last confirmation. -/
def AfterLast (h : Handshake) : Action → Prop
  | .forward _ => h.topics = [] ∧ h.pending = none
  | _ => True

instance (h : Handshake) (a : Action) : Decidable (h.AfterLast a) :=
  match a with
  | .forward _ => inferInstanceAs (Decidable (_ ∧ _))
  | .subscribe | .confirm | .take _ | .others _ => isTrue trivial

def outstanding (h : Handshake) : ℕ := h.topics.length + h.pending.toList.length

end Handshake

/-! ## The client -/

namespace Client

def bulk : Value → Bytes
  | .bulk b => b
  | _ => []

def messageOf : Value → Option PubSub.Message
  | .array [kind, topic, payload] =>
      if bulk kind = text "message" then some ⟨bulk topic, bulk payload⟩ else none
  | _ => none

def loop : ℕ → Bytes → List PubSub.Message
  | 0, _ => []
  | fuel + 1, input =>
      match readReply input with
      | .error _ => []
      | .ok (v, rest) => (messageOf v).toList ++ loop fuel rest

/-- What the client passes on of what it reads behind its `SUBSCRIBE` of that many
topics. -/
def subscribe (fuel topics : ℕ) (input : Bytes) : List PubSub.Message :=
  match readMany readReply topics input with
  | .error _ => []
  | .ok (_, rest) => loop fuel rest

end Client

/-! ## What the client makes of the frames -/

namespace Client

theorem messageOf_push (msg : PubSub.Message) : messageOf (push msg) = some msg := by
  rw [push, rArray, messageOf]
  exact if_pos rfl

theorem messageOf_confirm (topic : Bytes) (count : ℕ) :
    messageOf (confirm "subscribe" topic count) = none := by
  rw [confirm, rArray, messageOf]
  exact if_neg (show text "subscribe" ≠ text "message" by decide)

theorem writeReply_ne_nil (v : Value) : writeReply v ≠ [] := by
  cases v with
  | array items =>
      rw [writeReply, writeArrayHeader_natCast]
      exact List.cons_ne_nil _ _
  | simple s => exact List.cons_ne_nil _ _
  | error s => exact List.cons_ne_nil _ _
  | int n => exact List.cons_ne_nil _ _
  | bulk b => exact List.cons_ne_nil _ _
  | nil => exact List.cons_ne_nil _ _
  | nilArray => exact List.cons_ne_nil _ _

theorem loop_nil (fuel : ℕ) : loop fuel [] = [] := by
  cases fuel with
  | zero => rfl
  | succ fuel => rfl

theorem readReply_cons {first : Value} {rest : List Value}
    (hplain : ∀ v ∈ first :: rest, v.Plain) (hfits : ∀ v ∈ first :: rest, v.Fits) :
    readReply (writeReplies (first :: rest)) = .ok (first, writeReplies rest) := by
  rw [writeReplies]
  exact readNested_writeReply first (hplain first List.mem_cons_self)
    (hfits first List.mem_cons_self) (length_lt_fuel first _) _

theorem loop_writeReplies {replies : List Value} (hplain : ∀ v ∈ replies, v.Plain)
    (hfits : ∀ v ∈ replies, v.Fits) (fuel : ℕ) (hfuel : (writeReplies replies).length ≤ fuel) :
    loop fuel (writeReplies replies) = replies.filterMap messageOf := by
  induction replies generalizing fuel with
  | nil => exact loop_nil fuel
  | cons first rest ih =>
      have hpos := List.length_pos_iff.mpr (writeReply_ne_nil first)
      have hlength : (writeReply first).length + (writeReplies rest).length ≤ fuel := by
        rwa [writeReplies, List.length_append] at hfuel
      obtain ⟨fuel, rfl⟩ : ∃ n, fuel = n + 1 := ⟨fuel - 1, by omega⟩
      have hrest := ih (List.forall_mem_of_forall_mem_cons hplain)
        (List.forall_mem_of_forall_mem_cons hfits) fuel (by omega)
      rw [loop, readReply_cons hplain hfits, List.filterMap_cons]
      dsimp only
      rw [hrest]
      cases messageOf first with
      | none => rfl
      | some msg => rfl

theorem readMany_of_length_lt {replies : List Value} (hplain : ∀ v ∈ replies, v.Plain)
    (hfits : ∀ v ∈ replies, v.Fits) {n : ℕ} (hlt : replies.length < n) :
    ∃ err, readMany readReply n (writeReplies replies) = .error err := by
  obtain ⟨n, rfl⟩ : ∃ m, n = m + 1 := ⟨n - 1, by omega⟩
  induction replies generalizing n with
  | nil => exact ⟨.eof, rfl⟩
  | cons first rest ih =>
      rw [List.length_cons] at hlt
      obtain ⟨n, rfl⟩ : ∃ m, n = m + 1 := ⟨n - 1, by omega⟩
      obtain ⟨err, herr⟩ := ih (List.forall_mem_of_forall_mem_cons hplain)
        (List.forall_mem_of_forall_mem_cons hfits) n (by omega)
      exact ⟨err, by rw [readMany, readReply_cons hplain hfits]; simp [herr, Except.map]⟩

theorem subscribe_writeReplies {replies : List Value} (hplain : ∀ v ∈ replies, v.Plain)
    (hfits : ∀ v ∈ replies, v.Fits) (n : ℕ) {fuel : ℕ}
    (hfuel : (writeReplies replies).length ≤ fuel) :
    subscribe fuel n (writeReplies replies) = (replies.drop n).filterMap messageOf := by
  by_cases hlt : replies.length < n
  · obtain ⟨err, herr⟩ := readMany_of_length_lt hplain hfits hlt
    rw [subscribe, herr, List.drop_eq_nil_of_le (le_of_lt hlt)]
    rfl
  · have hsplit : writeReplies replies =
        writeReplies (replies.take n) ++ writeReplies (replies.drop n) := by
      simp only [writeReplies_eq, ← List.flatMap_append, List.take_append_drop]
    have hread := readMany_readReply
      (fun v (hmem : v ∈ replies.take n) => hplain v (List.mem_of_mem_take hmem))
      (fun v hmem => hfits v (List.mem_of_mem_take hmem)) (writeReplies (replies.drop n))
    rw [List.length_take_of_le (by omega), ← hsplit] at hread
    rw [hsplit, List.length_append] at hfuel
    rw [subscribe, hread]
    exact loop_writeReplies (fun v hmem => hplain v (List.mem_of_mem_drop hmem))
      (fun v hmem => hfits v (List.mem_of_mem_drop hmem)) fuel (by omega)

end Client

/-! ## The frames of a handshake -/

namespace Handshake

theorem plain_frames (h : Handshake) (a : Action) : ∀ v ∈ h.frames a, v.Plain := by
  intro v hmem
  cases a with
  | confirm =>
      obtain ⟨p, -, rfl⟩ := Option.map_eq_some_iff.mp (Option.mem_toList.mp hmem)
      refine ⟨trivial, ?_, trivial, trivial⟩
      split_ifs
      · trivial
      · trivial
  | forward topic =>
      obtain ⟨msg, -, rfl⟩ := Option.map_eq_some_iff.mp (Option.mem_toList.mp hmem)
      exact ⟨trivial, trivial, trivial, trivial⟩
  | subscribe => contradiction
  | take topic => contradiction
  | others a => contradiction

theorem filterMap_frames (h : Handshake) (a : Action) :
    (h.frames a).filterMap Client.messageOf = h.messages a := by
  cases a with
  | confirm =>
      rw [frames]
      cases h.pending with
      | none => rfl
      | some p => simp [Client.messageOf_confirm, messages]
  | forward topic =>
      rw [frames, messages]
      cases h.taken.lookup topic with
      | none => rfl
      | some msg => simp [Client.messageOf_push]
  | subscribe => rfl
  | take topic => rfl
  | others a => rfl

theorem step_eq_some {h next : Handshake} {a : Action} (hstep : h.step a = some next) :
    match a with
    | .subscribe => h.subscribe = some next
    | .confirm => h.pending.isSome ∧ next = { h with pending := none }
    | .take topic => h.take topic = some next
    | .forward topic => ∃ msg, h.taken.lookup topic = some msg ∧
        next = { h with taken := h.taken.erase topic }
    | .others _ => ∃ b, next = { h with broker := b } := by
  unfold step at hstep
  split_ifs at hstep
  cases a with
  | subscribe => exact hstep
  | confirm =>
      obtain ⟨p, hpending, rfl⟩ := Option.map_eq_some_iff.mp hstep
      exact ⟨by rw [hpending]; rfl, rfl⟩
  | take topic => exact hstep
  | forward topic =>
      obtain ⟨msg, hmsg, rfl⟩ := Option.map_eq_some_iff.mp hstep
      exact ⟨msg, hmsg, rfl⟩
  | others a =>
      dsimp only at hstep
      split_ifs at hstep
      obtain ⟨b, -, rfl⟩ := Option.map_eq_some_iff.mp hstep
      exact ⟨b, rfl⟩

theorem outstanding_subscribe {h next : Handshake} (hsubscribe : h.subscribe = some next) :
    next.outstanding = h.outstanding := by
  unfold subscribe at hsubscribe
  split at hsubscribe
  · next topic rest hpending htopics =>
      have hone : h.outstanding = rest.length + 1 := by
        rw [outstanding, hpending, htopics]
        rfl
      split_ifs at hsubscribe
      · cases hsubscribe
        exact hone.symm
      · cases hsubscribe
        exact hone.symm
  · contradiction

theorem outstanding_take {h next : Handshake} {topic : Key} (htake : h.take topic = some next) :
    next.outstanding = h.outstanding := by
  unfold take at htake
  split at htake
  · split at htake
    · contradiction
    · obtain ⟨b, -, rfl⟩ := Option.map_eq_some_iff.mp htake
      rfl
  · contradiction

theorem outstanding_step {h next : Handshake} {a : Action} (hstep : h.step a = some next) :
    h.outstanding = next.outstanding + if a = .confirm then 1 else 0 := by
  have hcases := step_eq_some hstep
  cases a with
  | subscribe => exact (outstanding_subscribe hcases).symm
  | confirm =>
      obtain ⟨p, hpending⟩ := Option.isSome_iff_exists.mp hcases.1
      rw [hcases.2, outstanding, hpending]
      rfl
  | take topic => exact (outstanding_take hcases).symm
  | forward topic =>
      obtain ⟨msg, -, rfl⟩ := hcases
      rfl
  | others a =>
      obtain ⟨b, rfl⟩ := hcases
      rfl

theorem outstanding_eq_zero {h : Handshake} :
    h.outstanding = 0 ↔ h.topics = [] ∧ h.pending = none := by
  rw [outstanding, Nat.add_eq_zero_iff, List.length_eq_zero_iff, List.length_eq_zero_iff,
    Option.toList_eq_nil_iff]

theorem filterMap_observe_frames (h : Handshake) (actions : List Action) :
    (observe step frames h actions).filterMap Client.messageOf = observe step messages h actions :=
  filterMap_observe step frames filterMap_frames h actions

/-- All the messages stand behind as many replies as there are confirmations to
come. -/
def Delivered (h : Handshake) (actions : List Action) : Prop :=
  ((observe step frames h actions).drop h.outstanding).filterMap Client.messageOf =
    observe step messages h actions

theorem length_frames {h next : Handshake} {a : Action} (hstep : h.step a = some next)
    (hquiet : ∀ topic, a ≠ .forward topic) :
    (h.frames a).length = if a = .confirm then 1 else 0 := by
  cases a with
  | confirm =>
      obtain ⟨p, hpending⟩ := Option.isSome_iff_exists.mp (step_eq_some hstep).1
      rw [frames, hpending]
      rfl
  | forward topic => exact absurd rfl (hquiet topic)
  | subscribe => rfl
  | take topic => rfl
  | others a => rfl

theorem delivered_cons_of_quiet {h next : Handshake} {a : Action} (hstep : h.step a = some next)
    (hquiet : ∀ topic, a ≠ .forward topic) (rest : List Action) :
    h.Delivered (a :: rest) ↔ next.Delivered rest := by
  have hnone : h.messages a = [] := by
    cases a with
    | forward topic => exact absurd rfl (hquiet topic)
    | _ => rfl
  have hcount := outstanding_step hstep
  rw [← length_frames hstep hquiet, Nat.add_comm] at hcount
  rw [Delivered, Delivered, observe_cons_of_step step frames hstep,
    observe_cons_of_step step messages hstep, hcount, List.drop_length_add_append, hnone,
    List.nil_append]

theorem not_delivered_of_outstanding {h next : Handshake} {topic : Key}
    (hstep : h.step (.forward topic) = some next) (hmore : h.outstanding ≠ 0)
    (rest : List Action) : ¬ h.Delivered (.forward topic :: rest) := by
  obtain ⟨msg, hmsg, -⟩ := step_eq_some hstep
  obtain ⟨n, hn⟩ := Nat.exists_eq_succ_of_ne_zero hmore
  have hsub : (((observe step frames next rest).drop n).filterMap Client.messageOf).Sublist
      (observe step messages next rest) := by
    rw [← filterMap_observe_frames]
    exact (List.drop_sublist n _).filterMap _
  have hle := hsub.length_le
  intro hdelivered
  rw [Delivered, observe_cons_of_step step frames hstep, observe_cons_of_step step messages hstep,
    frames, messages, hmsg, hn] at hdelivered
  have hlength := congrArg List.length hdelivered
  simp only [Option.map_some, Option.toList_some, List.singleton_append, List.drop_succ_cons,
    List.length_cons] at hlength
  omega

theorem delivered_of_outstanding_eq_zero {h : Handshake} (hzero : h.outstanding = 0)
    (actions : List Action) : h.Delivered actions := by
  rw [Delivered, hzero, List.drop_zero]
  exact filterMap_observe_frames h actions

theorem delivered_iff {h final : Handshake} {actions : List Action}
    (hrun : run step h actions = some final) :
    h.Delivered actions ↔ Along step AfterLast h actions := by
  induction actions generalizing h with
  | nil => simp [Delivered, observe]
  | cons a rest ih =>
      obtain ⟨next, hnext, hrest⟩ := (run_cons_eq_some step).mp hrun
      rw [along_cons_of_step step hnext, ← ih hrest]
      cases a with
      | forward topic =>
          have hlast : h.AfterLast (.forward topic) ↔ h.outstanding = 0 :=
            outstanding_eq_zero.symm
          have hcount : h.outstanding = next.outstanding := outstanding_step hnext
          rw [hlast]
          by_cases hzero : h.outstanding = 0
          · have hall := delivered_of_outstanding_eq_zero hzero (.forward topic :: rest)
            have hnone := delivered_of_outstanding_eq_zero (hcount ▸ hzero) rest
            exact iff_of_true hall ⟨hzero, hnone⟩
          · have hmissing := not_delivered_of_outstanding hnext hzero rest
            exact iff_of_false hmissing fun hboth => hzero hboth.1
      | subscribe | confirm | take topic | others b =>
          rw [delivered_cons_of_quiet hnext (by simp) rest]
          exact (and_iff_right trivial).symm

/-- The client passes on all the messages that the connection writes, in their order,
exactly if the connection writes none of them before its last confirmation. -/
theorem subscriber_gets_all_iff (broker : PubSub.Broker) (subs : AList fun _ : Key => ℕ)
    (topics : List Bytes) {actions : List Action} {final : Handshake}
    (hrun : run step (start broker subs topics) actions = some final)
    (hfits : ∀ v ∈ observe step frames (start broker subs topics) actions, v.Fits) {fuel : ℕ}
    (hfuel : (writeReplies (observe step frames (start broker subs topics) actions)).length ≤
      fuel) :
    Client.subscribe fuel topics.length
          (writeReplies (observe step frames (start broker subs topics) actions)) =
        observe step messages (start broker subs topics) actions ↔
      Along step AfterLast (start broker subs topics) actions := by
  have hplain := forall_mem_observe step frames plain_frames (start broker subs topics) actions
  rw [Client.subscribe_writeReplies hplain hfits _ hfuel]
  exact delivered_iff hrun

def inOrder : List Action :=
  [.subscribe, .confirm, .others (.publish [116] [120] [0]), .others (.send 0), .take [116],
    .forward [116]]

theorem subscriber_gets_all_iff_inOrder :
    Client.subscribe 100 1 (writeReplies (observe step frames (start .new ∅ [[116]]) inOrder)) =
      observe step messages (start .new ∅ [[116]]) inOrder := by
  have hrun : (run step (start .new ∅ [[116]]) inOrder).isSome := by decide +kernel
  obtain ⟨final, hfinal⟩ := Option.isSome_iff_exists.mp hrun
  have hframes : observe step frames (start .new ∅ [[116]]) inOrder =
      [confirm "subscribe" [116] 1, push ⟨[116], [120]⟩] := rfl
  have hfits : ∀ v ∈ observe step frames (start .new ∅ [[116]]) inOrder, v.Fits := by
    rw [hframes, ← fitsAll_iff]
    simp [FitsAll, confirm, push, rArray, rBulkStr, rInt, Value.Fits, maxLen, text]
  exact (subscriber_gets_all_iff .new ∅ [[116]] hfinal hfits (by decide +kernel)).mpr
    (by decide +kernel)

def overtaken : List Action :=
  [.subscribe, .others (.publish [116] [120] [0]), .others (.send 0), .take [116],
    .forward [116], .confirm]

theorem early_message_is_lost :
    (run step (start .new ∅ [[116]]) overtaken).isSome ∧
      observe step messages (start .new ∅ [[116]]) overtaken = [⟨[116], [120]⟩] ∧
      ∀ fuel, Client.subscribe fuel 1
        (writeReplies (observe step frames (start .new ∅ [[116]]) overtaken)) = [] := by
  refine ⟨by decide +kernel, by decide +kernel, fun fuel => ?_⟩
  cases fuel with
  | zero => rfl
  | succ fuel => exact Client.loop_nil fuel

/-! ## The handshake and the command -/

def uninterrupted (topics : List Bytes) : List Action :=
  topics.flatMap fun _ => [.subscribe, .confirm]

theorem subscribe_confirm {h : Handshake} {b : PubSub.Broker} {subs : AList fun _ : Key => ℕ}
    {topic : Bytes} {rest : List Bytes} {n : ℕ}
    (hsubscribe : h.step .subscribe = some ⟨b, rest, some (topic, n), subs, ∅⟩)
    (hquiet : b.panicked = false) (more : List Action) :
    run step h (.subscribe :: .confirm :: more) = run step (start b subs rest) more ∧
      observe step frames h (.subscribe :: .confirm :: more) =
        confirm "subscribe" topic n :: observe step frames (start b subs rest) more := by
  have hconfirm : (Handshake.mk b rest (some (topic, n)) subs ∅).step .confirm =
      some (start b subs rest) := by
    simp [step, start, hquiet]
  constructor
  · rw [run_cons, hsubscribe, Option.bind_some, run_cons, hconfirm, Option.bind_some]
  · rw [observe_cons_of_step step frames hsubscribe, observe_cons_of_step step frames hconfirm]
    rfl

theorem run_uninterrupted {lib : Lib} {L : Layout} (c : Conn lib) (s : Server L)
    (topics : List Bytes) :
    run step (start s.broker c.subs topics) (uninterrupted topics) =
        some (start (doSubscribe c s topics).2.1.broker (doSubscribe c s topics).1.subs []) ∧
      observe step frames (start s.broker c.subs topics) (uninterrupted topics) =
        (doSubscribe c s topics).2.2 := by
  induction topics generalizing c s with
  | nil => exact ⟨rfl, rfl⟩
  | cons topic rest ih =>
      have hquiet := s.resting.sound.quiet
      rw [doSubscribe]
      split_ifs with hmem
      · have hsubscribe : (start s.broker c.subs (topic :: rest)).step .subscribe =
            some ⟨s.broker, rest, some (topic, c.subs.keys.length), c.subs, ∅⟩ := by
          simp [step, start, hquiet, subscribe, hmem]
        have hfirst := subscribe_confirm hsubscribe hquiet (uninterrupted rest)
        exact ⟨hfirst.1.trans (ih c s).1, hfirst.2.trans (congrArg _ (ih c s).2)⟩
      · have hsubscribe : (start s.broker c.subs (topic :: rest)).step .subscribe =
            some ⟨s.broker.subscribe topic 256, rest,
              some (topic, (c.subs.insert topic s.broker.subs.length).keys.length),
              c.subs.insert topic s.broker.subs.length, ∅⟩ := by
          simp [step, start, hquiet, subscribe, hmem]
        have hfirst := subscribe_confirm hsubscribe hquiet (uninterrupted rest)
        have hrest := ih { c with subs := c.subs.insert topic s.broker.subs.length }
          { s with
            broker := s.broker.subscribe topic 256
            resting := s.resting.subscribe topic 256 }
        exact ⟨hfirst.1.trans hrest.1, hfirst.2.trans (congrArg _ hrest.2)⟩

end Handshake

end CacheServer
end DistCache
