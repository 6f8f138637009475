import DistCache.CommandServer

/-!
# Several connections on one server

The connections send their commands one after the other, and the dispatcher, which hands
the events to the coordinator, works between them as far as it gets.  Where it stands
makes no difference to the cache, and none to what the coordinator will know once the
events on their way have reached it.  A server is described by that coordinator.
-/

namespace DistCache
namespace CacheServer

open Transition

variable {lib : Lib} {L : Layout}

/-! ## The dispatcher of the server -/

namespace Server

def dispatcher (s : Server L) : Option (Server L) :=
  match s.engine.handling with
  | .idle => s.engine.dequeue.map fun e => { s with engine := e }
  | .dequeued _ =>
      s.engine.deliver.map fun r => { s with engine := r.2, txn := s.txn.onEvent r.1 }
  | .delivered _ => s.engine.publish.map fun e => { s with engine := e }

def work (s : Server L) : ℕ :=
  3 * s.engine.chan.length +
    match s.engine.handling with
    | .idle => 0
    | .dequeued _ => 2
    | .delivered _ => 1

def await : ℕ → Server L → Server L
  | 0, s => s
  | n + 1, s =>
      match s.dispatcher with
      | none => s
      | some next => next.await n

/-- The dispatcher works until it has nothing to do.  A barrier is the last message
of the channel while its caller waits, if nobody else sends anything. -/
def settle (s : Server L) : Server L := s.await s.work

def settled (s : Server L) : Txn.Coordinator Unit :=
  s.engine.backlog.foldl Txn.Coordinator.onEvent s.txn

structure Quiet (s next : Server L) : Prop where
  cache : next.engine.cache = s.engine.cache
  settled : next.settled = s.settled

theorem Quiet.refl (s : Server L) : s.Quiet s := ⟨rfl, rfl⟩

theorem Quiet.trans {s middle next : Server L} (hfirst : s.Quiet middle)
    (hsecond : middle.Quiet next) : s.Quiet next :=
  ⟨hsecond.cache.trans hfirst.cache, hsecond.settled.trans hfirst.settled⟩

theorem quiet_dispatcher {s next : Server L} (hstep : s.dispatcher = some next) :
    s.Quiet next ∧ next.work < s.work := by
  unfold dispatcher at hstep
  cases hhandling : s.engine.handling with
  | idle =>
      simp only [hhandling] at hstep
      obtain ⟨e, hdequeue, rfl⟩ := Option.map_eq_some_iff.mp hstep
      obtain ⟨_, ⟨ev, rest, hchan, rfl⟩ | ⟨ticket, rest, hchan, rfl⟩⟩ :=
        Engine.dequeue_eq_some hdequeue
      · refine ⟨⟨rfl, ?_⟩, ?_⟩
        · simp only [settled, Engine.backlog, hhandling, hchan]
          rfl
        · simp only [work, hhandling, hchan, List.length_cons]
          omega
      · refine ⟨⟨rfl, ?_⟩, ?_⟩
        · simp only [settled, Engine.backlog, hhandling, hchan]
          rfl
        · simp only [work, hhandling, hchan, List.length_cons]
          omega
  | dequeued ev =>
      simp only [hhandling] at hstep
      obtain ⟨r, hdeliver, rfl⟩ := Option.map_eq_some_iff.mp hstep
      obtain ⟨hbacklog, _, hnext⟩ := Engine.backlog_deliver hdeliver
      refine ⟨⟨by rw [hnext], ?_⟩, ?_⟩
      · simp only [settled, hbacklog, List.foldl_cons]
      · simp only [work, hhandling, hnext]
        omega
  | delivered ev =>
      simp only [hhandling] at hstep
      obtain ⟨e, hpublish, rfl⟩ := Option.map_eq_some_iff.mp hstep
      have hbacklog := Engine.backlog_publish hpublish
      obtain ⟨_, _, hnext⟩ := Engine.publish_eq_some hpublish
      refine ⟨⟨by rw [hnext], ?_⟩, ?_⟩
      · simp only [settled, hbacklog]
      · simp only [work, hhandling, hnext]
        omega

theorem backlog_of_idle {s : Server L} (hstep : s.dispatcher = none) :
    s.engine.backlog = [] := by
  unfold dispatcher at hstep
  cases hhandling : s.engine.handling with
  | idle =>
      simp only [hhandling, Option.map_eq_none_iff, Engine.dequeue] at hstep
      cases hchan : s.engine.chan with
      | nil => simp [Engine.backlog, hhandling, hchan, Engine.Handling.taken, Engine.eventsOf]
      | cons msg rest => cases msg <;> simp [hchan] at hstep
  | dequeued ev => simp [hhandling, Engine.deliver] at hstep
  | delivered ev => simp [hhandling, Engine.publish] at hstep

theorem await_spec {n : ℕ} {s : Server L} (hwork : s.work ≤ n) :
    s.Quiet (s.await n) ∧ (s.await n).engine.backlog = [] := by
  induction n generalizing s with
  | zero =>
      cases hstep : s.dispatcher with
      | none => exact ⟨.refl s, backlog_of_idle hstep⟩
      | some next =>
          have hless := (quiet_dispatcher hstep).2
          omega
  | succ n ih =>
      rw [await]
      cases hstep : s.dispatcher with
      | none => exact ⟨.refl s, backlog_of_idle hstep⟩
      | some next =>
          obtain ⟨hquiet, hless⟩ := quiet_dispatcher hstep
          obtain ⟨hrest, hbacklog⟩ := ih (s := next) (by omega)
          exact ⟨hquiet.trans hrest, hbacklog⟩

theorem settled_of_backlog {s : Server L} (hbacklog : s.engine.backlog = []) :
    s.settled = s.txn := by
  rw [settled, hbacklog, List.foldl_nil]

theorem backlog_of_drained {s : Server L} (hdrained : s.engine.Drained) :
    s.engine.backlog = [] := by
  obtain ⟨hchan, hhandling, _⟩ := hdrained
  simp [Engine.backlog, hchan, hhandling, Engine.Handling.taken, Engine.eventsOf]

theorem settle_spec (s : Server L) :
    s.settle.engine.cache = s.engine.cache ∧ s.settle.engine.backlog = [] ∧
      s.settle.txn = s.settled := by
  have hspec : s.Quiet s.settle ∧ s.settle.engine.backlog = [] := await_spec (le_refl s.work)
  obtain ⟨hquiet, hbacklog⟩ := hspec
  have hsettled := hquiet.settled
  rw [settled_of_backlog hbacklog] at hsettled
  exact ⟨hquiet.cache, hbacklog, hsettled⟩

theorem settled_sync (s : Server L) :
    settled { s with engine := s.engine.sync } = s.settled := by
  simp only [settled, Engine.backlog_sync]

end Server

/-! ## The commands -/

inductive Word where
  | set
  | get
  | del
  | exists_
  | expire
  | ttl
  | incrBy
  | watch
  | multi
  | exec
  deriving DecidableEq, Repr

namespace Word

def name : Word → Bytes
  | .set => text "SET"
  | .get => text "GET"
  | .del => text "DEL"
  | .exists_ => text "EXISTS"
  | .expire => text "EXPIRE"
  | .ttl => text "TTL"
  | .incrBy => text "INCRBY"
  | .watch => text "WATCH"
  | .multi => text "MULTI"
  | .exec => text "EXEC"

def role : Word → Handler ⊕ Verb
  | .set => .inl .set
  | .get => .inl .get
  | .del => .inl .del
  | .exists_ => .inl .exists_
  | .expire => .inl .expire
  | .ttl => .inl .ttl
  | .incrBy => .inl .incrBy
  | .watch => .inr .watch
  | .multi => .inr .multi
  | .exec => .inr .exec

def keys (args : List Bytes) : Word → List Key
  | .del => args
  | .exists_ => args
  | .watch => args
  | .multi => []
  | .exec => []
  | _ => args.take 1

def renameArgs (f : Key → Key) (args : List Bytes) : Word → List Bytes
  | .del => args.map f
  | .exists_ => args.map f
  | .watch => args.map f
  | .multi => args
  | .exec => args
  | _ => args.modifyHead f

theorem of_handler {word : Word} {h : Handler} (hrole : word.role = .inl h) :
    verbs word.name = none ∧ handlers word.name = some h ∧ word.name ∉ notQueued := by
  cases word <;> cases hrole <;> decide

theorem of_verb {word : Word} {v : Verb} (hrole : word.role = .inr v) :
    verbs word.name = some v ∧ word.name ∈ notQueued := by
  cases word <;> cases hrole <;> decide

end Word

structure Sent (lib : Lib) where
  cmd : Command
  word : Word
  spelled : lib.toUpper cmd.name = word.name

namespace Sent

def keys (sent : Sent lib) : List Key := sent.word.keys sent.cmd.args

def rename (f : Key → Key) (sent : Sent lib) : Sent lib where
  cmd := ⟨sent.cmd.name, sent.word.renameArgs f sent.cmd.args⟩
  word := sent.word
  spelled := sent.spelled

end Sent

def Word.sent (word : Word) (args : List Bytes) : Sent lib where
  cmd := ⟨word.name, args⟩
  word := word
  spelled := by cases word <;> rfl

/-! ## The connections -/

structure Clients (lib : Lib) (L : Layout) where
  conns : ℕ → Conn lib
  server : Server L

/-- A connection sends a command, at these readings of the clock, or the dispatcher
takes a step. -/
inductive Move (lib : Lib) where
  | send (i : ℕ) (sent : Sent lib) (clock : ℕ → Clock)
  | dispatcher

def Move.sent? : Move lib → Option (ℕ × Sent lib × (ℕ → Clock))
  | .send i sent clock => some (i, sent, clock)
  | .dispatcher => none

namespace Clients

def start (c : Cache L) (clock : ℤ) : Clients lib L :=
  ⟨fun _ => .new [] [], .new c clock⟩

def env (clock : ℕ → Clock) : Env L := ⟨clock, 0, [], fun _ => 0, Server.settle⟩

def turn (cfg : Config) (s : Clients lib L) (i : ℕ) (sent : Sent lib) (clock : ℕ → Clock) :
    Turn lib L :=
  serve lib cfg ⟨s.conns i, s.server⟩ sent.cmd (env clock)

def step (cfg : Config) (s : Clients lib L) : Move lib → Option (Clients lib L)
  | .send i sent clock =>
      let t := s.turn cfg i sent clock
      some ⟨Function.update s.conns i t.conn, t.server⟩
  | .dispatcher => s.server.dispatcher.map fun server => { s with server := server }

def replies (cfg : Config) (s : Clients lib L) : Move lib → List (ℕ × Reply)
  | .send i sent clock => (s.turn cfg i sent clock).written.map fun r => (i, r)
  | .dispatcher => []

def ExecDrained (s : Clients lib L) : Move lib → Prop
  | .send _ sent _ => sent.word = .exec → s.server.engine.Drained
  | .dispatcher => True

instance (s : Clients lib L) (move : Move lib) : Decidable (s.ExecDrained move) :=
  match move with
  | .send _ sent _ =>
      inferInstanceAs (Decidable (sent.word = .exec → s.server.engine.chan = [] ∧
        s.server.engine.handling = .idle ∧ s.server.engine.flushing = none))
  | .dispatcher => inferInstanceAs (Decidable True)

end Clients

end CacheServer
end DistCache
