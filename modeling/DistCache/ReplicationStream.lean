import DistCache.StreamFollower

/-!
# One replica of a primary

The primary registers a channel for the replica, waits for a barrier, reads the
published number, and sends an `OpFlush` and the exported shards.  After the `SYNCED`
frame it sends the events of the channel that have a higher number.  The replica applies
the frames in order.

An event that was in delivery when the channel was registered is not in the channel; the
barrier sees to it that the number includes it.
-/

namespace DistCache
namespace Replication

open DeadlineStore Eviction Transition

variable {L R : Layout}

inductive Frame where
  | event (ev : Event)
  | synced (seq : ℕ)
  deriving DecidableEq, Repr

def eventHeader : ℕ := 25

def maxFrame : ℕ := 512 * 2 ^ 20

def Frame.length : Frame → ℕ
  | .event ev => eventHeader + ev.key.length + ev.value.length
  | .synced _ => 8

/-- Where `handle` is; the magic has been read. -/
inductive Phase where
  | accepted
  | registered
  | syncing (ticket : ℕ)
  | counted (startSeq : ℕ)
  | flushed (startSeq : ℕ)
  | exporting (startSeq : ℕ) (now : ℤ) (shard : ℕ)
  | streaming (startSeq : ℕ)
  deriving DecidableEq, Repr

def channelSize : ℕ := 8192

structure Session (L R : Layout) where
  engine : Engine L
  phase : Phase
  ch : List Event
  failed : Bool
  lastSent : ℕ
  lastAck : ℕ
  link : List Frame
  acks : List ℕ
  replica : Cache R
  synced : Bool
  lastApplied : ℕ

inductive Action (L : Layout) where
  | engine (a : EngineAction L)
  | onEvent
  | register
  | sync
  | readSeq
  | sendFlush
  | beginExport (now : ℤ)
  | exportShard (order : List (Key × Item))
  | sendSynced
  | stream
  | replicate
  | ackTick
  | readAck
  | fail

namespace Session

def onEvent (s : Session L R) : Option (Session L R) :=
  s.engine.deliver.map fun r =>
    if s.phase = .accepted then { s with engine := r.2 }
    else if s.ch.length < channelSize then { s with engine := r.2, ch := s.ch ++ [r.1] }
    else { s with engine := r.2, failed := true }

def register (s : Session L R) : Option (Session L R) :=
  match s.phase with
  | .accepted => some { s with phase := .registered, ch := [] }
  | _ => none

def sync (s : Session L R) : Option (Session L R) :=
  match s.phase with
  | .registered => some { s with engine := s.engine.sync, phase := .syncing s.engine.tickets }
  | _ => none

def readSeq (s : Session L R) : Option (Session L R) :=
  match s.phase with
  | .syncing ticket =>
      if ticket ∈ s.engine.acked then some { s with phase := .counted s.engine.seq } else none
  | _ => none

def sendFlush (s : Session L R) : Option (Session L R) :=
  match s.phase with
  | .counted startSeq =>
      some { s with link := s.link ++ [.event Event.flush], phase := .flushed startSeq }
  | _ => none

def beginExport (s : Session L R) (now : ℤ) : Option (Session L R) :=
  match s.phase with
  | .flushed startSeq =>
      (s.engine.readClock now).map fun e =>
        { s with engine := e, phase := .exporting startSeq now 0 }
  | _ => none

def exportShard (s : Session L R) (order : List (Key × Item)) : Option (Session L R) :=
  match s.phase with
  | .exporting startSeq now i =>
      if h : i < L.shards then
        if order.Perm ((s.engine.cache.shards ⟨i, h⟩).exportEntries now) then
          some { s with
            link := s.link ++ order.map fun entry => .event (snapshotRecord entry)
            phase := .exporting startSeq now (i + 1) }
        else none
      else none
  | _ => none

def sendSynced (s : Session L R) : Option (Session L R) :=
  match s.phase with
  | .exporting startSeq _ i =>
      if i = L.shards then
        some { s with link := s.link ++ [.synced startSeq], phase := .streaming startSeq }
      else none
  | _ => none

def stream (s : Session L R) : Option (Session L R) :=
  match s.phase, s.ch with
  | .streaming startSeq, ev :: rest =>
      if ev.seq ≤ startSeq then some { s with ch := rest }
      else some { s with ch := rest, link := s.link ++ [.event ev], lastSent := ev.seq }
  | _, _ => none

/-- The replica reads a frame; it gives the connection up at one that is too
large. -/
def replicate (s : Session L R) : Option (Session L R) :=
  match s.link with
  | [] => none
  | frame :: rest =>
      if maxFrame < frame.length then some { s with link := rest, failed := true }
      else
        match frame with
        | .event ev =>
            some { s with
              link := rest
              replica := s.replica.applyEvent ev
              lastApplied := if 0 < ev.seq then ev.seq else s.lastApplied }
        | .synced seq => some { s with link := rest, lastApplied := seq, synced := true }

def ackTick (s : Session L R) : Option (Session L R) :=
  some { s with acks := s.acks ++ [s.lastApplied] }

/-- The acknowledgements are read only after the snapshot has been sent. -/
def readAck (s : Session L R) : Option (Session L R) :=
  match s.phase, s.acks with
  | .streaming _, seq :: rest => some { s with acks := rest, lastAck := seq }
  | _, _ => none

def step (s : Session L R) : Action L → Option (Session L R)
  | .engine a => (s.engine.step a).map fun e => { s with engine := e }
  | .onEvent => s.onEvent
  | .register => s.register
  | .sync => s.sync
  | .readSeq => s.readSeq
  | .sendFlush => s.sendFlush
  | .beginExport now => s.beginExport now
  | .exportShard order => s.exportShard order
  | .sendSynced => s.sendSynced
  | .stream => s.stream
  | .replicate => s.replicate
  | .ackTick => s.ackTick
  | .readAck => s.readAck
  | .fail => some { s with failed := true }

/-- A replica connects, with whatever it holds. -/
def connect (c : Cache L) (clock : ℤ) (replica : Cache R) (lastApplied : ℕ) : Session L R where
  engine := Engine.start c clock
  phase := .accepted
  ch := []
  failed := false
  lastSent := 0
  lastAck := 0
  link := []
  acks := []
  replica := replica
  synced := false
  lastApplied := lastApplied

def Quiet (s : Session L R) : Prop :=
  s.engine.backlog = [] ∧ s.engine.flushing = none ∧ s.ch = [] ∧ s.link = []

instance (s : Session L R) : Decidable s.Quiet := inferInstanceAs (Decidable (_ ∧ _))

/-! ## What the replica will hold -/

def eventsOn (link : List Frame) : List Event :=
  link.filterMap fun
    | .event ev => some ev
    | .synced _ => none

/-- The contents of the replica once it has read the link. -/
def arriving (s : Session L R) : Contents :=
  replay (mutations (eventsOn s.link)) s.replica.contents

theorem eventsOn_append (link more : List Frame) :
    eventsOn (link ++ more) = eventsOn link ++ eventsOn more := by
  simp [eventsOn]

theorem eventsOn_map_event (events : List Event) :
    eventsOn (events.map .event) = events := by
  induction events with
  | nil => rfl
  | cons ev rest ih =>
      have hcons : eventsOn ((ev :: rest).map .event) =
          ev :: eventsOn (rest.map .event) := rfl
      rw [hcons, ih]

theorem replay_send (link : List Frame) (events : List Event) (store : Contents) :
    replay (mutations (eventsOn (link ++ events.map .event))) store =
      replay (mutations events) (replay (mutations (eventsOn link)) store) := by
  rw [eventsOn_append, eventsOn_map_event, mutations_append, replay_append]

theorem replay_send_synced (link : List Frame) (seq : ℕ) (store : Contents) :
    replay (mutations (eventsOn (link ++ [.synced seq]))) store =
      replay (mutations (eventsOn link)) store := by
  rw [eventsOn_append]
  simp [eventsOn]

end Session

/-! ## The invariant -/

/-- The event in delivery came before the registration of the channel. -/
def Behind (e : Engine L) (ch : List Event) : Prop :=
  ch = [] ∧ ∃ ev, e.handling = .delivered ev

/-- What the steps of `handle` have achieved; the copy is what will arrive at the
replica. -/
def PhaseSound (e : Engine L) (ch : List Event) (copy : Contents) : Phase → Prop
  | .accepted => True
  | .registered => e.Fresh ch ∨ Behind e ch
  | .syncing ticket => e.Fresh ch ∨ Behind e ch ∧ ticket ∉ e.acked
  | .counted startSeq => e.Counted ch startSeq
  | .flushed startSeq => e.Counted ch startSeq ∧ ∀ key, copy key = none
  | .exporting startSeq now i => e.Exporting ch startSeq now i copy
  | .streaming startSeq => startSeq ≤ e.seq ∧ e.Tracks ch startSeq copy fun _ => True

structure Sound (s : Session L R) : Prop where
  regular : s.engine.Regular
  accounted : s.engine.Accounted
  ticketed : s.engine.Ticketed
  unlimited : s.replica.Unlimited
  phase : s.failed = false → PhaseSound s.engine s.ch s.arriving s.phase

section Engine

variable {e next : Engine L} {ch : List Event} {copy : Contents} {phase : Phase}

theorem behind_or_fresh_nil (e : Engine L) : e.Fresh [] ∨ Behind e [] := by
  cases hhandling : e.handling with
  | idle =>
      left
      rw [Engine.Fresh, hhandling]
      rfl
  | dequeued ev =>
      left
      rw [Engine.Fresh, hhandling]
      rfl
  | delivered ev => exact Or.inr ⟨rfl, ev, hhandling⟩

theorem Behind.step {a : EngineAction L} (hbehind : Behind e ch)
    (hstep : e.step a = some next) :
    next.Fresh ch ∨ Behind next ch ∧ next.acked = e.acked := by
  obtain ⟨rfl, ev, hdelivered⟩ := hbehind
  rcases Engine.step_of_delivered hdelivered hstep with hidle | ⟨hsame, hacked⟩
  · left
    rw [Engine.Fresh, hidle]
    rfl
  · exact Or.inr ⟨⟨rfl, ev, hsame⟩, hacked⟩

theorem PhaseSound.step {a : EngineAction L} (hphase : PhaseSound e ch copy phase)
    (hregular : e.Regular) (hstep : e.step a = some next) :
    PhaseSound next ch copy phase := by
  have hadvance := Engine.advance_step hregular hstep
  cases phase with
  | accepted => trivial
  | registered =>
      rcases hphase with hfresh | hbehind
      · exact Or.inl (hfresh.advance hregular hadvance)
      · exact (hbehind.step hstep).imp_right And.left
  | syncing ticket =>
      rcases hphase with hfresh | ⟨hbehind, hwaiting⟩
      · exact Or.inl (hfresh.advance hregular hadvance)
      · rcases hbehind.step hstep with hfresh | ⟨hbehind', hacked⟩
        · exact Or.inl hfresh
        · rw [← hacked] at hwaiting
          exact Or.inr ⟨hbehind', hwaiting⟩
  | counted startSeq => exact Engine.Counted.advance hphase hregular hadvance
  | flushed startSeq => exact ⟨hphase.1.advance hregular hadvance, hphase.2⟩
  | exporting startSeq now i => exact Engine.Exporting.advance hphase hregular hadvance
  | streaming startSeq =>
      exact ⟨hphase.1.trans (Engine.seq_le_of_advance hregular hadvance),
        hphase.2.advance hadvance⟩

theorem Behind.not_deliver {ev : Event} (hbehind : Behind e ch)
    (hdeliver : e.deliver = some (ev, next)) : False := by
  obtain ⟨_, other, hdelivered⟩ := hbehind
  obtain ⟨_, hdequeued, _⟩ := Engine.backlog_deliver hdeliver
  rw [hdelivered] at hdequeued
  contradiction

theorem PhaseSound.deliver {ev : Event} (hphase : PhaseSound e ch copy phase)
    (hregular : e.Regular) (hdeliver : e.deliver = some (ev, next)) :
    PhaseSound next (ch ++ [ev]) copy phase := by
  cases phase with
  | accepted => trivial
  | registered =>
      rcases hphase with hfresh | hbehind
      · exact Or.inl (hfresh.deliver hregular hdeliver)
      · exact (hbehind.not_deliver hdeliver).elim
  | syncing ticket =>
      rcases hphase with hfresh | ⟨hbehind, _⟩
      · exact Or.inl (hfresh.deliver hregular hdeliver)
      · exact (hbehind.not_deliver hdeliver).elim
  | counted startSeq => exact Engine.Counted.deliver hphase hregular hdeliver
  | flushed startSeq => exact ⟨hphase.1.deliver hregular hdeliver, hphase.2⟩
  | exporting startSeq now i => exact Engine.Exporting.deliver hphase hregular hdeliver
  | streaming startSeq =>
      obtain ⟨hle, htracks⟩ := hphase
      obtain ⟨_, hnumber⟩ := Engine.regular_deliver hregular hdeliver
      have htracks' := htracks.deliver hdeliver (by omega)
      obtain ⟨_, _, rfl⟩ := Engine.backlog_deliver hdeliver
      exact ⟨hle, htracks'⟩

end Engine

namespace Sound

open Session

variable {s next : Session L R}

theorem handle {phase : Phase} {ch : List Event} {link : List Frame} {lastSent : ℕ}
    (hsound : Sound s)
    (hphase : PhaseSound s.engine s.ch s.arriving s.phase →
      PhaseSound s.engine ch (replay (mutations (eventsOn link)) s.replica.contents) phase) :
    Sound { s with phase := phase, ch := ch, link := link, lastSent := lastSent } :=
  ⟨hsound.regular, hsound.accounted, hsound.ticketed, hsound.unlimited,
    fun hfailed => hphase (hsound.phase hfailed)⟩

theorem engine {a : EngineAction L} {e : Engine L} (hsound : Sound s)
    (hstep : s.engine.step a = some e) : Sound { s with engine := e } := by
  have hadvance := Engine.advance_step hsound.regular hstep
  exact ⟨hadvance.regular, hsound.accounted.advance hadvance, hsound.ticketed.step hstep,
    hsound.unlimited, fun hfailed => (hsound.phase hfailed).step hsound.regular hstep⟩

theorem onEvent (hsound : Sound s) (hstep : s.onEvent = some next) : Sound next := by
  obtain ⟨⟨ev, e⟩, hdeliver, rfl⟩ := Option.map_eq_some_iff.mp hstep
  have hregular := (Engine.regular_deliver hsound.regular hdeliver).1
  have haccounted := hsound.accounted.deliver hdeliver
  have hticketed := hsound.ticketed.deliver hdeliver
  simp only
  split_ifs with haccepted hroom
  · refine ⟨hregular, haccounted, hticketed, hsound.unlimited, ?_⟩
    intro _
    simp only [haccepted]
    trivial
  · exact ⟨hregular, haccounted, hticketed, hsound.unlimited,
      fun hfailed => (hsound.phase hfailed).deliver hsound.regular hdeliver⟩
  · exact ⟨hregular, haccounted, hticketed, hsound.unlimited, fun hfailed => by contradiction⟩

theorem register (hsound : Sound s) (hstep : s.register = some next) : Sound next := by
  unfold Session.register at hstep
  cases hcase : s.phase <;> simp only [hcase, reduceCtorEq, Option.some.injEq] at hstep
  subst hstep
  exact hsound.handle fun _ => behind_or_fresh_nil s.engine

theorem sync (hsound : Sound s) (hstep : s.sync = some next) : Sound next := by
  unfold Session.sync at hstep
  cases hcase : s.phase <;> simp only [hcase, reduceCtorEq, Option.some.injEq] at hstep
  subst hstep
  have hadvance := Engine.advance_sync hsound.regular
  refine ⟨hadvance.regular, hsound.accounted.advance hadvance, hsound.ticketed.sync,
    hsound.unlimited, ?_⟩
  intro hfailed
  have hphase := hsound.phase hfailed
  rw [hcase] at hphase
  rcases hphase with hfresh | hbehind
  · exact Or.inl (hfresh.advance hsound.regular hadvance)
  · exact Or.inr ⟨hbehind, hsound.ticketed.not_mem_acked⟩

theorem readSeq (hsound : Sound s) (hstep : s.readSeq = some next) : Sound next := by
  unfold Session.readSeq at hstep
  cases hcase : s.phase <;> simp only [hcase, reduceCtorEq] at hstep
  split_ifs at hstep with hacked
  cases hstep
  apply hsound.handle
  intro hphase
  rw [hcase] at hphase
  rcases hphase with hfresh | ⟨_, hwaiting⟩
  · exact ⟨le_rfl, hfresh.covered hsound.accounted⟩
  · exact absurd hacked hwaiting

theorem sendFlush (hsound : Sound s) (hstep : s.sendFlush = some next) : Sound next := by
  unfold Session.sendFlush at hstep
  cases hcase : s.phase <;> simp only [hcase, reduceCtorEq, Option.some.injEq] at hstep
  subst hstep
  apply hsound.handle
  intro hphase
  rw [hcase] at hphase
  refine ⟨hphase, ?_⟩
  intro key
  have hsend := replay_send s.link [Event.flush] s.replica.contents
  exact congrFun hsend key

theorem beginExport {now : ℤ} (hsound : Sound s) (hstep : s.beginExport now = some next) :
    Sound next := by
  unfold Session.beginExport at hstep
  cases hcase : s.phase <;> simp only [hcase, reduceCtorEq] at hstep
  obtain ⟨e, hread, rfl⟩ := Option.map_eq_some_iff.mp hstep
  obtain ⟨hadvance, hclock⟩ := Engine.advance_readClock hsound.regular hread
  have hticketed : e.Ticketed := by
    unfold Engine.readClock at hread
    split_ifs at hread
    cases hread
    exact ⟨hsound.ticketed.answered, hsound.ticketed.waiting⟩
  refine ⟨hadvance.regular, hsound.accounted.advance hadvance, hticketed, hsound.unlimited, ?_⟩
  intro hfailed
  have hphase := hsound.phase hfailed
  rw [hcase] at hphase
  obtain ⟨hcounted, hempty⟩ := hphase
  exact (hcounted.advance hsound.regular hadvance).beginExport hempty hclock.ge

theorem exportShard {order : List (Key × Item)} (hsound : Sound s)
    (hstep : s.exportShard order = some next) : Sound next := by
  unfold Session.exportShard at hstep
  cases hcase : s.phase <;> simp only [hcase, reduceCtorEq] at hstep
  split_ifs at hstep with hi horder
  cases hstep
  apply hsound.handle
  intro hphase
  rw [hcase] at hphase
  have hsend := replay_send s.link (order.map snapshotRecord) s.replica.contents
  rw [List.map_map] at hsend
  have hexported := Engine.Exporting.exportShard hphase hsound.regular.placed hi horder
  exact hsend ▸ hexported

theorem sendSynced (hsound : Sound s) (hstep : s.sendSynced = some next) : Sound next := by
  unfold Session.sendSynced at hstep
  cases hcase : s.phase with
  | exporting startSeq now i =>
      simp only [hcase] at hstep
      split_ifs at hstep with hi
      cases hstep
      apply hsound.handle
      intro hphase
      rw [hcase, hi] at hphase
      rw [replay_send_synced]
      exact ⟨hphase.counted.le_seq, hphase.tracks_all⟩
  | _ => simp [hcase] at hstep

theorem stream (hsound : Sound s) (hstep : s.stream = some next) : Sound next := by
  unfold Session.stream at hstep
  cases hcase : s.phase with
  | streaming startSeq =>
      cases hch : s.ch with
      | nil => simp [hcase, hch] at hstep
      | cons ev rest =>
          simp only [hcase, hch] at hstep
          split_ifs at hstep with hold
          · cases hstep
            apply hsound.handle
            intro hphase
            rw [hcase, hch] at hphase
            refine ⟨hphase.1, hphase.2.congr_above ?_⟩
            simp [above, hold]
          · cases hstep
            apply hsound.handle
            intro hphase
            rw [hcase, hch] at hphase
            have hlink := replay_send s.link [ev] s.replica.contents
            have htracks := hphase.2.replay_first (by omega)
            exact ⟨hphase.1, hlink ▸ htracks⟩
  | _ => simp [hcase] at hstep

theorem replicate (hsound : Sound s) (hstep : s.replicate = some next) : Sound next := by
  unfold Session.replicate at hstep
  cases hlink : s.link with
  | nil => simp [hlink] at hstep
  | cons frame rest =>
      simp only [hlink] at hstep
      split_ifs at hstep with hlarge
      · cases hstep
        exact ⟨hsound.regular, hsound.accounted, hsound.ticketed, hsound.unlimited,
          fun hfailed => by contradiction⟩
      · cases frame with
        | synced seq =>
            cases hstep
            refine ⟨hsound.regular, hsound.accounted, hsound.ticketed, hsound.unlimited, ?_⟩
            intro hfailed
            have hphase := hsound.phase hfailed
            rw [arriving, hlink] at hphase
            exact hphase
        | event ev =>
            cases hstep
            refine ⟨hsound.regular, hsound.accounted, hsound.ticketed,
              hsound.unlimited.applyEvent ev, ?_⟩
            intro hfailed
            have hphase := hsound.phase hfailed
            have hfirst : mutations (eventsOn (.event ev :: rest)) =
                mutations [ev] ++ mutations (eventsOn rest) :=
              mutations_append [ev] (eventsOn rest)
            rw [arriving, hlink, hfirst, replay_append,
              ← Cache.contents_applyEvent hsound.unlimited ev] at hphase
            exact hphase

theorem step {a : Action L} (hsound : Sound s) (hstep : s.step a = some next) :
    Sound next := by
  cases a with
  | engine a =>
      obtain ⟨e, he, rfl⟩ := Option.map_eq_some_iff.mp hstep
      exact hsound.engine he
  | onEvent => exact hsound.onEvent hstep
  | register => exact hsound.register hstep
  | sync => exact hsound.sync hstep
  | readSeq => exact hsound.readSeq hstep
  | sendFlush => exact hsound.sendFlush hstep
  | beginExport now => exact hsound.beginExport hstep
  | exportShard order => exact hsound.exportShard hstep
  | sendSynced => exact hsound.sendSynced hstep
  | stream => exact hsound.stream hstep
  | replicate => exact hsound.replicate hstep
  | ackTick =>
      cases hstep
      exact ⟨hsound.regular, hsound.accounted, hsound.ticketed, hsound.unlimited, hsound.phase⟩
  | readAck =>
      have hread : s.readAck = some next := hstep
      unfold Session.readAck at hread
      split at hread
      · cases hread
        exact ⟨hsound.regular, hsound.accounted, hsound.ticketed, hsound.unlimited,
          hsound.phase⟩
      · contradiction
  | fail =>
      cases hstep
      exact ⟨hsound.regular, hsound.accounted, hsound.ticketed, hsound.unlimited,
        fun hfailed => by contradiction⟩

end Sound

theorem sound_connect {c : Cache L} (hplaced : c.Placed) (clock : ℤ) {replica : Cache R}
    (hunlimited : replica.Unlimited) (lastApplied : ℕ) :
    Sound (Session.connect c clock replica lastApplied) :=
  ⟨Engine.regular_start hplaced clock, Engine.accounted_start c clock,
    Engine.ticketed_start c clock, hunlimited, fun _ => trivial⟩

/-- Whatever the primary's clients, its dispatcher and the two ends of the
connection do: once the snapshot has been sent and nothing is on its way, the
replica holds exactly the entries that are live in the primary. -/
theorem replica_live_eq_live
    (cfg : Config) (hash : Key → ℕ) (rng : ℕ → ℕ → ℕ) (recovered : List Event) (clock : ℤ)
    {replica : Cache R} (hunlimited : replica.Unlimited) (lastApplied : ℕ)
    (actions : List (Action (cfg.layout hash))) {final : Session (cfg.layout hash) R}
    (hrun : run Session.step (Session.connect
      ((Cache.new cfg hash rng).applyEvents recovered) clock replica lastApplied) actions =
        some final)
    (hfailed : final.failed = false) {startSeq : ℕ}
    (hphase : final.phase = .streaming startSeq) (hquiet : final.Quiet)
    {now : ℤ} (hnow : final.engine.clock ≤ now) (key : Key) :
    live now (final.replica.contents key) = live now (final.engine.cache.contents key) := by
  have hplaced := (Cache.placed_new cfg hash rng).applyEvents recovered
  have hsound : Sound final :=
    run_invariant Session.step (fun _ _ _ hsound hstep => hsound.step hstep)
      (sound_connect hplaced clock hunlimited lastApplied) hrun
  obtain ⟨hbacklog, hflushing, hch, hlink⟩ := hquiet
  have htracks := hsound.phase hfailed
  rw [hphase, hch, Session.arriving, hlink] at htracks
  exact htracks.2.live_eq hbacklog hflushing hnow trivial

def writeDuringHandshake : List (Action (Config.layout ⟨1, 0, 0, .lru⟩ fun _ => 0)) :=
  [.engine (.client ⟨⟨1, 1⟩, .setTTL [97] [49] 0⟩), .engine .dequeue, .onEvent, .register,
    .engine .publish, .sync, .engine .dequeue, .readSeq, .sendFlush, .replicate,
    .beginExport 2, .exportShard [([97], ⟨[49], 0⟩)],
    .engine (.client ⟨⟨3, 3⟩, .setTTL [98] [50] 10⟩), .engine .dequeue, .sendSynced,
    .replicate, .onEvent, .engine .publish, .replicate, .stream, .replicate]

def staleReplica : Cache (Config.layout ⟨2, 0, 0, .noEviction⟩ List.length) :=
  (Cache.unlimited 2 .noEviction List.length fun _ _ => 0).applyEvents [.set [99] [51] 0]

theorem replica_live_eq_live_writeDuringHandshake :
    ∃ final, run Session.step (Session.connect
        ((Cache.new ⟨1, 0, 0, .lru⟩ (fun _ => 0) fun _ _ => 0).applyEvents []) 0
          staleReplica 7) writeDuringHandshake = some final ∧
      final.lastApplied = 2 ∧
      ∀ key, live 5 (final.replica.contents key) =
        live 5 (final.engine.cache.contents key) := by
  have hend : (run Session.step (Session.connect
        ((Cache.new ⟨1, 0, 0, .lru⟩ (fun _ => 0) fun _ _ => 0).applyEvents []) 0
          staleReplica 7) writeDuringHandshake).map
        (fun s => (s.failed, s.phase, decide s.Quiet, s.engine.clock, s.lastApplied)) =
      some (false, .streaming 1, true, 3, 2) := by
    decide +kernel
  obtain ⟨final, hrun, hfinal⟩ := Option.map_eq_some_iff.mp hend
  simp only [Prod.mk.injEq, decide_eq_true_eq] at hfinal
  obtain ⟨hfailed, hphase, hquiet, hclock, happlied⟩ := hfinal
  have hunlimited : staleReplica.Unlimited :=
    (Cache.unlimited_unlimited 2 .noEviction List.length fun _ _ => 0).applyEvents _
  exact ⟨final, hrun, happlied, replica_live_eq_live _ _ _ [] 0 hunlimited 7
    writeDuringHandshake hrun hfailed hphase hquiet (by omega)⟩

end Replication
end DistCache
