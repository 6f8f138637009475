import DistCache.Transition
import DistCache.LogCopy
import DistCache.CacheEvents

/-!
# The cache and its dispatcher

A client's step changes a shard and puts its events into the channel under the shard's
lock, so that both are one step here.  The dispatcher numbers an event, hands it to the
subscribers, and then publishes the number; it answers a barrier (`Sync`) by closing its
channel.  What the subscribers do is left to the components built on top.

`FlushAll` clears the shards one by one.  The keys of the shards that are still to be
cleared are unsettled.
-/

namespace DistCache

open DeadlineStore Eviction Transition

variable {L : Layout}

/-- A message of the channel; a barrier carries the channel to close. -/
inductive Msg where
  | event (ev : Event)
  | ack (ticket : ℕ)
  deriving DecidableEq, Repr

/-- Where the dispatcher is with the event that it has taken and numbered. -/
inductive Handling where
  | idle
  | dequeued (ev : Event)
  | delivered (ev : Event)
  deriving DecidableEq, Repr

structure Engine (L : Layout) where
  cache : Cache L
  chan : List Msg
  handling : Handling
  seq : ℕ
  tickets : ℕ
  acked : List ℕ
  flushing : Option ℕ
  clock : ℤ

def KeyOp.IsWrite : KeyOp L → Prop
  | .setTTL _ _ _ => True
  | .delete _ => True
  | .expire _ _ => True
  | .incrBy _ _ => True
  | .flush _ => True
  | _ => False

instance (op : KeyOp L) : Decidable op.IsWrite :=
  match op with
  | .setTTL _ _ _ => inferInstanceAs (Decidable True)
  | .delete _ => inferInstanceAs (Decidable True)
  | .expire _ _ => inferInstanceAs (Decidable True)
  | .incrBy _ _ => inferInstanceAs (Decidable True)
  | .flush _ => inferInstanceAs (Decidable True)
  | .get _ => inferInstanceAs (Decidable False)
  | .exists_ _ => inferInstanceAs (Decidable False)
  | .ttl _ => inferInstanceAs (Decidable False)
  | .sweepExpired _ _ _ => inferInstanceAs (Decidable False)
  | .keys _ => inferInstanceAs (Decidable False)
  | .len _ => inferInstanceAs (Decidable False)

inductive EngineAction (L : Layout) where
  | client (st : Step L)
  | flushAll
  | flushNext
  | dequeue
  | publish

namespace Engine

def start (c : Cache L) (clock : ℤ) : Engine L :=
  ⟨c, [], .idle, 0, 0, [], none, clock⟩

def emit (e : Engine L) (r : Cache L × List Event × Reply) : Engine L :=
  { e with cache := r.1, chan := e.chan ++ r.2.1.map .event }

/-- The clock does not run backwards; a write waits for the end of
`FlushAll`. -/
def client (e : Engine L) (st : Step L) : Option (Engine L) :=
  if ¬ st.op.IsFlush ∧ e.clock ≤ st.clock.first ∧ st.clock.first ≤ st.clock.second ∧
      (e.flushing ≠ none → ¬ st.op.IsWrite) then
    some { e.emit (e.cache.exec st) with clock := st.clock.second }
  else none

def flushAll (e : Engine L) : Option (Engine L) :=
  if e.flushing = none then some { e with flushing := some 0 } else none

def flushNext (e : Engine L) : Option (Engine L) :=
  match e.flushing with
  | none => none
  | some i =>
      if h : i < L.shards then
        some { e.emit (e.cache.exec ⟨unread, .flush ⟨i, h⟩⟩) with
          flushing := if i + 1 < L.shards then some (i + 1) else none }
      else none

def dequeue (e : Engine L) : Option (Engine L) :=
  match e.handling, e.chan with
  | .idle, .event ev :: rest =>
      some { e with chan := rest, handling := .dequeued { ev with seq := e.seq + 1 } }
  | .idle, .ack ticket :: rest =>
      some { e with chan := rest, acked := ticket :: e.acked }
  | _, _ => none

def deliver (e : Engine L) : Option (Event × Engine L) :=
  match e.handling with
  | .dequeued ev => some (ev, { e with handling := .delivered ev })
  | _ => none

def publish (e : Engine L) : Option (Engine L) :=
  match e.handling with
  | .delivered ev => some { e with seq := ev.seq, handling := .idle }
  | _ => none

def sync (e : Engine L) : Engine L :=
  { e with chan := e.chan ++ [.ack e.tickets], tickets := e.tickets + 1 }

def step (e : Engine L) : EngineAction L → Option (Engine L)
  | .client st => e.client st
  | .flushAll => e.flushAll
  | .flushNext => e.flushNext
  | .dequeue => e.dequeue
  | .publish => e.publish

def Drained (e : Engine L) : Prop :=
  e.chan = [] ∧ e.handling = .idle ∧ e.flushing = none

/-! ## What has not reached the subscribers -/

def eventsOf (chan : List Msg) : List Event :=
  chan.filterMap fun
    | .event ev => some ev
    | .ack _ => none

def Handling.taken : Handling → List Event
  | .dequeued ev => [ev]
  | _ => []

def Handling.seen : Handling → List Event
  | .delivered ev => [ev]
  | _ => []

def backlog (e : Engine L) : List Event :=
  Handling.taken e.handling ++ eventsOf e.chan

def Unsettled (e : Engine L) (key : Key) : Prop :=
  ∃ i, e.flushing = some i ∧ i ≤ (L.index key : ℕ)

@[simp] theorem eventsOf_append (first second : List Msg) :
    eventsOf (first ++ second) = eventsOf first ++ eventsOf second := by
  simp [eventsOf]

@[simp] theorem eventsOf_map_event (events : List Event) :
    eventsOf (events.map .event) = events := by
  induction events with
  | nil => rfl
  | cons ev rest ih =>
      have hcons : eventsOf ((ev :: rest).map .event) =
          ev :: eventsOf (rest.map .event) := rfl
      rw [hcons, ih]

@[simp] theorem backlog_emit (e : Engine L) (r : Cache L × List Event × Reply) :
    (e.emit r).backlog = e.backlog ++ r.2.1 := by
  simp [backlog, emit]

@[simp] theorem backlog_sync (e : Engine L) : e.sync.backlog = e.backlog := by
  simp [backlog, sync, eventsOf]

theorem backlog_deliver {e next : Engine L} {ev : Event}
    (hdeliver : e.deliver = some (ev, next)) :
    e.backlog = ev :: next.backlog ∧ e.handling = .dequeued ev ∧
      next = { e with handling := .delivered ev } := by
  unfold deliver at hdeliver
  cases hhandling : e.handling with
  | idle => simp [hhandling] at hdeliver
  | delivered other => simp [hhandling] at hdeliver
  | dequeued other =>
      simp only [hhandling, Option.some.injEq, Prod.mk.injEq] at hdeliver
      obtain ⟨rfl, rfl⟩ := hdeliver
      exact ⟨by simp [backlog, hhandling, Handling.taken], rfl, rfl⟩

/-! ## The invariant of the engine -/

/-- The shards that `FlushAll` has cleared stay empty, and the dispatcher numbers
without a gap. -/
structure Regular (e : Engine L) : Prop where
  placed : e.cache.Placed
  cleared : ∀ i, e.flushing = some i → ∀ key, (L.index key : ℕ) < i →
    e.cache.contents key = none
  numbered : ∀ ev, e.handling = .dequeued ev ∨ e.handling = .delivered ev →
    ev.seq = e.seq + 1

variable {e next : Engine L}

theorem Regular.seq_of_taken (hregular : e.Regular) {ev : Event}
    (hmem : ev ∈ Handling.taken e.handling) : ev.seq = e.seq + 1 := by
  cases hhandling : e.handling with
  | dequeued other =>
      rw [hhandling, Handling.taken, List.mem_singleton] at hmem
      rw [hmem]
      exact hregular.numbered other (Or.inl hhandling)
  | idle => simp [hhandling, Handling.taken] at hmem
  | delivered other => simp [hhandling, Handling.taken] at hmem

theorem regular_start {c : Cache L} (hplaced : c.Placed) (clock : ℤ) :
    (start c clock).Regular := by
  refine ⟨hplaced, ?_, ?_⟩
  · intro i hi
    simp [start] at hi
  · intro ev hev
    simp [start] at hev

theorem gone_of_lookupLive {s : Shard} {α : Type} {key : Key} {now : ℤ} {absent gone : α}
    {found : Item → Outcome α} (hfound : ∀ it, (found it).events = []) :
    ∃ removed : List Key, (s.lookupLive key now absent gone found).events = removed.map .del ∧
      ∀ key ∈ removed, live now (s.view key) = none := by
  apply Shard.lookupLive_rule (P := fun o : Outcome α => ∃ removed : List Key,
    o.events = removed.map .del ∧ ∀ key ∈ removed, live now (s.view key) = none)
  · exact fun _ => ⟨[], rfl, fun _ hmem => absurd hmem List.not_mem_nil⟩
  · intro it hlookup hexpired
    refine ⟨[key], rfl, ?_⟩
    intro other hmem
    rw [List.mem_singleton.mp hmem, Shard.view, hlookup]
    exact live_of_expired hexpired
  · exact fun it _ _ => ⟨[], hfound it, fun _ hmem => absurd hmem List.not_mem_nil⟩

theorem dead_of_mem_sweepLoop {now : ℤ} {order : List Key} {s : Shard} :
    ∀ key ∈ (Shard.sweepLoop now order s).2, live now (s.view key) = none := by
  induction order generalizing s with
  | nil => exact fun _ hmem => absurd hmem List.not_mem_nil
  | cons first rest ih =>
      intro key hmem
      simp only [Shard.sweepLoop] at hmem
      cases hlookup : s.items.lookup first with
      | none =>
          simp only [hlookup] at hmem
          exact ih key hmem
      | some it =>
          by_cases hexpired : it.expired now
          · simp only [hlookup, if_pos hexpired, List.mem_cons] at hmem
            have hfirst : live now (s.view first) = none := by
              rw [Shard.view, hlookup]
              exact live_of_expired hexpired
            rcases hmem with rfl | hmem
            · exact hfirst
            · have hlater := ih key hmem
              by_cases heq : first = key
              · rw [← heq]
                exact hfirst
              · rw [Shard.view_removeLocked] at hlater
                simpa [Mutation.apply, Mutation.effect, heq] using hlater
          · simp only [hlookup, if_neg hexpired] at hmem
            exact ih key hmem

theorem gone_of_not_write {clock : Clock} {op : KeyOp L} {s : Shard} (hop : ¬ op.IsWrite) :
    ∃ removed : List Key, (op.run clock s).events = removed.map .del ∧
      ∀ key ∈ removed, live clock.first (s.view key) = none := by
  cases op with
  | get key =>
      simp only [KeyOp.run, Shard.get]
      exact gone_of_lookupLive fun _ => rfl
  | exists_ key =>
      simp only [KeyOp.run, Shard.exists_]
      exact gone_of_lookupLive fun _ => rfl
  | ttl key =>
      simp only [KeyOp.run, Shard.ttl]
      exact gone_of_lookupLive fun _ => rfl
  | sweepExpired shard sample order => exact ⟨_, rfl, dead_of_mem_sweepLoop⟩
  | keys shard => exact ⟨[], rfl, fun _ hmem => absurd hmem List.not_mem_nil⟩
  | len shard => exact ⟨[], rfl, fun _ hmem => absurd hmem List.not_mem_nil⟩
  | setTTL key value lifetime => exact absurd trivial hop
  | delete key => exact absurd trivial hop
  | expire key lifetime => exact absurd trivial hop
  | incrBy key delta => exact absurd trivial hop
  | flush shard => exact absurd trivial hop

theorem dels_of_not_write {clock : Clock} {op : KeyOp L} {s : Shard}
    (hop : ¬ op.IsWrite) :
    ∀ mutation ∈ mutations (op.run clock s).events, ∃ key, mutation = .del key := by
  intro mutation hmem
  obtain ⟨removed, hevents, _⟩ : ∃ removed : List Key,
      (op.run clock s).events = removed.map .del ∧
        ∀ key ∈ removed, live clock.first (s.view key) = none := gone_of_not_write hop
  rw [hevents, mutations_map_del, List.mem_map] at hmem
  obtain ⟨key, _, rfl⟩ := hmem
  exact ⟨key, rfl⟩

theorem replay_dels_none {key : Key} {log : List (Mutation Key Bytes ℤ)} {store : Contents}
    (hlog : ∀ mutation ∈ log, ∃ key, mutation = .del key) (hstore : store key = none) :
    replay log store key = none := by
  induction log generalizing store with
  | nil => exact hstore
  | cons mutation log ih =>
      obtain ⟨other, rfl⟩ := hlog mutation List.mem_cons_self
      rw [replay_cons]
      apply ih fun m hmem => hlog m (List.mem_cons_of_mem _ hmem)
      by_cases heq : other = key <;> simp [Mutation.apply, Mutation.effect, heq, hstore]

theorem client_eq_some {st : Step L} (hstep : e.client st = some next) :
    (¬ st.op.IsFlush ∧ e.clock ≤ st.clock.first ∧ st.clock.first ≤ st.clock.second ∧
      (e.flushing ≠ none → ¬ st.op.IsWrite)) ∧
    next = { e.emit (e.cache.exec st) with clock := st.clock.second } := by
  unfold client at hstep
  split_ifs at hstep with hcond
  exact ⟨hcond, (Option.some.inj hstep).symm⟩

theorem flushNext_eq_some (hstep : e.flushNext = some next) :
    ∃ i, ∃ h : i < L.shards, e.flushing = some i ∧
      next = { e.emit (e.cache.exec ⟨unread, .flush ⟨i, h⟩⟩) with
        flushing := if i + 1 < L.shards then some (i + 1) else none } := by
  unfold flushNext at hstep
  cases hflushing : e.flushing with
  | none => simp [hflushing] at hstep
  | some i =>
      simp only [hflushing] at hstep
      by_cases hi : i < L.shards
      · rw [dif_pos hi] at hstep
        exact ⟨i, hi, rfl, (Option.some.inj hstep).symm⟩
      · rw [dif_neg hi] at hstep
        contradiction

theorem dequeue_eq_some (hstep : e.dequeue = some next) :
    e.handling = .idle ∧
      ((∃ ev rest, e.chan = .event ev :: rest ∧
          next = { e with chan := rest, handling := .dequeued { ev with seq := e.seq + 1 } }) ∨
        ∃ ticket rest, e.chan = .ack ticket :: rest ∧
          next = { e with chan := rest, acked := ticket :: e.acked }) := by
  unfold dequeue at hstep
  cases hhandling : e.handling with
  | dequeued ev => simp [hhandling] at hstep
  | delivered ev => simp [hhandling] at hstep
  | idle =>
      refine ⟨rfl, ?_⟩
      cases hchan : e.chan with
      | nil => simp [hhandling, hchan] at hstep
      | cons msg rest =>
          cases msg with
          | event ev =>
              simp only [hhandling, hchan, Option.some.injEq] at hstep
              exact Or.inl ⟨ev, rest, rfl, hstep.symm⟩
          | ack ticket =>
              simp only [hhandling, hchan, Option.some.injEq] at hstep
              exact Or.inr ⟨ticket, rest, rfl, hstep.symm⟩

theorem publish_eq_some (hstep : e.publish = some next) :
    ∃ ev, e.handling = .delivered ev ∧ next = { e with seq := ev.seq, handling := .idle } := by
  unfold publish at hstep
  cases hhandling : e.handling with
  | idle => simp [hhandling] at hstep
  | dequeued ev => simp [hhandling] at hstep
  | delivered ev =>
      simp only [hhandling, Option.some.injEq] at hstep
      exact ⟨ev, rfl, hstep.symm⟩

theorem mutations_backlog_dequeue (hstep : e.dequeue = some next) :
    mutations next.backlog = mutations e.backlog := by
  obtain ⟨hhandling, ⟨ev, rest, hchan, rfl⟩ | ⟨ticket, rest, hchan, rfl⟩⟩ :=
    dequeue_eq_some hstep
  · simp only [backlog, hhandling, hchan]
    rfl
  · simp only [backlog, hhandling, hchan]
    rfl

theorem backlog_publish (hstep : e.publish = some next) : next.backlog = e.backlog := by
  obtain ⟨ev, hhandling, rfl⟩ := publish_eq_some hstep
  simp only [backlog, hhandling]
  rfl

theorem flushAll_eq_some (hstep : e.flushAll = some next) :
    e.flushing = none ∧ next = { e with flushing := some 0 } := by
  unfold flushAll at hstep
  split_ifs at hstep with hidle
  exact ⟨hidle, (Option.some.inj hstep).symm⟩

/-- What one step of the engine does, seen from a component that follows the
stream: the step appends events to the backlog that move every settled key, and
the published number changes only when the dispatcher is done with an event. -/
structure Advance (e next : Engine L) : Prop where
  regular : next.Regular
  clock_le : e.clock ≤ next.clock
  emitted : ∃ events : List Event,
    mutations next.backlog = mutations e.backlog ++ mutations events ∧
      ∀ key, ¬ next.Unsettled key →
        Moves next.clock key (mutations events) (¬ e.Unsettled key)
          (e.cache.contents key) (next.cache.contents key)
  counter : next.seq = e.seq ∧ Handling.seen next.handling = Handling.seen e.handling ∨
    ∃ ev, e.handling = .delivered ev ∧ next.handling = .idle ∧ next.seq = ev.seq

theorem advance_client {st : Step L} (hregular : e.Regular)
    (hstep : e.client st = some next) : Advance e next := by
  obtain ⟨⟨hop, hfirst, hsecond, hwrite⟩, rfl⟩ := client_eq_some hstep
  have hcontents := Cache.contents_exec hregular.placed hop
  have htimely := Cache.timely_exec hregular.placed hop
  refine ⟨⟨Cache.placed_exec hregular.placed st, ?_, hregular.numbered⟩,
    hfirst.trans hsecond, ⟨(e.cache.exec st).2.1, ?_, ?_⟩, Or.inl ⟨rfl, rfl⟩⟩
  · intro i hi key hkey
    have hbusy : e.flushing ≠ none := by
      intro hnone
      have hi' : e.flushing = some i := hi
      rw [hnone] at hi'
      contradiction
    have hbefore := hregular.cleared i hi key hkey
    have hafter : (e.cache.exec st).1.contents key = none := by
      rw [hcontents]
      exact replay_dels_none (dels_of_not_write (hwrite hbusy)) hbefore
    exact hafter
  · have hbacklog : ({ e.emit (e.cache.exec st) with clock := st.clock.second } :
        Engine L).backlog = e.backlog ++ (e.cache.exec st).2.1 :=
      backlog_emit e (e.cache.exec st)
    rw [hbacklog, mutations_append]
  · intro key hsettled
    left
    refine ⟨hsettled, ?_⟩
    have hcarries : Carries st.clock.second key (mutations (e.cache.exec st).2.1)
        (e.cache.contents key)
        (replay (mutations (e.cache.exec st).2.1) e.cache.contents key) :=
      carries_replay htimely
    rw [← hcontents] at hcarries
    exact hcarries

theorem advance_flushNext (hregular : e.Regular) (hstep : e.flushNext = some next) :
    Advance e next := by
  obtain ⟨i, hi, hflushing, rfl⟩ := flushNext_eq_some hstep
  have hcontents := e.cache.contents_exec_flush unread ⟨i, hi⟩
  have hempty : ∀ key, (L.index key : ℕ) ≤ i →
      (e.cache.exec ⟨unread, .flush ⟨i, hi⟩⟩).1.contents key = none := by
    intro key hkey
    rw [hcontents]
    by_cases hshard : L.index key = ⟨i, hi⟩
    · rw [if_pos hshard]
    · rw [if_neg hshard]
      have hne : (L.index key : ℕ) ≠ i := fun heq => hshard (Fin.ext heq)
      exact hregular.cleared i hflushing key (by omega)
  refine ⟨⟨Cache.placed_exec hregular.placed _, ?_, hregular.numbered⟩, le_rfl,
    ⟨[Event.flush], ?_, ?_⟩, Or.inl ⟨rfl, rfl⟩⟩
  · intro j hj key hkey
    simp only at hj
    split_ifs at hj with hmore
    have hnext : i + 1 = j := Option.some.inj hj
    exact hempty key (by omega)
  · have hbacklog := backlog_emit e (e.cache.exec ⟨unread, .flush ⟨i, hi⟩⟩)
    have hevents : (e.cache.exec ⟨unread, .flush ⟨i, hi⟩⟩).2.1 = [Event.flush] := rfl
    rw [hevents] at hbacklog
    rw [← mutations_append, ← hbacklog]
    rfl
  · intro key hsettled
    right
    have hkey : (L.index key : ℕ) ≤ i := by
      by_contra hlarge
      apply hsettled
      have hlt := (L.index key).isLt
      refine ⟨i + 1, ?_, by omega⟩
      simp only
      rw [if_pos (by omega)]
    have hafter := hempty key hkey
    intro store
    exact (resets_snoc_flush key [] store).trans hafter.symm

theorem advance_flushAll (hregular : e.Regular) (hstep : e.flushAll = some next) :
    Advance e next := by
  obtain ⟨_, rfl⟩ := flushAll_eq_some hstep
  refine ⟨⟨hregular.placed, ?_, hregular.numbered⟩, le_rfl, ⟨[], ?_, ?_⟩, Or.inl ⟨rfl, rfl⟩⟩
  · intro i hi key hkey
    have hzero : 0 = i := Option.some.inj hi
    omega
  · rw [mutations_nil, List.append_nil]
    rfl
  · intro key hsettled
    exact absurd ⟨0, rfl, Nat.zero_le _⟩ hsettled

theorem advance_still (hregular : next.Regular)
    (hcache : next.cache = e.cache) (hflushing : next.flushing = e.flushing)
    (hclock : e.clock ≤ next.clock)
    (hbacklog : mutations next.backlog = mutations e.backlog)
    (hcounter : next.seq = e.seq ∧
        Handling.seen next.handling = Handling.seen e.handling ∨
      ∃ ev, e.handling = .delivered ev ∧ next.handling = .idle ∧ next.seq = ev.seq) :
    Advance e next := by
  refine ⟨hregular, hclock, ⟨[], ?_, ?_⟩, hcounter⟩
  · rw [hbacklog, mutations_nil, List.append_nil]
  · intro key hsettled
    left
    refine ⟨?_, ?_⟩
    · unfold Unsettled at hsettled ⊢
      rwa [hflushing] at hsettled
    · rw [hcache, mutations_nil]
      exact carries_refl _ _ _

theorem advance_dequeue (hregular : e.Regular) (hstep : e.dequeue = some next) :
    Advance e next := by
  obtain ⟨hhandling, ⟨ev, rest, hchan, rfl⟩ | ⟨ticket, rest, hchan, rfl⟩⟩ :=
    dequeue_eq_some hstep
  · have hregular' : ({ e with
        chan := rest
        handling := .dequeued { ev with seq := e.seq + 1 } } : Engine L).Regular := by
      refine ⟨hregular.placed, hregular.cleared, ?_⟩
      intro other hother
      rcases hother with hother | hother
      · cases hother
        rfl
      · contradiction
    have hseen : Handling.seen (.dequeued { ev with seq := e.seq + 1 }) =
        Handling.seen e.handling := by
      rw [hhandling]
      rfl
    exact advance_still (e := e) hregular' rfl rfl le_rfl (mutations_backlog_dequeue hstep)
      (Or.inl ⟨rfl, hseen⟩)
  · have hregular' : ({ e with chan := rest, acked := ticket :: e.acked } :
        Engine L).Regular := ⟨hregular.placed, hregular.cleared, hregular.numbered⟩
    exact advance_still (e := e) hregular' rfl rfl le_rfl (mutations_backlog_dequeue hstep)
      (Or.inl ⟨rfl, rfl⟩)

theorem advance_publish (hregular : e.Regular) (hstep : e.publish = some next) :
    Advance e next := by
  obtain ⟨ev, hhandling, rfl⟩ := publish_eq_some hstep
  have hregular' : ({ e with seq := ev.seq, handling := .idle } : Engine L).Regular := by
    refine ⟨hregular.placed, hregular.cleared, ?_⟩
    intro other hother
    rcases hother with hother | hother <;> contradiction
  exact advance_still (e := e) hregular' rfl rfl le_rfl
    (congrArg mutations (backlog_publish hstep)) (Or.inr ⟨ev, hhandling, rfl, rfl⟩)

theorem advance_step {a : EngineAction L} (hregular : e.Regular)
    (hstep : e.step a = some next) : Advance e next := by
  cases a with
  | client st => exact advance_client hregular hstep
  | flushAll => exact advance_flushAll hregular hstep
  | flushNext => exact advance_flushNext hregular hstep
  | dequeue => exact advance_dequeue hregular hstep
  | publish => exact advance_publish hregular hstep

theorem advance_sync (hregular : e.Regular) : Advance e e.sync :=
  advance_still ⟨hregular.placed, hregular.cleared, hregular.numbered⟩ rfl rfl le_rfl
    (by rw [backlog_sync]) (Or.inl ⟨rfl, rfl⟩)

def readClock (e : Engine L) (now : ℤ) : Option (Engine L) :=
  if e.clock ≤ now then some { e with clock := now } else none

theorem advance_readClock {now : ℤ} (hregular : e.Regular)
    (hread : e.readClock now = some next) : Advance e next ∧ next.clock = now := by
  unfold readClock at hread
  split_ifs at hread with hle
  cases hread
  refine ⟨?_, rfl⟩
  exact advance_still (e := e) ⟨hregular.placed, hregular.cleared, hregular.numbered⟩
    rfl rfl hle rfl (Or.inl ⟨rfl, rfl⟩)

theorem regular_deliver {ev : Event} (hregular : e.Regular)
    (hdeliver : e.deliver = some (ev, next)) : next.Regular ∧ ev.seq = e.seq + 1 := by
  obtain ⟨_, hhandling, rfl⟩ := backlog_deliver hdeliver
  have hseq := hregular.numbered ev (Or.inl hhandling)
  refine ⟨⟨hregular.placed, hregular.cleared, ?_⟩, hseq⟩
  intro other hother
  rcases hother with hother | hother
  · contradiction
  · cases hother
    exact hseq

/-! ## The events behind the published number -/

def unpublished (e : Engine L) : List Event := Handling.seen e.handling ++ e.backlog

/-- Every settled entry is explained by the events that are not published. -/
def Accounted (e : Engine L) : Prop :=
  ∀ key, ¬ e.Unsettled key →
    Explained key (mutations e.unpublished) (e.cache.contents key)

theorem accounted_start (c : Cache L) (clock : ℤ) : (start c clock).Accounted := by
  intro key _
  exact ⟨c.contents, rfl⟩

theorem Accounted.advance (haccounted : e.Accounted) (hadvance : Advance e next) :
    next.Accounted := by
  obtain ⟨events, hbacklog, hmoves⟩ := hadvance.emitted
  intro key hsettled
  have hmove := hmoves key hsettled
  have hexplained : Explained key (mutations e.unpublished ++ mutations events)
      (next.cache.contents key) :=
    Explained.moves (fun hbefore => haccounted key hbefore) hmove
  rcases hadvance.counter with ⟨_, hseen⟩ | ⟨ev, hdelivered, hidle, _⟩
  · rw [unpublished, mutations_append, hseen, hbacklog, ← List.append_assoc,
      ← mutations_append]
    exact hexplained
  · rw [unpublished, mutations_append, List.append_assoc, ← hbacklog] at hexplained
    rw [unpublished, mutations_append, hidle]
    exact hexplained.drop

theorem Accounted.deliver {ev : Event} (haccounted : e.Accounted)
    (hdeliver : e.deliver = some (ev, next)) : next.Accounted := by
  obtain ⟨hbacklog, hhandling, rfl⟩ := backlog_deliver hdeliver
  intro key hsettled
  have hexplained := haccounted key hsettled
  rw [unpublished, hhandling, hbacklog] at hexplained
  exact hexplained

/-! ## Barriers -/

structure Ticketed (e : Engine L) : Prop where
  answered : ∀ ticket ∈ e.acked, ticket < e.tickets
  waiting : ∀ ticket, .ack ticket ∈ e.chan → ticket < e.tickets

theorem ticketed_start (c : Cache L) (clock : ℤ) : (start c clock).Ticketed where
  answered := fun _ hmem => absurd hmem List.not_mem_nil
  waiting := fun _ hmem => absurd hmem List.not_mem_nil

theorem Ticketed.emit (hticketed : e.Ticketed) (r : Cache L × List Event × Reply) :
    (e.emit r).Ticketed := by
  refine ⟨hticketed.answered, ?_⟩
  intro ticket hmem
  rcases List.mem_append.mp hmem with hmem | hmem
  · exact hticketed.waiting ticket hmem
  · simp at hmem

theorem Ticketed.dequeue (hticketed : e.Ticketed) (hstep : e.dequeue = some next) :
    next.Ticketed := by
  obtain ⟨_, ⟨ev, rest, hchan, rfl⟩ | ⟨ticket, rest, hchan, rfl⟩⟩ := dequeue_eq_some hstep
  · refine ⟨hticketed.answered, ?_⟩
    intro ticket hmem
    apply hticketed.waiting
    rw [hchan]
    exact List.mem_cons_of_mem _ hmem
  · constructor
    · intro other hmem
      rcases List.mem_cons.mp hmem with rfl | hmem
      · apply hticketed.waiting
        rw [hchan]
        exact List.mem_cons_self
      · exact hticketed.answered other hmem
    · intro other hmem
      apply hticketed.waiting
      rw [hchan]
      exact List.mem_cons_of_mem _ hmem

theorem Ticketed.step {a : EngineAction L} (hticketed : e.Ticketed)
    (hstep : e.step a = some next) : next.Ticketed := by
  cases a with
  | client st =>
      obtain ⟨_, rfl⟩ := client_eq_some hstep
      exact ⟨hticketed.answered, (hticketed.emit _).waiting⟩
  | flushAll =>
      obtain ⟨_, rfl⟩ := flushAll_eq_some hstep
      exact ⟨hticketed.answered, hticketed.waiting⟩
  | flushNext =>
      obtain ⟨i, hi, _, rfl⟩ := flushNext_eq_some hstep
      exact ⟨hticketed.answered, (hticketed.emit _).waiting⟩
  | dequeue => exact hticketed.dequeue hstep
  | publish =>
      obtain ⟨ev, _, rfl⟩ := publish_eq_some hstep
      exact ⟨hticketed.answered, hticketed.waiting⟩

theorem Ticketed.sync (hticketed : e.Ticketed) : e.sync.Ticketed := by
  refine ⟨fun ticket hmem => Nat.lt_succ_of_lt (hticketed.answered ticket hmem), ?_⟩
  intro ticket hmem
  have hlast : ticket < e.tickets ∨ ticket = e.tickets := by
    rcases List.mem_append.mp hmem with hmem | hmem
    · exact Or.inl (hticketed.waiting ticket hmem)
    · rw [List.mem_singleton, Msg.ack.injEq] at hmem
      exact Or.inr hmem
  show ticket < e.tickets + 1
  omega

theorem Ticketed.deliver {ev : Event} (hticketed : e.Ticketed)
    (hdeliver : e.deliver = some (ev, next)) : next.Ticketed := by
  obtain ⟨_, _, rfl⟩ := backlog_deliver hdeliver
  exact ⟨hticketed.answered, hticketed.waiting⟩

theorem Ticketed.not_mem_acked (hticketed : e.Ticketed) : e.tickets ∉ e.acked :=
  fun hmem => (hticketed.answered _ hmem).false

theorem step_of_delivered {a : EngineAction L} {ev : Event}
    (hdelivered : e.handling = .delivered ev) (hstep : e.step a = some next) :
    next.handling = .idle ∨ next.handling = .delivered ev ∧ next.acked = e.acked := by
  cases a with
  | client st =>
      obtain ⟨_, rfl⟩ := client_eq_some hstep
      exact Or.inr ⟨hdelivered, rfl⟩
  | flushAll =>
      obtain ⟨_, rfl⟩ := flushAll_eq_some hstep
      exact Or.inr ⟨hdelivered, rfl⟩
  | flushNext =>
      obtain ⟨i, hi, _, rfl⟩ := flushNext_eq_some hstep
      exact Or.inr ⟨hdelivered, rfl⟩
  | dequeue =>
      obtain ⟨hidle, _⟩ := dequeue_eq_some hstep
      rw [hdelivered] at hidle
      contradiction
  | publish =>
      obtain ⟨_, _, rfl⟩ := publish_eq_some hstep
      exact Or.inl rfl

end Engine

end DistCache
