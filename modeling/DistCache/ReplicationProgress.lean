import DistCache.ReplicationNumbers

/-!
# The progress that a primary reports

The primary keeps the number of the last event that it has sent to a replica and the
last number that the replica has acknowledged.  The stream writes a frame, flushes its
writer when no other event waits, and only then stores the number; here these are
three steps, and the replica may connect again.

A replica acknowledges the number at which it was synced, and before that the one that
it holds from an earlier connection.  The first counter knows neither: it starts from
zero.
-/

namespace DistCache
namespace Replication

open Transition

variable {L R : Layout}

inductive Sending where
  | idle
  | written (seq : ℕ)
  | flushed (seq : ℕ)
  deriving DecidableEq, Repr

def Sending.pending : Sending → Option ℕ
  | .idle => none
  | .written seq => some seq
  | .flushed seq => some seq

structure Progress (L R : Layout) where
  session : Session L R
  w : List Frame
  sending : Sending

namespace Progress

/-- The stream takes its steps one by one, so `.session .stream` is not enabled. -/
inductive Action (L : Layout) where
  | session (a : Replication.Action L)
  | write (out : ℕ)
  | flush
  | store
  | reconnect

/-- The writer may pass on `out` frames by itself, when its buffer is full. -/
def write (p : Progress L R) (out : ℕ) : Option (Progress L R) :=
  match p.sending, p.session.phase, p.session.ch with
  | .idle, .streaming startSeq, ev :: rest =>
      if ev.seq ≤ startSeq then some { p with session := { p.session with ch := rest } }
      else
        some {
          session := { p.session with
            ch := rest
            link := p.session.link ++ (p.w ++ [Frame.event ev]).take out }
          w := (p.w ++ [Frame.event ev]).drop out
          sending := .written ev.seq }
  | _, _, _ => none

def flush (p : Progress L R) : Option (Progress L R) :=
  match p.sending with
  | .written seq =>
      if p.session.ch.length = 0 then
        some {
          session := { p.session with link := p.session.link ++ p.w }
          w := []
          sending := .flushed seq }
      else some { p with sending := .flushed seq }
  | _ => none

def store (p : Progress L R) : Option (Progress L R) :=
  match p.sending with
  | .flushed seq =>
      some { p with session := { p.session with lastSent := seq }, sending := .idle }
  | _ => none

def reconnect (p : Progress L R) : Progress L R := ⟨p.session.reconnect, [], .idle⟩

def step (p : Progress L R) : Action L → Option (Progress L R)
  | .session .stream => none
  | .session a => (p.session.step a).map fun s => { p with session := s }
  | .write out => p.write out
  | .flush => p.flush
  | .store => p.store
  | .reconnect => some p.reconnect

/-- The number of a replica that has not been connected before is zero. -/
def start (c : Cache L) (clock : ℤ) (replica : Cache R) (lastApplied : ℕ) : Progress L R :=
  ⟨Session.connect c clock replica lastApplied, [], .idle⟩

def lag (p : Progress L R) : ℤ := p.session.lastSent - p.session.lastAck

/-- The counters in the order of the way of an event. -/
def Ordered (p : Progress L R) : Prop :=
  p.session.lastAck ≤ p.session.lastSent ∧ p.session.lastSent ≤ p.session.engine.seq

/-- An acknowledgement is read after the store of the event that it is for, and
after that of some event if it is for the snapshot or for an earlier connection; that
of the number `carried` that the replica has brought along is read after one that is
not below it; a number is stored after the event has been published. -/
def Timely (carried : ℕ) (p : Progress L R) : Action L → Prop
  | .session .readAck => ∀ seq ∈ p.session.acks.head?,
      seq = 0 ∨ 0 < p.session.lastSent ∧ p.sending.pending ≠ some seq ∧
        (seq = carried → carried ≤ p.session.lastSent)
  | .store => ∀ seq ∈ p.sending.pending, seq ≤ p.session.engine.seq
  | _ => True

instance (carried : ℕ) (p : Progress L R) : (a : Action L) → Decidable (Timely carried p a)
  | .session .readAck => inferInstanceAs (Decidable (∀ seq ∈ p.session.acks.head?, _))
  | .store => inferInstanceAs (Decidable (∀ seq ∈ p.sending.pending, _))
  | .session (.engine _) | .session .onEvent | .session .register | .session .sync
  | .session .readSeq | .session .sendFlush | .session (.beginExport _)
  | .session (.exportShard _) | .session .sendSynced | .session .stream | .session .replicate
  | .session .ackTick | .session .fail | .write _ | .flush | .reconnect =>
      inferInstanceAs (Decidable True)

/-! ## The steps are those of the connection -/

/-- The connection without the buffered writer: a frame is on the link, and its
number is stored, once it is written. -/
def coarse (p : Progress L R) : Session L R :=
  { p.session with
    link := p.session.link ++ p.w
    lastSent := p.sending.pending.getD p.session.lastSent }

def Action.coarse : Action L → Option (Replication.Action L)
  | .session a => some a
  | .write _ => some .stream
  | _ => none

def Ready (p : Progress L R) : Prop :=
  (∃ startSeq, p.session.phase = .streaming startSeq) ∨ p.w = [] ∧ p.sending = .idle

variable {p next : Progress L R}

theorem step_session (p : Progress L R) {a : Replication.Action L} (ha : a ≠ .stream) :
    p.step (.session a) = (p.session.step a).map fun s => { p with session := s } := by
  cases a with
  | stream => exact absurd rfl ha
  | _ => rfl

theorem session_eq_some {a : Replication.Action L} (hstep : p.step (.session a) = some next) :
    a ≠ .stream ∧ ∃ s, p.session.step a = some s ∧ next = { p with session := s } := by
  have ha : a ≠ .stream := by
    rintro rfl
    cases hstep
  rw [step_session p ha] at hstep
  obtain ⟨s, hs, rfl⟩ := Option.map_eq_some_iff.mp hstep
  exact ⟨ha, s, hs, rfl⟩

theorem coarse_of_idle (hw : p.w = []) (hidle : p.sending = .idle) : p.coarse = p.session := by
  simp [coarse, hw, hidle, Sending.pending]

theorem coarse_onEvent {s : Session L R} (hstep : p.session.onEvent = some s) :
    p.coarse.onEvent = some (coarse { p with session := s }) := by
  obtain ⟨r, hdeliver, rfl⟩ := Option.map_eq_some_iff.mp hstep
  have hsame : p.coarse.engine.deliver = some r := hdeliver
  rw [Session.onEvent, hsame, Option.map_some]
  show some (if p.session.phase = .accepted then _
    else if p.session.ch.length < channelSize then _ else _) = _
  split_ifs <;> rfl

theorem coarse_replicate {s : Session L R} (hstep : p.session.replicate = some s) :
    p.coarse.replicate = some (coarse { p with session := s }) := by
  unfold Session.replicate at hstep
  cases hlink : p.session.link with
  | nil => simp [hlink] at hstep
  | cons frame rest =>
      have hcoarse : p.coarse.link = frame :: (rest ++ p.w) := by
        rw [coarse, hlink]
        rfl
      rw [Session.replicate, hcoarse]
      simp only [hlink] at hstep ⊢
      split_ifs at hstep with hlarge
      · cases hstep
        rw [if_pos hlarge]
        rfl
      · rw [if_neg hlarge]
        cases frame with
        | event ev =>
            cases hstep
            rfl
        | synced seq =>
            cases hstep
            rfl

theorem coarse_readAck {s : Session L R} (hstep : p.session.readAck = some s) :
    p.coarse.readAck = some (coarse { p with session := s }) := by
  obtain ⟨startSeq, seq, rest, hphase, hacks, rfl⟩ := Session.readAck_eq_some hstep
  have hphase' : p.coarse.phase = .streaming startSeq := hphase
  have hacks' : p.coarse.acks = seq :: rest := hacks
  rw [Session.readAck, hphase', hacks']
  simp only [coarse, hphase]

theorem coarse_session {a : Replication.Action L} {s : Session L R} (hready : p.Ready)
    (ha : a ≠ .stream) (hstep : p.session.step a = some s) :
    p.coarse.step a = some (coarse { p with session := s }) := by
  rcases hready with ⟨startSeq, hphase⟩ | ⟨hw, hidle⟩
  · cases a with
    | stream => exact absurd rfl ha
    | engine a =>
        obtain ⟨e, he, rfl⟩ := Option.map_eq_some_iff.mp hstep
        have hsame : p.coarse.engine.step a = some e := he
        rw [Session.step, hsame]
        rfl
    | onEvent => exact coarse_onEvent hstep
    | replicate => exact coarse_replicate hstep
    | ackTick =>
        cases hstep
        rfl
    | readAck => exact coarse_readAck hstep
    | fail =>
        cases hstep
        rfl
    | register => simp [Session.step, Session.register, hphase] at hstep
    | sync => simp [Session.step, Session.sync, hphase] at hstep
    | readSeq => simp [Session.step, Session.readSeq, hphase] at hstep
    | sendFlush => simp [Session.step, Session.sendFlush, hphase] at hstep
    | beginExport now => simp [Session.step, Session.beginExport, hphase] at hstep
    | exportShard order => simp [Session.step, Session.exportShard, hphase] at hstep
    | sendSynced => simp [Session.step, Session.sendSynced, hphase] at hstep
  · have hnext : coarse { p with session := s } = s := by
      simp [coarse, hw, hidle, Sending.pending]
    rw [coarse_of_idle hw hidle, hnext]
    exact hstep

theorem write_eq_some {out : ℕ} (hstep : p.write out = some next) :
    p.sending = .idle ∧ ∃ startSeq ev rest, p.session.phase = .streaming startSeq ∧
      p.session.ch = ev :: rest ∧
      (ev.seq ≤ startSeq ∧ next = { p with session := { p.session with ch := rest } } ∨
        startSeq < ev.seq ∧ next = {
          session := { p.session with
            ch := rest
            link := p.session.link ++ (p.w ++ [Frame.event ev]).take out }
          w := (p.w ++ [Frame.event ev]).drop out
          sending := .written ev.seq }) := by
  unfold write at hstep
  cases hsending : p.sending <;> cases hphase : p.session.phase <;> cases hch : p.session.ch <;>
    simp only [hsending, hphase, hch, reduceCtorEq] at hstep
  next startSeq ev rest =>
    refine ⟨rfl, startSeq, ev, rest, rfl, rfl, ?_⟩
    split_ifs at hstep with hold
    · exact Or.inl ⟨hold, by simpa [hsending, hphase] using hstep.symm⟩
    · exact Or.inr ⟨not_le.mp hold, by simpa [hphase] using hstep.symm⟩

theorem coarse_write {out : ℕ} (hstep : p.write out = some next) :
    p.coarse.step .stream = some next.coarse := by
  obtain ⟨hidle, startSeq, ev, rest, hphase, hch, hcase⟩ := write_eq_some hstep
  have hphase' : p.coarse.phase = .streaming startSeq := hphase
  have hch' : p.coarse.ch = ev :: rest := hch
  rw [Session.step, Session.stream, hphase', hch']
  rcases hcase with ⟨hold, rfl⟩ | ⟨hnew, rfl⟩
  · simp only [if_pos hold, coarse, hphase]
  · simp [coarse, hnew.not_ge, hphase, Sending.pending, List.append_assoc]

theorem flush_eq_some (hstep : p.flush = some next) :
    ∃ seq, p.sending = .written seq ∧ next.sending = .flushed seq ∧ next.coarse = p.coarse ∧
      next.session.lastSent = p.session.lastSent ∧ next.session.lastAck = p.session.lastAck := by
  unfold flush at hstep
  cases hsending : p.sending <;> simp only [hsending, reduceCtorEq] at hstep
  next seq =>
    split_ifs at hstep with hempty
    · cases hstep
      exact ⟨seq, rfl, rfl, by simp [coarse, hsending, Sending.pending], rfl, rfl⟩
    · cases hstep
      exact ⟨seq, rfl, rfl, by simp [coarse, hsending, Sending.pending], rfl, rfl⟩

theorem store_eq_some (hstep : p.store = some next) :
    ∃ seq, p.sending = .flushed seq ∧
      next = { p with session := { p.session with lastSent := seq }, sending := .idle } := by
  unfold store at hstep
  cases hsending : p.sending <;> simp only [hsending, reduceCtorEq, Option.some.injEq] at hstep
  next seq => exact ⟨seq, rfl, hstep.symm⟩

theorem coarse_store (hstep : p.store = some next) : next.coarse = p.coarse := by
  obtain ⟨seq, hsending, rfl⟩ := store_eq_some hstep
  simp [coarse, hsending, Sending.pending]

theorem coarse_step {a : Action L} (hready : p.Ready) (hstep : p.step a = some next) :
    next = p.reconnect ∨ next.coarse = p.coarse ∨
      ∃ b, a.coarse = some b ∧ p.coarse.step b = some next.coarse := by
  cases a with
  | session a =>
      obtain ⟨ha, s, hs, rfl⟩ := session_eq_some hstep
      exact Or.inr (Or.inr ⟨a, rfl, coarse_session hready ha hs⟩)
  | write out => exact Or.inr (Or.inr ⟨.stream, rfl, coarse_write hstep⟩)
  | flush =>
      obtain ⟨_, _, _, hcoarse, _⟩ := flush_eq_some hstep
      exact Or.inr (Or.inl hcoarse)
  | store => exact Or.inr (Or.inl (coarse_store hstep))
  | reconnect =>
      cases hstep
      exact Or.inl rfl

/-! ## What is between the writer and the counter -/

/-- While a number is to be stored, everything else that the replica can report is
from before. -/
structure Tracked (p : Progress L R) : Prop where
  ranked : p.coarse.Ranked
  ready : p.Ready
  between : ∀ seq, p.sending.pending = some seq →
    ∃ startSeq, p.session.phase = .streaming startSeq ∧ p.session.lastSent < seq ∧
      (p.session.lastSent = 0 ∨ startSeq < p.session.lastSent) ∧
      ∀ n ∈ p.coarse.reports, n ≤ startSeq ∨ n ≤ p.session.lastSent ∨ n = seq

theorem tracked_start (c : Cache L) (clock : ℤ) (replica : Cache R) :
    (start c clock replica 0).Tracked where
  ranked := Session.ranked_connect c clock replica
  ready := Or.inr ⟨rfl, rfl⟩
  between := nofun

namespace Tracked

theorem numbered (htracked : p.Tracked) : p.session.engine.Numbered := htracked.ranked.numbered

theorem session {a : Replication.Action L} (htracked : p.Tracked)
    (hstep : p.step (.session a) = some next) : next.Tracked := by
  obtain ⟨ha, s, hs, rfl⟩ := session_eq_some hstep
  have hcoarse := coarse_session htracked.ready ha hs
  have hsent := (Session.counters_step htracked.numbered ha hs).1
  refine ⟨htracked.ranked.step hcoarse, ?_, ?_⟩
  · rcases htracked.ready with ⟨startSeq, hphase⟩ | hidle
    · exact Or.inl ⟨startSeq, (Session.reports_step_subset hphase ha hs).1⟩
    · exact Or.inr hidle
  · intro seq hpending
    obtain ⟨startSeq, hphase, hlt, hstart, hbelow⟩ := htracked.between seq hpending
    have hsubset := (Session.reports_step_subset (s := p.coarse) hphase ha hcoarse).2
    refine ⟨startSeq, (Session.reports_step_subset hphase ha hs).1, ?_⟩
    rw [hsent]
    exact ⟨hlt, hstart, fun n hn => hbelow n (hsubset hn)⟩

theorem write {out : ℕ} (htracked : p.Tracked) (hstep : p.write out = some next) :
    next.Tracked := by
  have hcoarse := coarse_write hstep
  have hranked := htracked.ranked.step hcoarse
  obtain ⟨hidle, startSeq, ev, rest, hphase, hch, hcase⟩ := write_eq_some hstep
  have hsent : p.coarse.lastSent = p.session.lastSent := by
    simp [coarse, hidle, Sending.pending]
  rcases hcase with ⟨hold, rfl⟩ | ⟨hnew, rfl⟩
  · refine ⟨hranked, Or.inl ⟨startSeq, hphase⟩, ?_⟩
    intro seq hpending
    rw [hidle] at hpending
    cases hpending
  · refine ⟨hranked, Or.inl ⟨startSeq, hphase⟩, ?_⟩
    intro seq hpending
    cases hpending
    have hqueue := htracked.ranked.queue
    have hch' : p.coarse.ch = ev :: rest := hch
    rw [hsent, hch', List.map_cons] at hqueue
    have hbefore := htracked.ranked.phase
    have hphase' : p.coarse.phase = .streaming startSeq := hphase
    rw [hphase'] at hbefore
    obtain ⟨hbelow, hstart⟩ := hbefore
    rw [hsent] at hbelow hstart
    refine ⟨startSeq, hphase, List.rel_of_pairwise_cons hqueue List.mem_cons_self, hstart, ?_⟩
    intro n hn
    rcases Session.reports_stream hcoarse n hn with hn | hn
    · rcases hbelow n hn with hle | hle
      · exact Or.inl hle
      · exact Or.inr (Or.inl hle)
    · exact Or.inr (Or.inr hn)

theorem flush (htracked : p.Tracked) (hstep : p.flush = some next) : next.Tracked := by
  obtain ⟨seq, hwritten, hflushed, hcoarse, hsent, _⟩ := flush_eq_some hstep
  have hsame : next.coarse.phase = p.coarse.phase := congrArg Session.phase hcoarse
  have hphase : next.session.phase = p.session.phase := hsame
  obtain ⟨startSeq, hstreaming, hbetween⟩ :=
    htracked.between seq (by rw [hwritten]; rfl)
  refine ⟨hcoarse ▸ htracked.ranked, Or.inl ⟨startSeq, hphase.trans hstreaming⟩, ?_⟩
  intro other hpending
  rw [hflushed] at hpending
  cases hpending
  rw [hcoarse, hsent]
  exact ⟨startSeq, hphase.trans hstreaming, hbetween⟩

theorem store (htracked : p.Tracked) (hstep : p.store = some next) : next.Tracked := by
  have hcoarse := coarse_store hstep
  obtain ⟨seq, hflushed, rfl⟩ := store_eq_some hstep
  obtain ⟨startSeq, hstreaming, _⟩ := htracked.between seq (by rw [hflushed]; rfl)
  exact ⟨hcoarse ▸ htracked.ranked, Or.inl ⟨startSeq, hstreaming⟩, nofun⟩

theorem reconnect (htracked : p.Tracked) : p.reconnect.Tracked where
  ranked := htracked.ranked.reconnect
  ready := Or.inr ⟨rfl, rfl⟩
  between := nofun

theorem step {a : Action L} (htracked : p.Tracked) (hstep : p.step a = some next) :
    next.Tracked := by
  cases a with
  | session a => exact htracked.session hstep
  | write out => exact htracked.write hstep
  | flush => exact htracked.flush hstep
  | store => exact htracked.store hstep
  | reconnect =>
      cases hstep
      exact htracked.reconnect

theorem ack_le_iff (htracked : p.Tracked) {startSeq seq : ℕ}
    (hphase : p.session.phase = .streaming startSeq) (hseq : seq ∈ p.session.acks) :
    seq ≤ p.session.lastSent ↔
      seq = 0 ∨ 0 < p.session.lastSent ∧ p.sending.pending ≠ some seq := by
  have hmem : seq ∈ p.coarse.reports :=
    List.mem_cons_of_mem _ (List.mem_append_left _ hseq)
  cases hpending : p.sending.pending with
  | none =>
      have hranked := htracked.ranked.phase
      have hphase' : p.coarse.phase = .streaming startSeq := hphase
      have hsent : p.coarse.lastSent = p.session.lastSent := by simp [coarse, hpending]
      rw [hphase'] at hranked
      obtain ⟨hbelow, hstart⟩ := hranked
      rw [hsent] at hbelow hstart
      have hle := hbelow seq hmem
      have hne : (none : Option ℕ) ≠ some seq := by simp
      simp only [hne, not_false_eq_true, and_true, ne_eq]
      omega
  | some other =>
      obtain ⟨first, hfirst, hlt, hstart, hbelow⟩ := htracked.between other hpending
      rw [hphase, Phase.streaming.injEq] at hfirst
      subst hfirst
      have hle := hbelow seq hmem
      simp only [ne_eq, Option.some.injEq]
      omega

theorem lastSent_le (htracked : p.Tracked) :
    p.session.lastSent ≤ p.session.engine.seq + 1 := by
  have hqueued : p.coarse.lastSent ≤ p.session.engine.handed :=
    htracked.ranked.queued _ List.mem_cons_self
  have hhanded : p.session.engine.handed ≤ p.session.engine.seq + 1 :=
    htracked.numbered.handed_le
  cases hpending : p.sending.pending with
  | none =>
      have hsent : p.coarse.lastSent = p.session.lastSent := by simp [coarse, hpending]
      omega
  | some seq =>
      obtain ⟨_, _, hlt, _⟩ := htracked.between seq hpending
      have hsent : p.coarse.lastSent = seq := by simp [coarse, hpending]
      omega

end Tracked

/-! ## A replica that brings a number along -/

section Carried

def report (p : Progress L R) (lastAck : ℕ) (acks : List ℕ) (lastApplied : ℕ) : Progress L R :=
  { p with session := { p.session with
      lastAck := lastAck, acks := acks, lastApplied := lastApplied } }

def Action.Reports : Action L → Prop
  | .session .replicate | .session .ackTick | .session .readAck | .reconnect => True
  | _ => False

theorem step_report (p : Progress L R) {a : Action L} (ha : ¬ a.Reports) (lastAck : ℕ)
    (acks : List ℕ) (lastApplied : ℕ) :
    (p.report lastAck acks lastApplied).step a =
      (p.step a).map fun next => next.report lastAck acks lastApplied := by
  obtain ⟨s, w, sending⟩ := p
  obtain ⟨engine, phase, ch, failed, lastSent, ack, link, waiting, replica, synced, applied⟩ := s
  cases a with
  | session a =>
      cases a with
      | replicate => exact absurd trivial ha
      | ackTick => exact absurd trivial ha
      | readAck => exact absurd trivial ha
      | stream => rfl
      | fail => rfl
      | engine a =>
          simp only [step, Session.step, report]
          cases engine.step a <;> rfl
      | onEvent =>
          simp only [step, Session.step, Session.onEvent, report]
          cases engine.deliver with
          | none => rfl
          | some r =>
              by_cases hphase : phase = .accepted <;>
                by_cases hroom : ch.length < channelSize <;> simp [hphase, hroom]
      | readSeq =>
          cases phase with
          | syncing ticket =>
              by_cases hacked : ticket ∈ engine.acked <;>
                simp [step, Session.step, Session.readSeq, report, hacked]
          | _ => rfl
      | beginExport now =>
          cases phase with
          | flushed startSeq =>
              simp only [step, Session.step, Session.beginExport, report]
              cases engine.readClock now <;> rfl
          | _ => rfl
      | exportShard order =>
          cases phase with
          | exporting startSeq now i =>
              simp only [step, Session.step, Session.exportShard, report]
              by_cases hi : i < L.shards
              · by_cases hperm : order.Perm ((engine.cache.shards ⟨i, hi⟩).exportEntries now) <;>
                  simp [hi, hperm]
              · simp [hi]
          | _ => rfl
      | sendSynced =>
          cases phase with
          | exporting startSeq now i =>
              by_cases hi : i = L.shards <;>
                simp [step, Session.step, Session.sendSynced, report, hi]
          | _ => rfl
      | register => cases phase <;> rfl
      | sync => cases phase <;> rfl
      | sendFlush => cases phase <;> rfl
  | write out =>
      cases sending <;> cases phase <;> cases ch <;> try rfl
      next startSeq ev rest =>
        by_cases hold : ev.seq ≤ startSeq <;> simp [step, write, report, hold]
  | flush =>
      cases sending with
      | written seq => cases ch <;> rfl
      | _ => rfl
  | store => cases sending <;> rfl
  | reconnect => exact absurd trivial ha

/-- `own` is what a replica reports that brings no number along, where this one
reports `n`. -/
def Own (carried n own : ℕ) : Prop := n = own ∨ n = carried ∧ own = 0

/-- The same connection with a replica that brings no number along. -/
inductive Brings (carried : ℕ) (p : Progress L R) : Progress L R → Prop where
  | report {lastAck : ℕ} {acks : List ℕ} {lastApplied : ℕ}
      (hack : Own carried p.session.lastAck lastAck)
      (hacks : List.Forall₂ (Own carried) p.session.acks acks)
      (happlied : Own carried p.session.lastApplied lastApplied) :
      Brings carried p (p.report lastAck acks lastApplied)

variable {carried : ℕ} {own : Progress L R} {a : Action L}

theorem brings_replicate {lastAck lastApplied : ℕ} {acks : List ℕ}
    (hack : Own carried p.session.lastAck lastAck)
    (hacks : List.Forall₂ (Own carried) p.session.acks acks)
    (happlied : Own carried p.session.lastApplied lastApplied)
    (hstep : p.step (.session .replicate) = some next) :
    ∃ own, (p.report lastAck acks lastApplied).step (.session .replicate) = some own ∧
      Brings carried next own := by
  obtain ⟨s, w, sending⟩ := p
  obtain ⟨engine, phase, ch, failed, lastSent, ack, link, waiting, replica, synced, applied⟩ := s
  cases link with
  | nil => cases hstep
  | cons frame rest =>
      by_cases hlarge : maxFrame < frame.length
      · simp only [step, Session.step, Session.replicate, if_pos hlarge, Option.map_some,
          Option.some.injEq] at hstep
        subst hstep
        refine ⟨_, ?_, .report hack hacks happlied⟩
        simp only [step, Session.step, Session.replicate, report, if_pos hlarge, Option.map_some]
      · cases frame with
        | event ev =>
            have hlater : Own carried (if 0 < ev.seq then ev.seq else applied)
                (if 0 < ev.seq then ev.seq else lastApplied) := by
              split_ifs
              · exact Or.inl rfl
              · exact happlied
            simp only [step, Session.step, Session.replicate, if_neg hlarge, Option.map_some,
              Option.some.injEq] at hstep
            subst hstep
            refine ⟨_, ?_, .report hack hacks hlater⟩
            simp only [step, Session.step, Session.replicate, report, if_neg hlarge,
              Option.map_some]
        | synced seq =>
            have hlater : Own carried seq seq := Or.inl rfl
            simp only [step, Session.step, Session.replicate, if_neg hlarge, Option.map_some,
              Option.some.injEq] at hstep
            subst hstep
            refine ⟨_, ?_, .report hack hacks hlater⟩
            simp only [step, Session.step, Session.replicate, report, if_neg hlarge,
              Option.map_some]

theorem Brings.step (hbrings : Brings carried p own) (hstep : p.step a = some next) :
    ∃ own', own.step a = some own' ∧ Brings carried next own' := by
  obtain ⟨hack, hacks, happlied⟩ := hbrings
  rename_i lastAck acks lastApplied
  by_cases ha : a.Reports
  · cases a with
    | session a =>
        cases a with
        | replicate => exact brings_replicate hack hacks happlied hstep
        | ackTick =>
            cases hstep
            refine ⟨_, rfl, .report hack ?_ happlied⟩
            exact List.rel_append hacks (.cons happlied .nil)
        | readAck =>
            obtain ⟨-, s, hs, rfl⟩ := session_eq_some hstep
            obtain ⟨startSeq, seq, rest, hphase, hwaiting, rfl⟩ := Session.readAck_eq_some hs
            rw [hwaiting] at hacks
            cases hacks with
            | @cons _ first _ others hfirst hothers =>
                have hphase' : (p.report lastAck (first :: others) lastApplied).session.phase =
                    .streaming startSeq := hphase
                have hacks' : (p.report lastAck (first :: others) lastApplied).session.acks =
                    first :: others := rfl
                refine ⟨_, ?_, .report hfirst hothers happlied⟩
                rw [step_session _ (by simp), Session.step, Session.readAck, hphase', hacks']
                simp only [Progress.report, hphase, Option.map_some]
        | _ => exact absurd ha id
    | reconnect =>
        cases hstep
        exact ⟨_, rfl, .report (Or.inl rfl) .nil happlied⟩
    | _ => exact absurd ha id
  · have hsame := p.step_report ha p.session.lastAck p.session.acks p.session.lastApplied
    have hself : p.report p.session.lastAck p.session.acks p.session.lastApplied = p := rfl
    rw [hself, hstep, Option.map_some, Option.some.injEq] at hsame
    refine ⟨next.report lastAck acks lastApplied, ?_, .report ?_ ?_ ?_⟩
    · rw [p.step_report ha, hstep]
      rfl
    · rw [hsame]
      exact hack
    · rw [hsame]
      exact hacks
    · rw [hsame]
      exact happlied

/-- The connection of a replica with the number `carried` from elsewhere. -/
structure Brought (carried : ℕ) (p : Progress L R) : Prop where
  tracked : ∃ own, Brings carried p own ∧ own.Tracked

theorem brought_start (c : Cache L) (clock : ℤ) (replica : Cache R) (lastApplied : ℕ) :
    Brought lastApplied (start c clock replica lastApplied) :=
  ⟨start c clock replica 0, .report (Or.inl rfl) .nil (Or.inr ⟨rfl, rfl⟩),
    tracked_start c clock replica⟩

namespace Brought

theorem step (hbrought : p.Brought carried) (hstep : p.step a = some next) :
    next.Brought carried := by
  obtain ⟨own, hbrings, htracked⟩ := hbrought
  obtain ⟨own', hown, hbrings'⟩ := hbrings.step hstep
  exact ⟨own', hbrings', htracked.step hown⟩

theorem numbered (hbrought : p.Brought carried) : p.session.engine.Numbered := by
  obtain ⟨own, ⟨-, -, -⟩, htracked⟩ := hbrought
  exact htracked.numbered

theorem lt_of_pending (hbrought : p.Brought carried) (seq : ℕ)
    (hpending : p.sending.pending = some seq) : p.session.lastSent < seq := by
  obtain ⟨own, ⟨-, -, -⟩, htracked⟩ := hbrought
  obtain ⟨_, _, hlt, _⟩ := htracked.between seq hpending
  exact hlt

theorem lastSent_le (hbrought : p.Brought carried) :
    p.session.lastSent ≤ p.session.engine.seq + 1 := by
  obtain ⟨own, ⟨-, -, -⟩, htracked⟩ := hbrought
  exact htracked.lastSent_le

theorem ack_le_iff (hbrought : p.Brought carried) {startSeq seq : ℕ} {rest : List ℕ}
    (hphase : p.session.phase = .streaming startSeq) (hacks : p.session.acks = seq :: rest) :
    seq ≤ p.session.lastSent ↔ seq = 0 ∨ 0 < p.session.lastSent ∧
      p.sending.pending ≠ some seq ∧ (seq = carried → carried ≤ p.session.lastSent) := by
  have hlater : p.sending.pending = some seq → p.session.lastSent < seq :=
    hbrought.lt_of_pending seq
  obtain ⟨own, ⟨-, hreports, -⟩, htracked⟩ := hbrought
  rw [hacks] at hreports
  cases hreports with
  | @cons _ first _ others hfirst hothers =>
      have hiff := htracked.ack_le_iff hphase
        (show first ∈ first :: others from List.mem_cons_self)
      rcases hfirst with rfl | ⟨rfl, rfl⟩
      · constructor
        · intro hle
          exact (hiff.mp hle).imp_right fun h => ⟨h.1, h.2, fun heq => heq ▸ hle⟩
        · rintro (hzero | ⟨hsent, hpending, -⟩)
          · exact hiff.mpr (Or.inl hzero)
          · exact hiff.mpr (Or.inr ⟨hsent, hpending⟩)
      · constructor
        · intro hle
          rcases Nat.eq_zero_or_pos seq with hzero | hpos
          · exact Or.inl hzero
          · refine Or.inr ⟨by omega, fun hpending => ?_, fun _ => hle⟩
            have hlt := hlater hpending
            omega
        · rintro (hzero | ⟨-, -, hreached⟩)
          · omega
          · exact hreached rfl

theorem ack_grows (hbrought : p.Brought carried) {seq : ℕ} {rest : List ℕ}
    (hacks : p.session.acks = seq :: rest) :
    p.session.lastAck ≤ seq ∨ p.session.lastAck = carried := by
  obtain ⟨own, ⟨hack, hreports, -⟩, htracked⟩ := hbrought
  rw [hacks] at hreports
  cases hreports with
  | @cons _ first _ others hfirst hothers =>
      have hle := List.rel_of_pairwise_cons htracked.ranked.sorted
        (List.mem_append_left _ (List.mem_cons_self (a := first) (l := others)))
      rename_i lastAck lastApplied
      have hle' : lastAck ≤ first := hle
      rcases hack with hsame | ⟨hforeign, -⟩
      · rcases hfirst with hfirst | ⟨-, hzero⟩
        · omega
        · omega
      · exact Or.inr hforeign

theorem grows (hbrought : p.Brought carried) (hstep : p.step a = some next)
    (hsame : a ≠ .reconnect) :
    p.session.lastSent ≤ next.session.lastSent ∧
      (p.session.lastAck ≤ next.session.lastAck ∨ p.session.lastAck = carried) := by
  cases a with
  | reconnect => exact absurd rfl hsame
  | session a =>
      obtain ⟨ha, s, hs, rfl⟩ := session_eq_some hstep
      obtain ⟨hsent, hack, _⟩ := Session.counters_step hbrought.numbered ha hs
      refine ⟨hsent.ge, ?_⟩
      by_cases hread : a = .readAck
      · subst hread
        obtain ⟨startSeq, seq, rest, _, hacks, rfl⟩ := Session.readAck_eq_some hs
        exact hbrought.ack_grows hacks
      · exact Or.inl (hack hread).ge
  | write out =>
      obtain ⟨_, startSeq, ev, rest, _, _, ⟨_, rfl⟩ | ⟨_, rfl⟩⟩ := write_eq_some hstep
      · exact ⟨le_rfl, Or.inl le_rfl⟩
      · exact ⟨le_rfl, Or.inl le_rfl⟩
  | flush =>
      obtain ⟨_, _, _, _, hsent, hack⟩ := flush_eq_some hstep
      exact ⟨hsent.ge, Or.inl hack.ge⟩
  | store =>
      obtain ⟨seq, hflushed, rfl⟩ := store_eq_some hstep
      have hlt := hbrought.lt_of_pending seq (by rw [hflushed]; rfl)
      exact ⟨hlt.le, Or.inl le_rfl⟩

theorem ordered_iff (hbrought : p.Brought carried) (hordered : p.Ordered)
    (hstep : p.step a = some next) : next.Ordered ↔ Timely carried p a := by
  obtain ⟨hack, hsent⟩ := hordered
  cases a with
  | session a =>
      obtain ⟨ha, s, hs, rfl⟩ := session_eq_some hstep
      obtain ⟨hsent', hack', hseq⟩ := Session.counters_step hbrought.numbered ha hs
      have hsent'' : s.lastSent ≤ s.engine.seq := hsent' ▸ hsent.trans hseq
      by_cases hread : a = .readAck
      · subst hread
        obtain ⟨startSeq, seq, rest, hphase, hacks, rfl⟩ := Session.readAck_eq_some hs
        have hiff := hbrought.ack_le_iff hphase hacks
        have hhead : ∀ other, other ∈ p.session.acks.head? ↔ seq = other := by simp [hacks]
        constructor
        · intro hnext other hother
          rw [← (hhead other).mp hother]
          exact hiff.mp hnext.1
        · intro htimely
          exact ⟨hiff.mpr (htimely seq ((hhead seq).mpr rfl)), hsent⟩
      · have htimely : Timely carried p (.session a) := by
          cases a with
          | readAck => exact absurd rfl hread
          | _ => trivial
        refine iff_of_true ⟨?_, hsent''⟩ htimely
        show s.lastAck ≤ s.lastSent
        rw [hack' hread, hsent']
        exact hack
  | write out =>
      obtain ⟨_, startSeq, ev, rest, _, _, ⟨_, rfl⟩ | ⟨_, rfl⟩⟩ := write_eq_some hstep
      · exact iff_of_true ⟨hack, hsent⟩ trivial
      · exact iff_of_true ⟨hack, hsent⟩ trivial
  | flush =>
      obtain ⟨_, _, _, hcoarse, hsent', hack'⟩ := flush_eq_some hstep
      have hengine : next.coarse.engine = p.coarse.engine := congrArg Session.engine hcoarse
      have hseq : next.session.engine.seq = p.session.engine.seq := congrArg Engine.seq hengine
      refine iff_of_true ?_ trivial
      rw [Ordered, hsent', hack', hseq]
      exact ⟨hack, hsent⟩
  | store =>
      obtain ⟨seq, hflushed, rfl⟩ := store_eq_some hstep
      have hlt := hbrought.lt_of_pending seq (by rw [hflushed]; rfl)
      have hpending : ∀ other, other ∈ p.sending.pending ↔ seq = other := by
        simp [hflushed, Sending.pending]
      constructor
      · intro hnext other hother
        rw [← (hpending other).mp hother]
        exact hnext.2
      · intro htimely
        exact ⟨hack.trans hlt.le, htimely seq ((hpending seq).mpr rfl)⟩
  | reconnect =>
      cases hstep
      exact iff_of_true ⟨le_rfl, Nat.zero_le _⟩ trivial

end Brought

end Carried

/-! ## The counters along a run -/

section Runs

variable {actions : List (Action L)} {final : Progress L R}

def syncAndAck : List (Action (Config.layout ⟨1, 0, 0, .lru⟩ fun _ => 0)) :=
  ([.engine (.client ⟨⟨1, 1⟩, .setTTL [97] [49] 0⟩), .engine .dequeue, .onEvent,
    .engine .publish, .register, .sync, .engine .dequeue, .readSeq, .sendFlush, .beginExport 2,
    .exportShard [([97], ⟨[49], 0⟩)], .sendSynced, .replicate, .replicate, .replicate,
    .ackTick] : List (Replication.Action _)).map .session

def writeMore : List (Action (Config.layout ⟨1, 0, 0, .lru⟩ fun _ => 0)) :=
  ([.engine (.client ⟨⟨3, 3⟩, .setTTL [98] [50] 0⟩), .engine .dequeue, .onEvent] :
    List (Replication.Action _)).map .session

def startEmpty (lastApplied : ℕ) : Progress (Config.layout ⟨1, 0, 0, .lru⟩ fun _ => 0)
    (Config.layout ⟨1, 0, 0, .noEviction⟩ fun _ => 0) :=
  start (Cache.new ⟨1, 0, 0, .lru⟩ (fun _ => 0) fun _ _ => 0) 0
    (Cache.unlimited 1 .noEviction (fun _ => 0) fun _ _ => 0) lastApplied

end Runs

end Progress
end Replication
end DistCache
