import DistCache.ReplicationStream

/-!
# The order of the numbers on a connection

The dispatcher numbers the events, the channel of a replica holds some of them, the link
carries them and the number of the snapshot, and the replica reports the last number that
it has taken.  The numbers keep their order on the whole way, also when the replica has
connected again: the number that it holds from before is not above that of the new
snapshot, because of the barrier.
-/

namespace DistCache

open Transition

variable {L R : Layout}

/-! ## The numbers of the dispatcher -/

namespace Engine

def handed (e : Engine L) : ℕ :=
  match e.handling with
  | .delivered ev => ev.seq
  | _ => e.seq

def Numbered (e : Engine L) : Prop :=
  ∀ ev, e.handling = .dequeued ev ∨ e.handling = .delivered ev → ev.seq = e.seq + 1

structure Counts (e next : Engine L) : Prop where
  numbered : next.Numbered
  seq : e.seq ≤ next.seq
  handed : e.handed ≤ next.handed
  acked : next.acked = e.acked ∨ e.handed ≤ next.seq

variable {e next : Engine L}

theorem numbered_start (c : Cache L) (clock : ℤ) : (start c clock).Numbered := by
  intro ev hev
  simp [start] at hev

theorem Numbered.seq_le_handed (hnumbered : e.Numbered) : e.seq ≤ e.handed := by
  unfold handed
  cases hhandling : e.handling with
  | idle => exact le_rfl
  | dequeued ev => exact le_rfl
  | delivered ev =>
      have hseq := hnumbered ev (Or.inr hhandling)
      show e.seq ≤ ev.seq
      omega

theorem Numbered.handed_le (hnumbered : e.Numbered) : e.handed ≤ e.seq + 1 := by
  unfold handed
  cases hhandling : e.handling with
  | idle => exact Nat.le_succ e.seq
  | dequeued ev => exact Nat.le_succ e.seq
  | delivered ev => exact (hnumbered ev (Or.inr hhandling)).le

theorem counts_same (hnumbered : e.Numbered) (hhandling : next.handling = e.handling)
    (hseq : next.seq = e.seq) (hacked : next.acked = e.acked) : Counts e next where
  numbered := by
    intro ev hev
    rw [hhandling] at hev
    rw [hseq]
    exact hnumbered ev hev
  seq := hseq.ge
  handed := by
    unfold handed
    rw [hhandling, hseq]
  acked := Or.inl hacked

theorem counts_dequeue (hnumbered : e.Numbered) (hstep : e.dequeue = some next) :
    Counts e next := by
  obtain ⟨hidle, ⟨ev, rest, _, rfl⟩ | ⟨ticket, rest, _, rfl⟩⟩ := dequeue_eq_some hstep
  · refine ⟨?_, le_rfl, by simp [handed, hidle], Or.inl rfl⟩
    rintro other (hother | hother)
    · cases hother
      rfl
    · cases hother
  · refine ⟨hnumbered, le_rfl, le_rfl, Or.inr ?_⟩
    simp [handed, hidle]

theorem counts_publish (hnumbered : e.Numbered) (hstep : e.publish = some next) :
    Counts e next := by
  obtain ⟨ev, hdelivered, rfl⟩ := publish_eq_some hstep
  refine ⟨?_, ?_, by simp [handed, hdelivered], Or.inl rfl⟩
  · rintro other (hother | hother) <;> cases hother
  · have hseq := hnumbered ev (Or.inr hdelivered)
    show e.seq ≤ ev.seq
    omega

theorem counts_step {a : EngineAction L} (hnumbered : e.Numbered)
    (hstep : e.step a = some next) : Counts e next := by
  cases a with
  | client st =>
      obtain ⟨_, rfl⟩ := client_eq_some hstep
      exact counts_same hnumbered rfl rfl rfl
  | flushAll =>
      obtain ⟨_, rfl⟩ := flushAll_eq_some hstep
      exact counts_same hnumbered rfl rfl rfl
  | flushNext =>
      obtain ⟨i, hi, _, rfl⟩ := flushNext_eq_some hstep
      exact counts_same hnumbered rfl rfl rfl
  | dequeue => exact counts_dequeue hnumbered hstep
  | publish => exact counts_publish hnumbered hstep

theorem counts_deliver {ev : Event} (hnumbered : e.Numbered)
    (hdeliver : e.deliver = some (ev, next)) :
    Counts e next ∧ e.handed < ev.seq ∧ next.handed = ev.seq := by
  obtain ⟨_, hdequeued, rfl⟩ := backlog_deliver hdeliver
  have hseq : ev.seq = e.seq + 1 := hnumbered ev (Or.inl hdequeued)
  have hhanded : e.handed = e.seq := by simp [handed, hdequeued]
  refine ⟨⟨?_, le_rfl, ?_, Or.inl rfl⟩, by omega, rfl⟩
  · rintro other (hother | hother)
    · cases hother
    · cases hother
      exact hseq
  · show e.handed ≤ ev.seq
    omega

end Engine

namespace Replication

/-! ## The numbers on a connection -/

def Frame.number : Frame → Option ℕ
  | .event ev => if 0 < ev.seq then some ev.seq else none
  | .synced seq => some seq

namespace Session

/-- The numbers that `lastAck` will run through if nothing else is sent. -/
def reports (s : Session L R) : List ℕ :=
  s.lastAck :: (s.acks ++ s.lastApplied :: s.link.filterMap Frame.number)

def Unsent (s : Session L R) : Prop :=
  s.lastSent = 0 ∧ s.link.filterMap Frame.number = []

/-- Where the reports stand in the steps of `handle`. -/
def PhaseRanked (s : Session L R) : Phase → Prop
  | .accepted => s.Unsent
  | .registered => s.Unsent
  | .syncing ticket =>
      s.Unsent ∧ (s.lastApplied ≤ s.engine.seq ∨ ticket ∉ s.engine.acked)
  | .counted startSeq => s.Unsent ∧ s.lastApplied ≤ startSeq ∧ startSeq ≤ s.engine.seq
  | .flushed startSeq => s.Unsent ∧ s.lastApplied ≤ startSeq ∧ startSeq ≤ s.engine.seq
  | .exporting startSeq _ _ => s.Unsent ∧ s.lastApplied ≤ startSeq ∧ startSeq ≤ s.engine.seq
  | .streaming startSeq =>
      (∀ n ∈ s.reports, n ≤ startSeq ∨ n ≤ s.lastSent) ∧
        (s.lastSent = 0 ∨ startSeq < s.lastSent)

/-- The reports come in order, and so do the events of the channel; the subscribers
have seen all of them. -/
structure Ranked (s : Session L R) : Prop where
  numbered : s.engine.Numbered
  ticketed : s.engine.Ticketed
  sorted : s.reports.Pairwise (· ≤ ·)
  reported : ∀ n ∈ s.reports, n ≤ s.engine.handed
  queue : (s.lastSent :: s.ch.map Event.seq).Pairwise (· < ·)
  queued : ∀ n ∈ s.lastSent :: s.ch.map Event.seq, n ≤ s.engine.handed
  phase : s.PhaseRanked s.phase

def reconnect (s : Session L R) : Session L R :=
  { s with
    phase := .accepted
    ch := []
    failed := false
    lastSent := 0
    lastAck := 0
    link := []
    acks := []
    synced := false }

variable {s next : Session L R}

theorem ranked_connect (c : Cache L) (clock : ℤ) (replica : Cache R) :
    (connect c clock replica 0).Ranked where
  numbered := Engine.numbered_start c clock
  ticketed := Engine.ticketed_start c clock
  sorted := by simp [reports, connect]
  reported := by simp [reports, connect]
  queue := by simp [connect]
  queued := by simp [connect]
  phase := ⟨rfl, rfl⟩

theorem reports_of_unsent (hunsent : s.Unsent) :
    s.reports = s.lastAck :: (s.acks ++ [s.lastApplied]) := by
  rw [reports, hunsent.2]

theorem reports_send (s : Session L R) (frame : Frame) (n : ℕ) (hnumber : frame.number = some n) :
    reports { s with link := s.link ++ [frame] } = s.reports ++ [n] := by
  simp [reports, hnumber]

theorem reports_stream (hstep : s.stream = some next) :
    ∀ n ∈ next.reports, n ∈ s.reports ∨ n = next.lastSent := by
  unfold Session.stream at hstep
  cases hcase : s.phase <;> cases hch : s.ch <;> simp only [hcase, hch, reduceCtorEq] at hstep
  next startSeq ev rest =>
    split_ifs at hstep with hold
    · cases hstep
      exact fun n hn => Or.inl hn
    · cases hstep
      intro n hn
      have hnumber : (Frame.event ev).number = some ev.seq := if_pos (by omega)
      have hn' : n ∈ s.reports ++ [ev.seq] := reports_send s (.event ev) ev.seq hnumber ▸ hn
      exact (List.mem_append.mp hn').imp_right List.mem_singleton.mp

theorem replicate_eq_some (hstep : s.replicate = some next) :
    ∃ frame rest lastApplied replica synced failed, s.link = frame :: rest ∧
      (lastApplied = s.lastApplied ∨ frame.number = some lastApplied) ∧
      next = { s with
        link := rest, lastApplied := lastApplied, replica := replica, synced := synced,
        failed := failed } := by
  unfold Session.replicate at hstep
  cases hlink : s.link with
  | nil => simp [hlink] at hstep
  | cons frame rest =>
      simp only [hlink] at hstep
      split_ifs at hstep with hlarge
      · cases hstep
        exact ⟨frame, rest, s.lastApplied, s.replica, s.synced, true, rfl, Or.inl rfl, rfl⟩
      · cases frame with
        | event ev =>
            cases hstep
            refine ⟨.event ev, rest, _, _, s.synced, s.failed, rfl, ?_, rfl⟩
            by_cases hseq : 0 < ev.seq
            · exact Or.inr (by simp [Frame.number, hseq])
            · exact Or.inl (if_neg hseq)
        | synced seq =>
            cases hstep
            exact ⟨.synced seq, rest, seq, s.replica, true, s.failed, rfl, Or.inr rfl, rfl⟩

theorem reports_replicate (hstep : s.replicate = some next) :
    next.reports.Sublist s.reports := by
  obtain ⟨frame, rest, lastApplied, replica, synced, failed, hlink, happlied, rfl⟩ :=
    replicate_eq_some hstep
  rw [reports, reports, hlink]
  refine List.Sublist.cons_cons _ (List.Sublist.append_left ?_ _)
  rcases happlied with rfl | hnumber
  · exact List.Sublist.cons_cons _ ((List.sublist_cons_self frame rest).filterMap _)
  · rw [List.filterMap_cons_some hnumber]
    exact List.sublist_cons_self _ _

theorem readAck_eq_some (hstep : s.readAck = some next) :
    ∃ startSeq seq rest, s.phase = .streaming startSeq ∧ s.acks = seq :: rest ∧
      next = { s with acks := rest, lastAck := seq } := by
  unfold Session.readAck at hstep
  cases hphase : s.phase <;> cases hacks : s.acks <;>
    simp only [hphase, hacks, reduceCtorEq, Option.some.injEq] at hstep
  next startSeq seq rest => exact ⟨startSeq, seq, rest, rfl, rfl, hphase ▸ hstep.symm⟩

theorem reports_readAck (hstep : s.readAck = some next) : next.reports.Sublist s.reports := by
  obtain ⟨startSeq, seq, rest, _, hacks, rfl⟩ := readAck_eq_some hstep
  rw [reports, reports, hacks]
  exact List.sublist_cons_self _ _

theorem reports_ackTick (s : Session L R) :
    reports { s with acks := s.acks ++ [s.lastApplied] } =
      s.lastAck :: (s.acks ++ s.lastApplied :: s.lastApplied ::
        s.link.filterMap Frame.number) := by
  simp [reports]

theorem reports_ackTick_subset (s : Session L R) :
    reports { s with acks := s.acks ++ [s.lastApplied] } ⊆ s.reports := by
  rw [reports_ackTick]
  intro n hn
  simp only [reports, List.mem_cons, List.mem_append] at hn ⊢
  tauto

namespace Ranked

theorem lastApplied_le (hranked : s.Ranked) : s.lastApplied ≤ s.engine.handed :=
  hranked.reported s.lastApplied (by simp [reports])

theorem reconnect (hranked : s.Ranked) : s.reconnect.Ranked where
  numbered := hranked.numbered
  ticketed := hranked.ticketed
  sorted := by simp [reports, Session.reconnect]
  reported := by
    have hlast := hranked.lastApplied_le
    simpa [reports, Session.reconnect] using hlast
  queue := by simp [Session.reconnect]
  queued := by simp [Session.reconnect]
  phase := ⟨rfl, rfl⟩

theorem counts {e : Engine L} (hranked : s.Ranked) (hcounts : Engine.Counts s.engine e)
    (hticketed : e.Ticketed) : Ranked { s with engine := e } where
  numbered := hcounts.numbered
  ticketed := hticketed
  sorted := hranked.sorted
  reported := fun n hn => (hranked.reported n hn).trans hcounts.handed
  queue := hranked.queue
  queued := fun n hn => (hranked.queued n hn).trans hcounts.handed
  phase := by
    have hphase := hranked.phase
    have hseq := hcounts.seq
    show PhaseRanked { s with engine := e } s.phase
    cases hcase : s.phase <;> rw [hcase] at hphase
    case accepted => exact hphase
    case registered => exact hphase
    case syncing ticket =>
      obtain ⟨hunsent, hsynced⟩ := hphase
      refine ⟨hunsent, ?_⟩
      rcases hcounts.acked with hacked | hacked
      · rcases hsynced with hle | hwaiting
        · exact Or.inl (hle.trans hseq)
        · exact Or.inr (hacked ▸ hwaiting)
      · exact Or.inl (hranked.lastApplied_le.trans hacked)
    case counted startSeq => exact ⟨hphase.1, hphase.2.1, hphase.2.2.trans hseq⟩
    case flushed startSeq => exact ⟨hphase.1, hphase.2.1, hphase.2.2.trans hseq⟩
    case exporting startSeq now i => exact ⟨hphase.1, hphase.2.1, hphase.2.2.trans hseq⟩
    case streaming startSeq => exact hphase

theorem engine {a : EngineAction L} {e : Engine L} (hranked : s.Ranked)
    (hstep : s.engine.step a = some e) : Ranked { s with engine := e } :=
  hranked.counts (Engine.counts_step hranked.numbered hstep) (hranked.ticketed.step hstep)

theorem onEvent (hranked : s.Ranked) (hstep : s.onEvent = some next) : next.Ranked := by
  obtain ⟨⟨ev, e⟩, hdeliver, rfl⟩ := Option.map_eq_some_iff.mp hstep
  obtain ⟨hcounts, hlater, hhanded⟩ := Engine.counts_deliver hranked.numbered hdeliver
  have hsame := hranked.counts hcounts (hranked.ticketed.deliver hdeliver)
  simp only
  split_ifs with haccepted hroom
  · exact hsame
  · have happend : s.lastSent :: (s.ch ++ [ev]).map Event.seq =
        (s.lastSent :: s.ch.map Event.seq) ++ [ev.seq] := by simp
    refine { hsame with queue := ?_, queued := ?_, phase := hsame.phase }
    · show (s.lastSent :: (s.ch ++ [ev]).map Event.seq).Pairwise (· < ·)
      rw [happend, List.pairwise_append]
      refine ⟨hranked.queue, List.pairwise_singleton _ _, ?_⟩
      intro n hn m hm
      rw [List.mem_singleton.mp hm]
      exact (hranked.queued n hn).trans_lt hlater
    · show ∀ n ∈ s.lastSent :: (s.ch ++ [ev]).map Event.seq, n ≤ e.handed
      intro n hn
      rw [happend] at hn
      rcases List.mem_append.mp hn with hn | hn
      · exact hsame.queued n hn
      · rw [List.mem_singleton.mp hn]
        exact hhanded.ge
  · exact { hsame with phase := hsame.phase }

theorem handle {phase : Phase} {link : List Frame} (hranked : s.Ranked)
    (hlink : link.filterMap Frame.number = s.link.filterMap Frame.number)
    (hphase : PhaseRanked { s with phase := phase, link := link } phase) :
    Ranked { s with phase := phase, link := link } where
  numbered := hranked.numbered
  ticketed := hranked.ticketed
  sorted := by
    have hsorted := hranked.sorted
    rwa [reports, ← hlink] at hsorted
  reported := by
    have hreported := hranked.reported
    rwa [reports, ← hlink] at hreported
  queue := hranked.queue
  queued := hranked.queued
  phase := hphase

theorem register (hranked : s.Ranked) (hstep : s.register = some next) : next.Ranked := by
  unfold Session.register at hstep
  have hphase := hranked.phase
  cases hcase : s.phase <;> simp only [hcase, reduceCtorEq, Option.some.injEq] at hstep
  subst hstep
  rw [hcase] at hphase
  have hempty : (s.lastSent :: ([] : List Event).map Event.seq).Pairwise (· < ·) :=
    List.pairwise_singleton _ _
  have hlast : s.lastSent ≤ s.engine.handed := hranked.queued s.lastSent List.mem_cons_self
  exact { hranked with
    queue := hempty
    queued := fun n hn => (List.mem_singleton.mp hn).symm ▸ hlast
    phase := hphase }

theorem sync (hranked : s.Ranked) (hstep : s.sync = some next) : next.Ranked := by
  unfold Session.sync at hstep
  have hphase := hranked.phase
  cases hcase : s.phase <;> simp only [hcase, reduceCtorEq, Option.some.injEq] at hstep
  subst hstep
  rw [hcase] at hphase
  have hcounts : Engine.Counts s.engine s.engine.sync :=
    Engine.counts_same hranked.numbered rfl rfl rfl
  have hsame := hranked.counts hcounts hranked.ticketed.sync
  exact { hsame with phase := ⟨hphase, Or.inr hranked.ticketed.not_mem_acked⟩ }

theorem readSeq (hranked : s.Ranked) (hstep : s.readSeq = some next) : next.Ranked := by
  unfold Session.readSeq at hstep
  have hphase := hranked.phase
  cases hcase : s.phase <;> simp only [hcase, reduceCtorEq] at hstep
  next ticket =>
    rw [hcase] at hphase
    obtain ⟨hunsent, hsynced⟩ := hphase
    split_ifs at hstep with hmem
    cases hstep
    have hle : s.lastApplied ≤ s.engine.seq := hsynced.resolve_right (not_not_intro hmem)
    exact hranked.handle rfl ⟨hunsent, hle, le_rfl⟩

theorem sendFlush (hranked : s.Ranked) (hstep : s.sendFlush = some next) : next.Ranked := by
  unfold Session.sendFlush at hstep
  have hphase := hranked.phase
  cases hcase : s.phase <;> simp only [hcase, reduceCtorEq, Option.some.injEq] at hstep
  subst hstep
  rw [hcase] at hphase
  have hlink : (s.link ++ [Frame.event Event.flush]).filterMap Frame.number =
      s.link.filterMap Frame.number := by
    simp [Frame.number, Event.flush]
  exact hranked.handle hlink ⟨⟨hphase.1.1, hlink.trans hphase.1.2⟩, hphase.2⟩

theorem beginExport {now : ℤ} (hranked : s.Ranked) (hstep : s.beginExport now = some next) :
    next.Ranked := by
  unfold Session.beginExport at hstep
  have hphase := hranked.phase
  cases hcase : s.phase <;> simp only [hcase, reduceCtorEq] at hstep
  next startSeq =>
    rw [hcase] at hphase
    obtain ⟨e, hread, rfl⟩ := Option.map_eq_some_iff.mp hstep
    unfold Engine.readClock at hread
    split_ifs at hread with hclock
    cases hread
    have hcounts : Engine.Counts s.engine { s.engine with clock := now } :=
      Engine.counts_same hranked.numbered rfl rfl rfl
    have hsame := hranked.counts hcounts
      ⟨hranked.ticketed.answered, hranked.ticketed.waiting⟩
    exact { hsame with phase := hphase }

theorem exportShard {order : List (Key × Item)} (hranked : s.Ranked)
    (hstep : s.exportShard order = some next) : next.Ranked := by
  unfold Session.exportShard at hstep
  have hphase := hranked.phase
  cases hcase : s.phase <;> simp only [hcase, reduceCtorEq] at hstep
  next startSeq now i =>
    rw [hcase] at hphase
    split_ifs at hstep with hi hperm
    cases hstep
    have hlink : (s.link ++ order.map fun entry => Frame.event (snapshotRecord entry)).filterMap
        Frame.number = s.link.filterMap Frame.number := by
      simp [List.filterMap_map, Frame.number, snapshotRecord, Event.set, Function.comp_def]
    exact hranked.handle hlink ⟨⟨hphase.1.1, hlink.trans hphase.1.2⟩, hphase.2⟩

theorem le_lastApplied (hranked : s.Ranked) (hunsent : s.Unsent) {n : ℕ}
    (hn : n ∈ s.reports) : n ≤ s.lastApplied := by
  have hsorted := hranked.sorted
  rw [reports_of_unsent hunsent, ← List.cons_append] at hsorted hn
  rcases List.mem_append.mp hn with hn | hn
  · exact (List.pairwise_append.mp hsorted).2.2 n hn _ (List.mem_singleton_self _)
  · exact (List.mem_singleton.mp hn).le

theorem send {frame : Frame} {n : ℕ} (hranked : s.Ranked) (hnumber : frame.number = some n)
    (hle : ∀ m ∈ s.reports, m ≤ n) (hhanded : n ≤ s.engine.handed) :
    (reports { s with link := s.link ++ [frame] }).Pairwise (· ≤ ·) ∧
      ∀ m ∈ reports { s with link := s.link ++ [frame] }, m ≤ s.engine.handed := by
  rw [reports_send s frame n hnumber]
  constructor
  · rw [List.pairwise_append]
    refine ⟨hranked.sorted, List.pairwise_singleton _ _, ?_⟩
    intro m hm k hk
    rw [List.mem_singleton.mp hk]
    exact hle m hm
  · intro m hm
    rcases List.mem_append.mp hm with hm | hm
    · exact hranked.reported m hm
    · rw [List.mem_singleton.mp hm]
      exact hhanded

theorem sendSynced (hranked : s.Ranked) (hstep : s.sendSynced = some next) : next.Ranked := by
  unfold Session.sendSynced at hstep
  have hphase := hranked.phase
  cases hcase : s.phase <;> simp only [hcase, reduceCtorEq] at hstep
  next startSeq now i =>
    rw [hcase] at hphase
    obtain ⟨hunsent, happlied, hseq⟩ := hphase
    split_ifs at hstep with hi
    cases hstep
    have hle : ∀ m ∈ s.reports, m ≤ startSeq :=
      fun m hm => (hranked.le_lastApplied hunsent hm).trans happlied
    have hnumber : (Frame.synced startSeq).number = some startSeq := rfl
    have hsend := hranked.send hnumber hle
      (hseq.trans hranked.numbered.seq_le_handed)
    refine { hranked with sorted := hsend.1, reported := hsend.2, phase := ⟨?_, Or.inl hunsent.1⟩ }
    intro m hm
    left
    have hm' : m ∈ s.reports ++ [startSeq] :=
      reports_send s (.synced startSeq) startSeq hnumber ▸ hm
    rcases List.mem_append.mp hm' with hm' | hm'
    · exact hle m hm'
    · exact (List.mem_singleton.mp hm').le

theorem stream (hranked : s.Ranked) (hstep : s.stream = some next) : next.Ranked := by
  have hreports := reports_stream hstep
  unfold Session.stream at hstep
  have hphase := hranked.phase
  cases hcase : s.phase <;> cases hch : s.ch <;> simp only [hcase, hch, reduceCtorEq] at hstep
  next startSeq ev rest =>
    rw [hcase] at hphase
    obtain ⟨hbelow, hstart⟩ := hphase
    have hqueue := hranked.queue
    have hqueued := hranked.queued
    rw [hch, List.map_cons] at hqueue hqueued
    have hsent : s.lastSent < ev.seq := List.rel_of_pairwise_cons hqueue List.mem_cons_self
    split_ifs at hstep with hold
    · cases hstep
      refine { hranked with queue := ?_, queued := ?_, phase := ?_ }
      · exact hqueue.sublist (List.Sublist.cons_cons _ (List.sublist_cons_self _ _))
      · intro n hn
        refine hqueued n ?_
        rcases List.mem_cons.mp hn with rfl | hn
        · exact List.mem_cons_self
        · exact List.mem_cons_of_mem _ (List.mem_cons_of_mem _ hn)
      · exact ⟨hbelow, hstart⟩
    · cases hstep
      have hnumber : (Frame.event ev).number = some ev.seq := if_pos (by omega)
      have hle : ∀ m ∈ s.reports, m ≤ ev.seq := by
        intro m hm
        rcases hbelow m hm with hm | hm <;> omega
      have hsend := hranked.send hnumber hle (hqueued ev.seq (by simp))
      refine { hranked with
        sorted := hsend.1, reported := hsend.2, queue := ?_, queued := ?_, phase := ?_ }
      · exact hqueue.of_cons
      · exact fun n hn => hqueued n (List.mem_cons_of_mem _ hn)
      · refine ⟨?_, Or.inr (show startSeq < ev.seq by omega)⟩
        intro m hm
        right
        rcases hreports m hm with hm | hm
        · exact hle m hm
        · exact hm.le

theorem report {link : List Frame} {acks : List ℕ} {lastAck lastApplied : ℕ} {replica : Cache R}
    {synced failed : Bool} (hranked : s.Ranked)
    (hsorted : (lastAck :: (acks ++ lastApplied :: link.filterMap Frame.number)).Pairwise (· ≤ ·))
    (hsubset : lastAck :: (acks ++ lastApplied :: link.filterMap Frame.number) ⊆ s.reports)
    (hunsent : s.link.filterMap Frame.number = [] →
      link.filterMap Frame.number = [] ∧ lastApplied = s.lastApplied) :
    Ranked { s with
      link := link, acks := acks, lastAck := lastAck, lastApplied := lastApplied,
      replica := replica, synced := synced, failed := failed } where
  numbered := hranked.numbered
  ticketed := hranked.ticketed
  sorted := hsorted
  reported := fun n hn => hranked.reported n (hsubset hn)
  queue := hranked.queue
  queued := hranked.queued
  phase := by
    have hphase := hranked.phase
    show PhaseRanked _ s.phase
    cases hcase : s.phase <;> rw [hcase] at hphase
    case accepted => exact ⟨hphase.1, (hunsent hphase.2).1⟩
    case registered => exact ⟨hphase.1, (hunsent hphase.2).1⟩
    case syncing ticket =>
      obtain ⟨hlink, rfl⟩ := hunsent hphase.1.2
      exact ⟨⟨hphase.1.1, hlink⟩, hphase.2⟩
    case counted startSeq =>
      obtain ⟨hlink, rfl⟩ := hunsent hphase.1.2
      exact ⟨⟨hphase.1.1, hlink⟩, hphase.2⟩
    case flushed startSeq =>
      obtain ⟨hlink, rfl⟩ := hunsent hphase.1.2
      exact ⟨⟨hphase.1.1, hlink⟩, hphase.2⟩
    case exporting startSeq now i =>
      obtain ⟨hlink, rfl⟩ := hunsent hphase.1.2
      exact ⟨⟨hphase.1.1, hlink⟩, hphase.2⟩
    case streaming startSeq => exact ⟨fun n hn => hphase.1 n (hsubset hn), hphase.2⟩

theorem replicate (hranked : s.Ranked) (hstep : s.replicate = some next) : next.Ranked := by
  have hsub := reports_replicate hstep
  obtain ⟨frame, rest, lastApplied, replica, synced, failed, hlink, happlied, rfl⟩ :=
    replicate_eq_some hstep
  refine hranked.report (hranked.sorted.sublist hsub) hsub.subset ?_
  intro hunsent
  rw [hlink, List.filterMap_cons] at hunsent
  cases hnumber : frame.number with
  | some n => simp [hnumber] at hunsent
  | none =>
      rw [hnumber] at hunsent happlied
      exact ⟨hunsent, happlied.resolve_right (Option.some_ne_none _).symm⟩

theorem ackTick (hranked : s.Ranked) :
    Ranked { s with acks := s.acks ++ [s.lastApplied] } := by
  refine hranked.report ?_ (reports_ackTick_subset s) fun hlink => ⟨hlink, rfl⟩
  have hsorted := hranked.sorted
  show (reports { s with acks := s.acks ++ [s.lastApplied] }).Pairwise (· ≤ ·)
  rw [reports_ackTick, ← List.cons_append, List.pairwise_append]
  rw [reports, ← List.cons_append, List.pairwise_append] at hsorted
  obtain ⟨hacks, hrest, hcross⟩ := hsorted
  refine ⟨hacks, List.pairwise_cons.mpr ⟨?_, hrest⟩, ?_⟩
  · intro n hn
    rcases List.mem_cons.mp hn with rfl | hn
    · exact le_rfl
    · exact List.rel_of_pairwise_cons hrest hn
  · intro n hn m hm
    apply hcross n hn m
    rcases List.mem_cons.mp hm with rfl | hm
    · exact List.mem_cons_self
    · exact hm

theorem readAck (hranked : s.Ranked) (hstep : s.readAck = some next) : next.Ranked := by
  have hsub := reports_readAck hstep
  obtain ⟨startSeq, seq, rest, _, hacks, rfl⟩ := readAck_eq_some hstep
  exact hranked.report (hranked.sorted.sublist hsub) hsub.subset fun hlink => ⟨hlink, rfl⟩

theorem step {a : Action L} (hranked : s.Ranked) (hstep : s.step a = some next) :
    next.Ranked := by
  cases a with
  | engine a =>
      obtain ⟨e, he, rfl⟩ := Option.map_eq_some_iff.mp hstep
      exact hranked.engine he
  | onEvent => exact hranked.onEvent hstep
  | register => exact hranked.register hstep
  | sync => exact hranked.sync hstep
  | readSeq => exact hranked.readSeq hstep
  | sendFlush => exact hranked.sendFlush hstep
  | beginExport now => exact hranked.beginExport hstep
  | exportShard order => exact hranked.exportShard hstep
  | sendSynced => exact hranked.sendSynced hstep
  | stream => exact hranked.stream hstep
  | replicate => exact hranked.replicate hstep
  | ackTick =>
      cases hstep
      exact hranked.ackTick
  | readAck => exact hranked.readAck hstep
  | fail =>
      cases hstep
      exact { hranked with phase := hranked.phase }

end Ranked

theorem counters_step {a : Action L} (hnumbered : s.engine.Numbered) (ha : a ≠ .stream)
    (hstep : s.step a = some next) :
    next.lastSent = s.lastSent ∧ (a ≠ .readAck → next.lastAck = s.lastAck) ∧
      s.engine.seq ≤ next.engine.seq := by
  cases a with
  | stream => exact absurd rfl ha
  | engine a =>
      obtain ⟨e, he, rfl⟩ := Option.map_eq_some_iff.mp hstep
      exact ⟨rfl, fun _ => rfl, (Engine.counts_step hnumbered he).seq⟩
  | onEvent =>
      obtain ⟨⟨ev, e⟩, hdeliver, rfl⟩ := Option.map_eq_some_iff.mp hstep
      have hseq := (Engine.counts_deliver hnumbered hdeliver).1.seq
      simp only
      split_ifs <;> exact ⟨rfl, fun _ => rfl, hseq⟩
  | register =>
      simp only [step, register] at hstep
      cases hcase : s.phase <;> simp only [hcase, reduceCtorEq, Option.some.injEq] at hstep
      subst hstep
      exact ⟨rfl, fun _ => rfl, le_rfl⟩
  | sync =>
      simp only [step, sync] at hstep
      cases hcase : s.phase <;> simp only [hcase, reduceCtorEq, Option.some.injEq] at hstep
      subst hstep
      exact ⟨rfl, fun _ => rfl, le_rfl⟩
  | readSeq =>
      simp only [step, readSeq] at hstep
      cases hcase : s.phase <;> simp only [hcase, reduceCtorEq] at hstep
      split_ifs at hstep
      cases hstep
      exact ⟨rfl, fun _ => rfl, le_rfl⟩
  | sendFlush =>
      simp only [step, sendFlush] at hstep
      cases hcase : s.phase <;> simp only [hcase, reduceCtorEq, Option.some.injEq] at hstep
      subst hstep
      exact ⟨rfl, fun _ => rfl, le_rfl⟩
  | beginExport now =>
      simp only [step, beginExport] at hstep
      cases hcase : s.phase <;> simp only [hcase, reduceCtorEq] at hstep
      obtain ⟨e, hread, rfl⟩ := Option.map_eq_some_iff.mp hstep
      unfold Engine.readClock at hread
      split_ifs at hread
      cases hread
      exact ⟨rfl, fun _ => rfl, le_rfl⟩
  | exportShard order =>
      simp only [step, exportShard] at hstep
      cases hcase : s.phase <;> simp only [hcase, reduceCtorEq] at hstep
      split_ifs at hstep
      cases hstep
      exact ⟨rfl, fun _ => rfl, le_rfl⟩
  | sendSynced =>
      simp only [step, sendSynced] at hstep
      cases hcase : s.phase <;> simp only [hcase, reduceCtorEq] at hstep
      split_ifs at hstep
      cases hstep
      exact ⟨rfl, fun _ => rfl, le_rfl⟩
  | replicate =>
      obtain ⟨frame, rest, lastApplied, replica, synced, failed, _, _, rfl⟩ :=
        replicate_eq_some hstep
      exact ⟨rfl, fun _ => rfl, le_rfl⟩
  | ackTick =>
      cases hstep
      exact ⟨rfl, fun _ => rfl, le_rfl⟩
  | readAck =>
      obtain ⟨startSeq, seq, rest, _, _, rfl⟩ := readAck_eq_some hstep
      exact ⟨rfl, fun hne => absurd rfl hne, le_rfl⟩
  | fail =>
      cases hstep
      exact ⟨rfl, fun _ => rfl, le_rfl⟩

theorem reports_step_subset {a : Action L} {startSeq : ℕ} (hphase : s.phase = .streaming startSeq)
    (ha : a ≠ .stream) (hstep : s.step a = some next) :
    next.phase = .streaming startSeq ∧ next.reports ⊆ s.reports := by
  cases a with
  | stream => exact absurd rfl ha
  | engine a =>
      obtain ⟨e, he, rfl⟩ := Option.map_eq_some_iff.mp hstep
      exact ⟨hphase, List.Subset.refl _⟩
  | onEvent =>
      obtain ⟨⟨ev, e⟩, hdeliver, rfl⟩ := Option.map_eq_some_iff.mp hstep
      simp only
      split_ifs <;> exact ⟨hphase, List.Subset.refl _⟩
  | replicate =>
      refine ⟨?_, (reports_replicate hstep).subset⟩
      obtain ⟨frame, rest, lastApplied, replica, synced, failed, _, _, rfl⟩ :=
        replicate_eq_some hstep
      exact hphase
  | ackTick =>
      cases hstep
      exact ⟨hphase, reports_ackTick_subset s⟩
  | readAck =>
      refine ⟨?_, (reports_readAck hstep).subset⟩
      obtain ⟨_, seq, rest, _, _, rfl⟩ := readAck_eq_some hstep
      exact hphase
  | fail =>
      cases hstep
      exact ⟨hphase, List.Subset.refl _⟩
  | register => simp [step, register, hphase] at hstep
  | sync => simp [step, sync, hphase] at hstep
  | readSeq => simp [step, readSeq, hphase] at hstep
  | sendFlush => simp [step, sendFlush, hphase] at hstep
  | beginExport now => simp [step, beginExport, hphase] at hstep
  | exportShard order => simp [step, exportShard, hphase] at hstep
  | sendSynced => simp [step, sendSynced, hphase] at hstep

end Session

end Replication
end DistCache
