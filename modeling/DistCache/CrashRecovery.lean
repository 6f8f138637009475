import DistCache.LogLoss
import DistCache.SnapshotRecovery

/-!
# A crash during or after a snapshot

The process ends at any point of a run.  What has been appended or renamed is there
when the next one starts; the events on their way are lost.  The snapshot may contain
lost events, since the cache is ahead of the file.

Every key comes back with the entry that it had after the appended events and perhaps
some of the others, unless the records behind the boundary only change its deadline and
the snapshot has a value whose `Set` is lost.
-/

namespace DistCache

open DeadlineStore Eviction Transition

variable {L : Layout}

def below (kept : List Event) (startSeq : ℕ) : List Event :=
  kept.filter fun ev => ev.seq ≤ startSeq

theorem below_append_above {kept : List Event}
    (hordered : kept.Pairwise fun first second => first.seq < second.seq) (startSeq : ℕ) :
    below kept startSeq ++ above kept startSeq = kept := by
  induction kept with
  | nil => rfl
  | cons ev rest ih =>
      rw [List.pairwise_cons] at hordered
      by_cases hle : ev.seq ≤ startSeq
      · have hbelow : below (ev :: rest) startSeq = ev :: below rest startSeq := by
          simp [below, hle]
        have habove : above (ev :: rest) startSeq = above rest startSeq := by
          simp [above, hle]
        rw [hbelow, habove, List.cons_append, ih hordered.2]
      · have hall : ∀ other ∈ ev :: rest, startSeq < other.seq := by
          intro other hmem
          rcases List.mem_cons.mp hmem with heq | hmem
          · rw [heq]
            omega
          · have hlater := hordered.1 other hmem
            omega
        have hbelow : below (ev :: rest) startSeq = [] := by
          apply List.filter_eq_nil_iff.mpr
          intro other hmem
          have hnumber := hall other hmem
          rw [decide_eq_true_eq]
          omega
        rw [hbelow, above_eq_self hall, List.nil_append]

theorem below_snoc (kept : List Event) {ev : Event} {startSeq : ℕ}
    (hnumber : startSeq < ev.seq) :
    below (kept ++ [ev]) startSeq = below kept startSeq := by
  simp [below, hnumber]

namespace Engine

/-- The copy of the entry was taken behind the boundary. -/
def Copied (e : Engine L) (logged : List Event) (startSeq : ℕ) (copy : Contents)
    (key : Key) : Prop :=
  TakenDuring e.clock key (mutations (below logged startSeq)) (e.logAbove logged startSeq) copy

/-- The history of the cache: what has been emitted, and the part of it that has
been handed on. -/
structure Recorded (e : Engine L) (emitted logged : List Event) : Prop where
  regular : e.Regular
  unflushed : e.flushing = none
  contents : e.cache.contents = outcome (mutations emitted)
  history : mutations emitted = mutations logged ++ mutations e.backlog
  ordered : logged.Pairwise fun first second => first.seq < second.seq
  counted : ∀ ev ∈ logged, ev.seq ≤ e.seq ∨ ev ∈ Handling.seen e.handling

structure Emits (e next : Engine L) (events : List Event) : Prop where
  advance : Advance e next
  unflushed : next.flushing = none
  backlog : mutations next.backlog = mutations e.backlog ++ mutations events
  contents : next.cache.contents = replay (mutations events) e.cache.contents
  timely : TimelyLog next.clock (mutations events) e.cache.contents

variable {e next : Engine L} {emitted logged events : List Event} {startSeq : ℕ}
  {copy : Contents} {key : Key}

/-! ## The steps of the engine -/

theorem emits_client {st : Step L} (hregular : e.Regular) (hidle : e.flushing = none)
    (hstep : e.client st = some next) : Emits e next (e.cache.exec st).2.1 := by
  have hadvance := advance_client hregular hstep
  obtain ⟨⟨hop, _, _, _⟩, rfl⟩ := client_eq_some hstep
  have hbacklog := backlog_emit e (e.cache.exec st)
  refine ⟨hadvance, hidle, ?_, Cache.contents_exec hregular.placed hop,
    Cache.timely_exec hregular.placed hop⟩
  rw [← mutations_append, ← hbacklog]
  rfl

theorem emits_nothing (hadvance : Advance e next) (hidle : e.flushing = none)
    (hflushing : next.flushing = e.flushing) (hcache : next.cache = e.cache)
    (hbacklog : mutations next.backlog = mutations e.backlog) : Emits e next [] := by
  refine ⟨hadvance, hflushing.trans hidle, ?_, ?_, trivial⟩
  · rw [hbacklog, mutations_nil, List.append_nil]
  · rw [hcache]
    rfl

theorem emits_dequeue (hregular : e.Regular) (hidle : e.flushing = none)
    (hstep : e.dequeue = some next) : Emits e next [] := by
  have hadvance := advance_dequeue hregular hstep
  have hbacklog := mutations_backlog_dequeue hstep
  obtain ⟨_, ⟨_, _, _, rfl⟩ | ⟨_, _, _, rfl⟩⟩ := dequeue_eq_some hstep
  · exact emits_nothing hadvance hidle rfl rfl hbacklog
  · exact emits_nothing hadvance hidle rfl rfl hbacklog

theorem emits_publish (hregular : e.Regular) (hidle : e.flushing = none)
    (hstep : e.publish = some next) : Emits e next [] := by
  have hadvance := advance_publish hregular hstep
  have hbacklog := backlog_publish hstep
  obtain ⟨_, _, rfl⟩ := publish_eq_some hstep
  exact emits_nothing hadvance hidle rfl rfl (congrArg mutations hbacklog)

theorem emits_sync (hregular : e.Regular) (hidle : e.flushing = none) : Emits e e.sync [] :=
  emits_nothing (advance_sync hregular) hidle rfl rfl (by rw [backlog_sync])

theorem emits_readClock {now : ℤ} (hregular : e.Regular) (hidle : e.flushing = none)
    (hread : e.readClock now = some next) : Emits e next [] ∧ next.clock = now := by
  obtain ⟨hadvance, hclock⟩ := advance_readClock hregular hread
  refine ⟨?_, hclock⟩
  unfold readClock at hread
  split_ifs at hread
  cases hread
  exact emits_nothing hadvance hidle rfl rfl rfl

/-! ## The history -/

theorem Recorded.below_above (hrecorded : e.Recorded emitted logged) (startSeq : ℕ) :
    mutations (below logged startSeq) ++ mutations (above logged startSeq) =
      mutations logged := by
  rw [← mutations_append, below_append_above hrecorded.ordered]

theorem Recorded.split (hrecorded : e.Recorded emitted logged) (startSeq : ℕ) :
    mutations emitted = mutations (below logged startSeq) ++ e.logAbove logged startSeq := by
  rw [logAbove, ← List.append_assoc, hrecorded.below_above]
  exact hrecorded.history

theorem Recorded.emits (hrecorded : e.Recorded emitted logged) (hemits : Emits e next events) :
    next.Recorded (emitted ++ events) logged := by
  refine ⟨hemits.advance.regular, hemits.unflushed, ?_, ?_, hrecorded.ordered, ?_⟩
  · rw [hemits.contents, hrecorded.contents, mutations_append, outcome_append]
  · rw [mutations_append, hrecorded.history, hemits.backlog, List.append_assoc]
  · intro ev hmem
    have hbefore := hrecorded.counted ev hmem
    rcases hemits.advance.counter with ⟨hseq, hseen⟩ | ⟨published, hdelivered, _, hseq⟩
    · rw [hseq, hseen]
      exact hbefore
    · have hnumber := hrecorded.regular.numbered published (Or.inr hdelivered)
      left
      rcases hbefore with hle | hpending
      · omega
      · rw [hdelivered, Handling.seen, List.mem_singleton] at hpending
        rw [hpending, hseq]

theorem Copied.emits (hcopied : e.Copied logged startSeq copy key)
    (hrecorded : e.Recorded emitted logged) (hemits : Emits e next events) :
    next.Copied logged startSeq copy key := by
  have htimely := hemits.timely
  rw [hrecorded.contents, hrecorded.split startSeq] at htimely
  unfold Copied
  rw [logAbove_advance hemits.backlog]
  exact TakenDuring.append hcopied hemits.advance.clock_le htimely

section Deliver

variable {ev : Event}

theorem Recorded.deliver (hrecorded : e.Recorded emitted logged)
    (hdeliver : e.deliver = some (ev, next)) : next.Recorded emitted (logged ++ [ev]) := by
  obtain ⟨hregular, hnumber⟩ := regular_deliver hrecorded.regular hdeliver
  obtain ⟨hbacklog, hhandling, hnext⟩ := backlog_deliver hdeliver
  have hpublished : ∀ other ∈ logged, other.seq ≤ e.seq := by
    intro other hmem
    have hcounted := hrecorded.counted other hmem
    rw [hhandling] at hcounted
    exact hcounted.resolve_right List.not_mem_nil
  refine ⟨hregular, ?_, ?_, ?_, ?_, ?_⟩
  · rw [hnext]
    exact hrecorded.unflushed
  · rw [hnext]
    exact hrecorded.contents
  · have hsplit : mutations (ev :: next.backlog) = mutations [ev] ++ mutations next.backlog :=
      mutations_append [ev] next.backlog
    rw [hrecorded.history, hbacklog, hsplit, mutations_append, List.append_assoc]
  · rw [List.pairwise_append]
    refine ⟨hrecorded.ordered, List.pairwise_singleton _ ev, ?_⟩
    intro other hmem last hlast
    have hle := hpublished other hmem
    rw [List.mem_singleton.mp hlast]
    omega
  · intro other hmem
    rw [hnext]
    rcases List.mem_append.mp hmem with hmem | hmem
    · exact Or.inl (hpublished other hmem)
    · exact Or.inr hmem

theorem Copied.deliver (hcopied : e.Copied logged startSeq copy key)
    (hregular : e.Regular) (hle : startSeq ≤ e.seq)
    (hdeliver : e.deliver = some (ev, next)) :
    next.Copied (logged ++ [ev]) startSeq copy key := by
  obtain ⟨_, hnumber⟩ := regular_deliver hregular hdeliver
  have hlt : startSeq < ev.seq := by omega
  have hclock : next.clock = e.clock := by
    obtain ⟨_, _, hnext⟩ := backlog_deliver hdeliver
    rw [hnext]
  unfold Copied
  rw [below_snoc logged hlt, logAbove_deliver hdeliver hlt, hclock]
  exact hcopied

end Deliver

/-! ## The export -/

structure Snapshotting (e : Engine L) (logged : List Event) (startSeq : ℕ) (now : ℤ) (i : ℕ)
    (copy : Contents) : Prop where
  boundary : startSeq ≤ e.seq
  now_le : now ≤ e.clock
  absent : ∀ key, i ≤ (L.index key : ℕ) → copy key = none
  copied : ∀ key, (L.index key : ℕ) < i → e.Copied logged startSeq copy key

variable {now : ℤ} {i : ℕ}

theorem Snapshotting.emits (hsnapshotting : e.Snapshotting logged startSeq now i copy)
    (hrecorded : e.Recorded emitted logged) (hemits : Emits e next events) :
    next.Snapshotting logged startSeq now i copy :=
  ⟨hsnapshotting.boundary.trans (seq_le_of_advance hrecorded.regular hemits.advance),
    hsnapshotting.now_le.trans hemits.advance.clock_le, hsnapshotting.absent,
    fun key hkey => (hsnapshotting.copied key hkey).emits hrecorded hemits⟩

theorem Snapshotting.deliver {ev : Event}
    (hsnapshotting : e.Snapshotting logged startSeq now i copy) (hregular : e.Regular)
    (hdeliver : e.deliver = some (ev, next)) :
    next.Snapshotting (logged ++ [ev]) startSeq now i copy := by
  have hboundary := hsnapshotting.boundary
  have hcopied : ∀ key, (L.index key : ℕ) < i →
      next.Copied (logged ++ [ev]) startSeq copy key :=
    fun key hkey => (hsnapshotting.copied key hkey).deliver hregular hboundary hdeliver
  obtain ⟨_, _, rfl⟩ := backlog_deliver hdeliver
  exact ⟨hboundary, hsnapshotting.now_le, hsnapshotting.absent, hcopied⟩

theorem Snapshotting.exportShard {order : List (Key × Item)}
    (hsnapshotting : e.Snapshotting logged startSeq now i copy)
    (hrecorded : e.Recorded emitted logged) (hi : i < L.shards)
    (horder : order.Perm ((e.cache.shards ⟨i, hi⟩).exportEntries now)) :
    e.Snapshotting logged startSeq now (i + 1)
      (replay (mutations (order.map snapshotRecord)) copy) := by
  have hother : ∀ key, (L.index key : ℕ) ≠ i →
      replay (mutations (order.map snapshotRecord)) copy key = copy key :=
    fun _ hne => replay_export_of_other_shard hrecorded.regular.placed hi horder hne
  refine ⟨hsnapshotting.boundary, hsnapshotting.now_le, ?_, ?_⟩
  · intro key hkey
    rw [hother key (by omega)]
    exact hsnapshotting.absent key (by omega)
  · intro key hkey
    by_cases hshard : (L.index key : ℕ) = i
    · have hindex : L.index key = ⟨i, hi⟩ := Fin.ext hshard
      apply takenDuring_export hsnapshotting.now_le
      rw [← hrecorded.split startSeq, ← hrecorded.contents,
        replay_export_of_absent horder (hsnapshotting.absent key hshard.ge), Cache.contents,
        hindex]
    · exact (hsnapshotting.copied key (by omega)).congr (hother key hshard)

end Engine

namespace Persistence

/-! ## The history of a run -/

inductive Note where
  | emitted (ev : Event)
  | appended (ev : Event)

def emitted (trace : List Note) : List Event :=
  trace.filterMap fun
    | .emitted ev => some ev
    | .appended _ => none

def appended (trace : List Note) : List Event :=
  trace.filterMap fun
    | .emitted _ => none
    | .appended ev => some ev

@[simp] theorem emitted_append (first second : List Note) :
    emitted (first ++ second) = emitted first ++ emitted second :=
  List.filterMap_append

@[simp] theorem appended_append (first second : List Note) :
    appended (first ++ second) = appended first ++ appended second :=
  List.filterMap_append

@[simp] theorem emitted_map_emitted (events : List Event) :
    emitted (events.map .emitted) = events := by
  rw [emitted, List.filterMap_map]
  exact List.filterMap_some

@[simp] theorem appended_map_emitted (events : List Event) :
    appended (events.map .emitted) = [] := by
  simp [appended]

@[simp] theorem emitted_map_appended (events : List Event) :
    emitted (events.map .appended) = [] := by
  simp [emitted]

@[simp] theorem appended_map_appended (events : List Event) :
    appended (events.map .appended) = events := by
  rw [appended, List.filterMap_map]
  exact List.filterMap_some

namespace Manager

/-- The clients emit the events, and `append` writes the one that the dispatcher
has taken. -/
def notes (m : Manager L) : Action L → List Note
  | .engine (.client st) => (m.engine.cache.exec st).2.1.map .emitted
  | .append => (Engine.Handling.taken m.engine.handling).map .appended
  | _ => []

/-- A step of the clients on single keys, of the dispatcher or of a snapshot. -/
def SingleKey : Action L → Prop
  | .engine .flushAll => False
  | _ => True

/-- The records behind the boundary only change the deadline of the key, and the
value that the snapshot has for it is that of a `Set` which a crash loses. -/
def Torn (m : Manager L) (key : Key) : Prop :=
  (effectOf key (mutations (m.disk.recordsFrom m.disk.startSeq))).IsRetime ∧
    ∃ ev ∈ m.engine.backlog, ev.op = .opSet ∧ ev.key = key ∧
      (copyOf m.disk.entries key).map Entry.value = some ev.value

instance (m : Manager L) (key : Key) : Decidable (m.Torn key) :=
  inferInstanceAs (Decidable (_ ∧ _))

/-! ## The invariant of a run -/

/-- What a call of `Snapshot` has achieved. -/
def PhaseRecorded (m : Manager L) (logged : List Event) : Prop :=
  match m.phase with
  | .idle => True
  | .syncing _ => True
  | .counted startSeq => m.disk.startSeq ≤ startSeq ∧ startSeq ≤ m.engine.seq
  | .exporting startSeq now i entries =>
      m.disk.startSeq ≤ startSeq ∧
        m.engine.Snapshotting logged startSeq now i (copyOf entries)
  | .replaced startSeq => m.disk.startSeq = startSeq

/-- The file holds the appended events from some number on, and the snapshot on
the disk is a copy that was taken behind its boundary. -/
structure Recorded (m : Manager L) (emitted logged : List Event) : Prop where
  engine : m.engine.Recorded emitted logged
  kept : ∃ first ≤ m.disk.startSeq, m.disk.aof = above logged first
  boundary : m.disk.startSeq ≤ m.engine.seq
  onDisk : ∀ key, m.engine.Copied logged m.disk.startSeq (copyOf m.disk.entries) key
  phase : m.PhaseRecorded logged

section Steps

variable {m next : Manager L} {emitted logged events : List Event}

theorem PhaseRecorded.emits {e : Engine L} (hphase : m.PhaseRecorded logged)
    (hrecorded : m.engine.Recorded emitted logged) (hemits : Engine.Emits m.engine e events) :
    ({ m with engine := e } : Manager L).PhaseRecorded logged := by
  unfold PhaseRecorded at hphase ⊢
  simp only
  cases hcase : m.phase with
  | idle => trivial
  | syncing ticket => trivial
  | counted startSeq =>
      simp only [hcase] at hphase
      exact ⟨hphase.1,
        hphase.2.trans (Engine.seq_le_of_advance hrecorded.regular hemits.advance)⟩
  | exporting startSeq now i entries =>
      simp only [hcase] at hphase
      exact ⟨hphase.1, hphase.2.emits hrecorded hemits⟩
  | replaced startSeq =>
      simp only [hcase] at hphase
      exact hphase

theorem Recorded.emits {e : Engine L} (hrecorded : m.Recorded emitted logged)
    (hemits : Engine.Emits m.engine e events) :
    ({ m with engine := e } : Manager L).Recorded (emitted ++ events) logged :=
  ⟨hrecorded.engine.emits hemits, hrecorded.kept,
    hrecorded.boundary.trans
      (Engine.seq_le_of_advance hrecorded.engine.regular hemits.advance),
    fun key => (hrecorded.onDisk key).emits hrecorded.engine hemits,
    hrecorded.phase.emits hrecorded.engine hemits⟩

theorem Recorded.emits_nil {e : Engine L} (hrecorded : m.Recorded emitted logged)
    (hemits : Engine.Emits m.engine e []) :
    ({ m with engine := e } : Manager L).Recorded emitted logged := by
  have hmore := hrecorded.emits hemits
  rwa [List.append_nil] at hmore

theorem PhaseRecorded.append {ev : Event} {e : Engine L} (hphase : m.PhaseRecorded logged)
    (hregular : m.engine.Regular) (hdeliver : m.engine.deliver = some (ev, e)) :
    (⟨e, { m.disk with aof := m.disk.aof ++ [ev] }, m.phase⟩ : Manager L).PhaseRecorded
      (logged ++ [ev]) := by
  unfold PhaseRecorded at hphase ⊢
  simp only
  cases hcase : m.phase with
  | idle => trivial
  | syncing ticket => trivial
  | counted startSeq =>
      simp only [hcase] at hphase
      obtain ⟨_, _, rfl⟩ := Engine.backlog_deliver hdeliver
      exact hphase
  | exporting startSeq now i entries =>
      simp only [hcase] at hphase
      exact ⟨hphase.1, hphase.2.deliver hregular hdeliver⟩
  | replaced startSeq =>
      simp only [hcase] at hphase
      exact hphase

theorem Recorded.append (hrecorded : m.Recorded emitted logged)
    (hstep : m.append = some next) :
    next.Recorded emitted (logged ++ Engine.Handling.taken m.engine.handling) := by
  obtain ⟨ev, e, hdeliver, rfl⟩ := append_eq_some hstep
  have hregular := hrecorded.engine.regular
  have hboundary := hrecorded.boundary
  obtain ⟨_, hnumber⟩ := Engine.regular_deliver hregular hdeliver
  obtain ⟨_, hhandling, hnext⟩ := Engine.backlog_deliver hdeliver
  have htaken : Engine.Handling.taken m.engine.handling = [ev] := by
    rw [hhandling]
    rfl
  rw [htaken]
  obtain ⟨first, hfirst, haof⟩ := hrecorded.kept
  refine ⟨hrecorded.engine.deliver hdeliver, ⟨first, hfirst, ?_⟩, ?_,
    fun key => (hrecorded.onDisk key).deliver hregular hboundary hdeliver,
    hrecorded.phase.append hregular hdeliver⟩
  · have hlt : first < ev.seq := by omega
    rw [above_snoc logged hlt, haof]
  · rw [hnext]
    exact hboundary

theorem Recorded.rephase {phase : Phase} (hrecorded : m.Recorded emitted logged)
    (hphase : ({ m with phase := phase } : Manager L).PhaseRecorded logged) :
    ({ m with phase := phase } : Manager L).Recorded emitted logged :=
  ⟨hrecorded.engine, hrecorded.kept, hrecorded.boundary, hrecorded.onDisk, hphase⟩

theorem Recorded.sync (hrecorded : m.Recorded emitted logged) (hstep : m.sync = some next) :
    next.Recorded emitted logged := by
  obtain ⟨_, rfl⟩ := sync_eq_some hstep
  have hsynced := hrecorded.emits_nil
    (Engine.emits_sync hrecorded.engine.regular hrecorded.engine.unflushed)
  have hwaiting : (⟨m.engine.sync, m.disk, .syncing m.engine.tickets⟩ :
      Manager L).PhaseRecorded logged := trivial
  exact hsynced.rephase hwaiting

theorem Recorded.readSeq (hrecorded : m.Recorded emitted logged)
    (hstep : m.readSeq = some next) : next.Recorded emitted logged := by
  obtain ⟨_, _, _, rfl⟩ := readSeq_eq_some hstep
  have hcounted : (⟨m.engine, m.disk, .counted m.engine.seq⟩ :
      Manager L).PhaseRecorded logged := ⟨hrecorded.boundary, le_rfl⟩
  exact hrecorded.rephase hcounted

theorem Recorded.beginExport {now : ℤ} (hrecorded : m.Recorded emitted logged)
    (hstep : m.beginExport now = some next) : next.Recorded emitted logged := by
  obtain ⟨startSeq, e, hcase, hread, rfl⟩ := beginExport_eq_some hstep
  obtain ⟨hemits, hclock⟩ :=
    Engine.emits_readClock hrecorded.engine.regular hrecorded.engine.unflushed hread
  have hread' := hrecorded.emits_nil hemits
  have hphase := hread'.phase
  simp only [PhaseRecorded, hcase] at hphase
  have hexporting : (⟨e, m.disk, .exporting startSeq now 0 []⟩ :
      Manager L).PhaseRecorded logged :=
    ⟨hphase.1, hphase.2, hclock.ge, fun _ _ => rfl,
      fun _ hkey => absurd hkey (Nat.not_lt_zero _)⟩
  exact hread'.rephase hexporting

theorem Recorded.exportShard {order : List (Key × Item)}
    (hrecorded : m.Recorded emitted logged) (hstep : m.exportShard order = some next) :
    next.Recorded emitted logged := by
  obtain ⟨startSeq, now, i, entries, hi, hcase, horder, rfl⟩ := exportShard_eq_some hstep
  have hphase := hrecorded.phase
  simp only [PhaseRecorded, hcase] at hphase
  have hexported := hphase.2.exportShard hrecorded.engine hi horder
  rw [← copyOf_append] at hexported
  have hexporting : (⟨m.engine, m.disk, .exporting startSeq now (i + 1)
      (entries ++ order.map snapshotRecord)⟩ : Manager L).PhaseRecorded logged :=
    ⟨hphase.1, hexported⟩
  exact hrecorded.rephase hexporting

theorem Recorded.replace (hrecorded : m.Recorded emitted logged)
    (hstep : m.replace = some next) : next.Recorded emitted logged := by
  obtain ⟨startSeq, now, entries, hcase, rfl⟩ := replace_eq_some hstep
  have hphase := hrecorded.phase
  simp only [PhaseRecorded, hcase] at hphase
  obtain ⟨hlater, hsnapshotting⟩ := hphase
  obtain ⟨first, hfirst, haof⟩ := hrecorded.kept
  exact ⟨hrecorded.engine, ⟨first, hfirst.trans hlater, haof⟩, hsnapshotting.boundary,
    fun key => hsnapshotting.copied key (L.index key).isLt, rfl⟩

theorem Recorded.compact (hrecorded : m.Recorded emitted logged)
    (hstep : m.compact = some next) : next.Recorded emitted logged := by
  obtain ⟨startSeq, hcase, rfl⟩ := compact_eq_some hstep
  have hboundary := hrecorded.phase
  simp only [PhaseRecorded, hcase] at hboundary
  obtain ⟨first, hfirst, haof⟩ := hrecorded.kept
  have hcompacted : (m.disk.compact startSeq).aof = above logged startSeq := by
    rw [hboundary] at hfirst
    simp only [Disk.compact, Disk.recordsFrom, haof]
    exact above_above logged hfirst
  exact ⟨hrecorded.engine, ⟨startSeq, hboundary.ge, hcompacted⟩, hrecorded.boundary,
    hrecorded.onDisk, trivial⟩

theorem recorded_step {trace : List Note} {a : Action L}
    (hrecorded : m.Recorded (Persistence.emitted trace) (appended trace))
    (hsingle : SingleKey a) (hstep : m.step a = some next) :
    next.Recorded (Persistence.emitted (trace ++ m.notes a)) (appended (trace ++ m.notes a)) := by
  have hregular := hrecorded.engine.regular
  have hidle := hrecorded.engine.unflushed
  have hquiet : m.notes a = [] →
      next.Recorded (Persistence.emitted trace) (appended trace) →
      next.Recorded (Persistence.emitted (trace ++ m.notes a))
        (appended (trace ++ m.notes a)) := by
    intro hnotes hnext
    rw [hnotes, List.append_nil]
    exact hnext
  cases a with
  | engine a =>
      obtain ⟨e, he, rfl⟩ := Option.map_eq_some_iff.mp hstep
      cases a with
      | client st =>
          have hclient := hrecorded.emits (Engine.emits_client hregular hidle he)
          simpa only [notes, emitted_append, appended_append, emitted_map_emitted,
            appended_map_emitted, List.append_nil] using hclient
      | flushAll => exact absurd hsingle not_false
      | flushNext =>
          obtain ⟨i, _, hbusy, _⟩ := Engine.flushNext_eq_some he
          rw [hidle] at hbusy
          contradiction
      | dequeue =>
          exact hquiet rfl (hrecorded.emits_nil (Engine.emits_dequeue hregular hidle he))
      | publish =>
          exact hquiet rfl (hrecorded.emits_nil (Engine.emits_publish hregular hidle he))
  | append =>
      have happend := hrecorded.append hstep
      simpa only [notes, emitted_append, appended_append, emitted_map_appended,
        appended_map_appended, List.append_nil] using happend
  | sync => exact hquiet rfl (hrecorded.sync hstep)
  | readSeq => exact hquiet rfl (hrecorded.readSeq hstep)
  | beginExport now => exact hquiet rfl (hrecorded.beginExport hstep)
  | exportShard order => exact hquiet rfl (hrecorded.exportShard hstep)
  | replace => exact hquiet rfl (hrecorded.replace hstep)
  | compact => exact hquiet rfl (hrecorded.compact hstep)

end Steps

theorem recorded_boot {c : Cache L} (hplaced : c.Placed)
    (hempty : c.contents = fun _ => none) (clock : ℤ) :
    (boot Disk.empty c clock).Recorded [] [] := by
  refine ⟨⟨Engine.regular_start hplaced clock, rfl, hempty, rfl, List.Pairwise.nil,
    fun ev hmem => absurd hmem List.not_mem_nil⟩, ⟨0, le_rfl, rfl⟩, le_rfl, ?_, trivial⟩
  intro key
  exact takenDuring_absent rfl

theorem exists_set_of_mem_mutations {events : List Event} {key : Key} {written : Item}
    (hmem : Mutation.set key written ∈ mutations events) :
    ∃ ev ∈ events, ev.op = .opSet ∧ ev.key = key ∧ ev.value = written.value := by
  obtain ⟨ev, hev, hmutation⟩ := List.mem_filterMap.mp hmem
  refine ⟨ev, hev, ?_⟩
  unfold Event.mutation? at hmutation
  cases hop : ev.op <;> simp [hop] at hmutation
  exact ⟨rfl, hmutation.1, by rw [← hmutation.2]⟩

theorem Recorded.recovered {m : Manager L} {emitted logged : List Event}
    (hrecorded : m.Recorded emitted logged) {key : Key} (htorn : ¬ m.Torn key) {now : ℤ}
    (hnow : m.engine.clock ≤ now) :
    ∃ past, mutations logged <+: past ∧ past <+: mutations emitted ∧
      live now (replay (mutations (m.disk.recordsFrom m.disk.startSeq))
          (copyOf m.disk.entries) key) =
        live now (outcome past key) := by
  obtain ⟨first, hfirst, haof⟩ := hrecorded.kept
  have hrecords : m.disk.recordsFrom m.disk.startSeq = above logged m.disk.startSeq := by
    rw [Disk.recordsFrom, haof]
    exact above_above logged hfirst
  have hsafe : (effectOf key (mutations (above logged m.disk.startSeq))).IsRetime →
      ∀ written found, Mutation.set key written ∈ mutations m.engine.backlog →
        copyOf m.disk.entries key = some found → written.value ≠ found.value := by
    intro hretime written found hmem hfound hvalue
    obtain ⟨ev, hev, hop, hkey, hwritten⟩ := exists_set_of_mem_mutations hmem
    apply htorn
    rw [Torn, hrecords, hfound, Option.map_some, ← hvalue, ← hwritten]
    exact ⟨hretime, ev, hev, hop, hkey, rfl⟩
  obtain ⟨part, hpart, hlive⟩ := TakenDuring.recovered (hrecorded.onDisk key) hnow hsafe
  rw [hrecorded.engine.below_above] at hlive
  refine ⟨mutations logged ++ part, List.prefix_append _ _, ?_, ?_⟩
  · rw [hrecorded.engine.history]
    exact (List.prefix_append_right_inj _).mpr hpart
  · rw [hrecords]
    exact hlive

/-! ## From an empty directory -/

/-- Wherever a run of one process ends, a recovery gives for the key an entry
that it had after all the events that were appended and perhaps some more. -/
theorem recovers_past_entry
    (cfg : Config) (hash : Key → ℕ) (rng : ℕ → ℕ → ℕ) (clock : ℤ)
    (actions : List (Action (cfg.layout hash))) {final : Manager (cfg.layout hash)}
    (hsingle : ∀ a ∈ actions, SingleKey a)
    (hrun : run step (boot Disk.empty (Cache.new cfg hash rng) clock) actions = some final)
    {now : ℤ} (hnow : final.engine.clock ≤ now) {key : Key} (htorn : ¬ final.Torn key)
    (shards : ℤ) (policy : Kind) (hash' : Key → ℕ) (rng' : ℕ → ℕ → ℕ) :
    let trace := observe step notes (boot Disk.empty (Cache.new cfg hash rng) clock) actions
    ∃ past, mutations (appended trace) <+: past ∧ past <+: mutations (emitted trace) ∧
      live now ((final.disk.recover
          (Cache.unlimited shards policy hash' rng')).contents key) =
        live now (outcome past key) := by
  intro trace
  have hboot : Recorded (boot Disk.empty (Cache.new cfg hash rng) clock) (emitted [])
      (appended []) :=
    recorded_boot (Cache.placed_new cfg hash rng) (Cache.contents_new cfg hash rng) clock
  have halong : Along step (fun _ a => SingleKey a)
      (boot Disk.empty (Cache.new cfg hash rng) clock) actions := by
    rw [along_iff_forall_split]
    intro before a after hsplit _ _
    apply hsingle a
    rw [hsplit]
    simp
  have hrecorded := run_invariant_observe step notes (P := fun _ a => SingleKey a)
    (I := fun m trace => Recorded m (emitted trace) (appended trace))
    (fun m earlier a next hm ha hnext => recorded_step hm ha hnext) hboot halong hrun
  rw [List.nil_append] at hrecorded
  rw [contents_recover_unlimited]
  exact hrecorded.recovered htorn hnow

def crashAfterExpire (written : Key) (exported : List (Key × Item)) :
    List (Action (Config.layout ⟨1, 0, 0, .lru⟩ fun _ => 0)) :=
  [.engine (.client ⟨⟨1, 1⟩, .setTTL [97] [49] 0⟩), .engine .dequeue, .append,
    .engine .publish, .sync, .engine .dequeue, .readSeq,
    .engine (.client ⟨⟨2, 2⟩, .expire [97] 100⟩),
    .engine (.client ⟨⟨3, 3⟩, .setTTL written [50] 0⟩), .beginExport 4,
    .exportShard exported, .replace, .engine .dequeue, .append]

theorem singleKey_crashAfterExpire (written : Key) (exported : List (Key × Item)) :
    ∀ a ∈ crashAfterExpire written exported, SingleKey a := by
  simp [crashAfterExpire, SingleKey]

def fresh : Manager (Config.layout ⟨1, 0, 0, .lru⟩ fun _ => 0) :=
  boot Disk.empty (Cache.new ⟨1, 0, 0, .lru⟩ (fun _ => 0) fun _ _ => 0) 0

/-- The snapshot has an entry whose event is lost. -/
theorem recovers_past_entry_lostWrite :
    let actions := crashAfterExpire [98] [([97], ⟨[49], 102⟩), ([98], ⟨[50], 0⟩)]
    ∃ final, run step fresh actions = some final ∧
      ∃ past, mutations (appended (observe step notes fresh actions)) <+: past ∧
        past <+: mutations (emitted (observe step notes fresh actions)) ∧
        live 10 ((final.disk.recover
            (Cache.unlimited 4 .noEviction List.length fun _ _ => 0)).contents [98]) =
          live 10 (outcome past [98]) := by
  intro actions
  have hend : (run step fresh actions).map
        (fun m => (m.engine.clock, decide (m.Torn [98]))) = some (4, false) := by
    decide +kernel
  obtain ⟨final, hrun, hfinal⟩ := Option.map_eq_some_iff.mp hend
  simp only [Prod.mk.injEq, decide_eq_false_iff_not] at hfinal
  obtain ⟨hclock, htorn⟩ := hfinal
  exact ⟨final, hrun, recovers_past_entry _ _ _ 0 _ (singleKey_crashAfterExpire _ _) hrun
    (by omega) htorn 4 .noEviction List.length fun _ _ => 0⟩

/-- The new value comes back with the deadline of the old one, which no entry of
the key ever had. -/
theorem recovers_entry_that_never_was :
    let actions := crashAfterExpire [97] [([97], ⟨[50], 0⟩)]
    ∃ final, run step fresh actions = some final ∧
      (final.disk.recover
          (Cache.unlimited 4 .noEviction List.length fun _ _ => 0)).contents [97] =
        some ⟨[50], 102⟩ ∧
      ∀ past, past <+: mutations (emitted (observe step notes fresh actions)) →
        live 10 (outcome past [97]) ≠ live 10 (some ⟨[50], 102⟩) := by
  intro actions
  have hend : (run step fresh actions).map
        (fun m => (m.disk.recover
          (Cache.unlimited 4 .noEviction List.length fun _ _ => 0)).contents [97]) =
      some (some ⟨[50], 102⟩) := by
    decide +kernel
  have hhistory : mutations (emitted (observe step notes fresh actions)) =
      [.set [97] ⟨[49], 0⟩, .expire [97] 102, .set [97] ⟨[50], 0⟩] := by
    decide +kernel
  have hpast : ∀ past ∈ ([.set [97] ⟨[49], 0⟩, .expire [97] 102, .set [97] ⟨[50], 0⟩] :
        List (Mutation Key Bytes ℤ)).inits,
      live 10 (outcome past [97]) ≠ live 10 (some ⟨[50], 102⟩) := by
    decide +kernel
  obtain ⟨final, hrun, hrecovered⟩ := Option.map_eq_some_iff.mp hend
  refine ⟨final, hrun, hrecovered, ?_⟩
  intro past hle
  rw [hhistory] at hle
  exact hpast past ((List.mem_inits past _).mpr hle)

end Manager
end Persistence
end DistCache
