import DistCache.StreamFollower

/-!
# The persistence manager at work

The manager appends every event that the dispatcher hands to it.  `Snapshot` runs beside
the clients: it waits for a barrier, reads the published number, exports the shards one
after the other, puts the snapshot in the place of the old one, and compacts the file to
the records behind its number.  Locks keep two calls of `Snapshot` apart, and `Compact`
apart from the appending.  The files are lists of records here.
-/

namespace DistCache
namespace Persistence

open DeadlineStore Eviction Transition

variable {L : Layout}

structure Snapshot where
  startSeq : ℕ
  entries : List Event
  deriving DecidableEq, Repr

/-- The data directory; without a snapshot the file is read from its start. -/
structure Disk where
  snapshot : Option Snapshot
  aof : List Event
  deriving DecidableEq, Repr

namespace Disk

def empty : Disk := ⟨none, []⟩

def startSeq (d : Disk) : ℕ := d.snapshot.elim 0 Snapshot.startSeq

def entries (d : Disk) : List Event := d.snapshot.elim [] Snapshot.entries

def recordsFrom (d : Disk) (startSeq : ℕ) : List Event :=
  above d.aof startSeq

def recover (d : Disk) (c : Cache L) : Cache L :=
  (c.applyEvents d.entries).applyEvents (d.recordsFrom d.startSeq)

def compact (d : Disk) (startSeq : ℕ) : Disk :=
  { d with aof := d.recordsFrom startSeq }

end Disk

/-- Where a call of `Snapshot` is. -/
inductive Phase where
  | idle
  | syncing (ticket : ℕ)
  | counted (startSeq : ℕ)
  | exporting (startSeq : ℕ) (now : ℤ) (shard : ℕ) (entries : List Event)
  | replaced (startSeq : ℕ)
  deriving DecidableEq, Repr

structure Manager (L : Layout) where
  engine : Engine L
  disk : Disk
  phase : Phase

inductive Action (L : Layout) where
  | engine (a : EngineAction L)
  | append
  | sync
  | readSeq
  | beginExport (now : ℤ)
  | exportShard (order : List (Key × Item))
  | replace
  | compact

namespace Manager

def append (m : Manager L) : Option (Manager L) :=
  m.engine.deliver.map fun r =>
    { m with engine := r.2, disk := { m.disk with aof := m.disk.aof ++ [r.1] } }

def sync (m : Manager L) : Option (Manager L) :=
  match m.phase with
  | .idle => some { m with engine := m.engine.sync, phase := .syncing m.engine.tickets }
  | _ => none

def readSeq (m : Manager L) : Option (Manager L) :=
  match m.phase with
  | .syncing ticket =>
      if ticket ∈ m.engine.acked then some { m with phase := .counted m.engine.seq }
      else none
  | _ => none

def beginExport (m : Manager L) (now : ℤ) : Option (Manager L) :=
  match m.phase with
  | .counted startSeq =>
      (m.engine.readClock now).map fun e =>
        { m with engine := e, phase := .exporting startSeq now 0 [] }
  | _ => none

/-- The entries come in the order of the map, which the language leaves open. -/
def exportShard (m : Manager L) (order : List (Key × Item)) : Option (Manager L) :=
  match m.phase with
  | .exporting startSeq now i entries =>
      if h : i < L.shards then
        if order.Perm ((m.engine.cache.shards ⟨i, h⟩).exportEntries now) then
          some { m with
            phase := .exporting startSeq now (i + 1) (entries ++ order.map snapshotRecord) }
        else none
      else none
  | _ => none

def replace (m : Manager L) : Option (Manager L) :=
  match m.phase with
  | .exporting startSeq _ i entries =>
      if i = L.shards then
        some { m with
          disk := { m.disk with snapshot := some ⟨startSeq, entries⟩ }
          phase := .replaced startSeq }
      else none
  | _ => none

def compact (m : Manager L) : Option (Manager L) :=
  match m.phase with
  | .replaced startSeq => some { m with disk := m.disk.compact startSeq, phase := .idle }
  | _ => none

def step (m : Manager L) : Action L → Option (Manager L)
  | .engine a => (m.engine.step a).map fun e => { m with engine := e }
  | .append => m.append
  | .sync => m.sync
  | .readSeq => m.readSeq
  | .beginExport now => m.beginExport now
  | .exportShard order => m.exportShard order
  | .replace => m.replace
  | .compact => m.compact

def boot (d : Disk) (c : Cache L) (clock : ℤ) : Manager L :=
  ⟨Engine.start (d.recover c) clock, d, .idle⟩

/-! ## What a step of the manager can do -/

section Inversion

variable {m next : Manager L}

theorem append_eq_some (hstep : m.append = some next) :
    ∃ ev e, m.engine.deliver = some (ev, e) ∧
      next = ⟨e, { m.disk with aof := m.disk.aof ++ [ev] }, m.phase⟩ := by
  obtain ⟨⟨ev, e⟩, hdeliver, hnext⟩ := Option.map_eq_some_iff.mp hstep
  exact ⟨ev, e, hdeliver, hnext.symm⟩

theorem sync_eq_some (hstep : m.sync = some next) :
    m.phase = .idle ∧ next = ⟨m.engine.sync, m.disk, .syncing m.engine.tickets⟩ := by
  unfold sync at hstep
  cases hcase : m.phase <;> simp only [hcase, reduceCtorEq, Option.some.injEq] at hstep
  exact ⟨rfl, hstep.symm⟩

theorem readSeq_eq_some (hstep : m.readSeq = some next) :
    ∃ ticket, m.phase = .syncing ticket ∧ ticket ∈ m.engine.acked ∧
      next = ⟨m.engine, m.disk, .counted m.engine.seq⟩ := by
  unfold readSeq at hstep
  cases hcase : m.phase <;> simp only [hcase, reduceCtorEq] at hstep
  split_ifs at hstep with hacked
  exact ⟨_, rfl, hacked, (Option.some.inj hstep).symm⟩

theorem beginExport_eq_some {now : ℤ} (hstep : m.beginExport now = some next) :
    ∃ startSeq e, m.phase = .counted startSeq ∧ m.engine.readClock now = some e ∧
      next = ⟨e, m.disk, .exporting startSeq now 0 []⟩ := by
  unfold beginExport at hstep
  cases hcase : m.phase <;> simp only [hcase, reduceCtorEq] at hstep
  obtain ⟨e, hread, hnext⟩ := Option.map_eq_some_iff.mp hstep
  exact ⟨_, e, rfl, hread, hnext.symm⟩

theorem exportShard_eq_some {order : List (Key × Item)}
    (hstep : m.exportShard order = some next) :
    ∃ startSeq now i entries, ∃ hi : i < L.shards,
      m.phase = .exporting startSeq now i entries ∧
      order.Perm ((m.engine.cache.shards ⟨i, hi⟩).exportEntries now) ∧
      next = ⟨m.engine, m.disk, .exporting startSeq now (i + 1)
        (entries ++ order.map snapshotRecord)⟩ := by
  unfold exportShard at hstep
  cases hcase : m.phase <;> simp only [hcase, reduceCtorEq] at hstep
  split_ifs at hstep with hi horder
  exact ⟨_, _, _, _, hi, rfl, horder, (Option.some.inj hstep).symm⟩

theorem replace_eq_some (hstep : m.replace = some next) :
    ∃ startSeq now entries, m.phase = .exporting startSeq now L.shards entries ∧
      next = ⟨m.engine, { m.disk with snapshot := some ⟨startSeq, entries⟩ },
        .replaced startSeq⟩ := by
  unfold replace at hstep
  cases hcase : m.phase <;> simp only [hcase, reduceCtorEq] at hstep
  split_ifs at hstep with hi
  rw [hi]
  exact ⟨_, _, _, rfl, (Option.some.inj hstep).symm⟩

theorem compact_eq_some (hstep : m.compact = some next) :
    ∃ startSeq, m.phase = .replaced startSeq ∧
      next = ⟨m.engine, m.disk.compact startSeq, .idle⟩ := by
  unfold compact at hstep
  cases hcase : m.phase <;> simp only [hcase, reduceCtorEq, Option.some.injEq] at hstep
  exact ⟨_, rfl, hstep.symm⟩

end Inversion

end Manager
end Persistence
end DistCache
