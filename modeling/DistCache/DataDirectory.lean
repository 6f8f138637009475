import DistCache.AppendOnlyFile
import DistCache.SnapshotManager

/-!
# The data directory as bytes

The manager works on two files.  A snapshot file has a header, with the boundary,
and the records of the exported entries; the append-only file has the records of
the events.  Appending, compacting and recovering at the level of bytes do what
the steps of the manager do at the level of records, as long as every record
fits the widths of its fields.
-/

namespace DistCache
namespace Persistence

open BigEndian

variable {L : Layout}

def snapMagic : Bytes := [68, 67, 83, 78, 65, 80, 49, 10]

def encodeSnapshot (s : Snapshot) : Bytes :=
  snapMagic ++ encode 8 s.startSeq ++ encodeAll s.entries

inductive RecoverError where
  | badSnapshot
  | panicked
  deriving DecidableEq, Repr

def readSnapshot : Option Bytes → Except RecoverError (ℕ × Reading)
  | none => .ok (0, ⟨[], false⟩)
  | some file =>
      if file.length < 16 then .error .badSnapshot
      else if file.take 8 ≠ snapMagic then .error .badSnapshot
      else .ok (decode ((file.drop 8).take 8), readAOF (file.drop 16))

/-- The directory; a missing append-only file reads like an empty one. -/
structure Files where
  snapshot : Option Bytes
  aof : Bytes
  deriving DecidableEq, Repr

namespace Files

def recover (f : Files) (c : Cache L) : Except RecoverError (Cache L) :=
  match readSnapshot f.snapshot with
  | .error err => .error err
  | .ok (startSeq, entries) =>
      if entries.panicked ∨ (readAOF f.aof).panicked then .error .panicked
      else .ok ((c.applyEvents entries.events).applyEvents
        ((readAOF f.aof).events.filter fun ev => startSeq < ev.seq))

def append (f : Files) (ev : Event) : Files := { f with aof := f.aof ++ encodeRecord ev }

def replace (f : Files) (s : Snapshot) : Files := { f with snapshot := some (encodeSnapshot s) }

def readRecords (f : Files) (minSeqExclusive : ℕ) : List Event :=
  (readAOF f.aof).events.filter fun ev => minSeqExclusive < ev.seq

def compact (f : Files) (minSeqExclusive : ℕ) : Files :=
  { f with aof := encodeAll (f.readRecords minSeqExclusive) }

end Files

namespace Disk

def files (d : Disk) : Files := ⟨d.snapshot.map encodeSnapshot, encodeAll d.aof⟩

structure Fits (d : Disk) : Prop where
  startSeq : d.startSeq < 2 ^ 64
  entries : ∀ ev ∈ d.entries, ev.Fits
  aof : ∀ ev ∈ d.aof, ev.Fits

variable {d : Disk}

theorem files_append (d : Disk) (ev : Event) :
    ({ d with aof := d.aof ++ [ev] } : Disk).files = d.files.append ev := by
  simp [files, Files.append]

theorem files_replace (d : Disk) (s : Snapshot) :
    ({ d with snapshot := some s } : Disk).files = d.files.replace s := rfl

theorem files_compact (hfits : d.Fits) (startSeq : ℕ) :
    (d.compact startSeq).files = d.files.compact startSeq := by
  have hread : (readAOF d.files.aof).events = d.aof := by
    rw [files, readAOF_encodeAll hfits.aof]
  unfold Files.compact Files.readRecords
  rw [hread]
  rfl

theorem readSnapshot_encodeSnapshot {s : Snapshot} (hstart : s.startSeq < 2 ^ 64)
    (hentries : ∀ ev ∈ s.entries, ev.Fits) :
    readSnapshot (some (encodeSnapshot s)) = .ok (s.startSeq, ⟨s.entries, false⟩) := by
  have hheader : (encode 8 s.startSeq).length = 8 := length_encode 8 s.startSeq
  have hlength : ¬ (encodeSnapshot s).length < 16 := by
    simp only [encodeSnapshot, List.length_append, hheader]
    simp [snapMagic]
  have hmagic : (encodeSnapshot s).take 8 = snapMagic := by
    rw [encodeSnapshot, List.append_assoc]
    exact List.take_left' rfl
  have hrest : (encodeSnapshot s).drop 8 = encode 8 s.startSeq ++ encodeAll s.entries := by
    rw [encodeSnapshot, List.append_assoc]
    exact List.drop_left' rfl
  have hrecords : (encodeSnapshot s).drop 16 = encodeAll s.entries := by
    have hsplit : (encodeSnapshot s).drop 16 = ((encodeSnapshot s).drop 8).drop 8 := by
      rw [List.drop_drop]
    rw [hsplit, hrest]
    exact List.drop_left' hheader
  have hseq : decode (((encodeSnapshot s).drop 8).take 8) = s.startSeq := by
    rw [hrest, List.take_left' hheader]
    apply decode_encode_of_lt
    norm_num at hstart ⊢
    exact hstart
  simp only [readSnapshot, if_neg hlength, hmagic, ne_eq, not_true_eq_false, if_false, hseq,
    hrecords, readAOF_encodeAll hentries]

theorem recover_files (hfits : d.Fits) (c : Cache L) :
    d.files.recover c = .ok (d.recover c) := by
  have hsnapshot : readSnapshot d.files.snapshot = .ok (d.startSeq, ⟨d.entries, false⟩) := by
    cases hcase : d.snapshot with
    | none => simp [files, hcase, readSnapshot, startSeq, entries]
    | some s =>
        have hstart := hfits.startSeq
        have hentries := hfits.entries
        simp only [startSeq, entries, hcase, Option.elim_some] at hstart hentries
        simp only [files, hcase, Option.map_some, startSeq, entries, Option.elim_some]
        exact readSnapshot_encodeSnapshot hstart hentries
  have haof : readAOF d.files.aof = ⟨d.aof, false⟩ := readAOF_encodeAll hfits.aof
  unfold Files.recover
  rw [hsnapshot, haof]
  rfl

end Disk

/-! ## The steps of the manager on the files -/

namespace Manager

variable {m next : Manager L}

theorem files_append (hstep : m.append = some next) :
    ∃ ev, m.engine.handling = .dequeued ev ∧ next.disk.files = m.disk.files.append ev := by
  obtain ⟨ev, e, hdeliver, rfl⟩ := append_eq_some hstep
  obtain ⟨_, hhandling, _⟩ := Engine.backlog_deliver hdeliver
  exact ⟨ev, hhandling, m.disk.files_append ev⟩

theorem files_replace (hstep : m.replace = some next) :
    ∃ startSeq now entries, m.phase = .exporting startSeq now L.shards entries ∧
      next.disk.files = m.disk.files.replace ⟨startSeq, entries⟩ := by
  obtain ⟨startSeq, now, entries, hphase, rfl⟩ := replace_eq_some hstep
  exact ⟨startSeq, now, entries, hphase, m.disk.files_replace _⟩

theorem files_compact (hfits : m.disk.Fits) (hstep : m.compact = some next) :
    ∃ startSeq, m.phase = .replaced startSeq ∧
      next.disk.files = m.disk.files.compact startSeq := by
  obtain ⟨startSeq, hphase, rfl⟩ := compact_eq_some hstep
  exact ⟨startSeq, hphase, Disk.files_compact hfits startSeq⟩

theorem disk_step {a : Action L} (hstep : m.step a = some next) :
    a = .append ∨ a = .replace ∨ a = .compact ∨ next.disk = m.disk := by
  cases a with
  | append => exact Or.inl rfl
  | replace => exact Or.inr (Or.inl rfl)
  | compact => exact Or.inr (Or.inr (Or.inl rfl))
  | engine a =>
      obtain ⟨e, _, rfl⟩ := Option.map_eq_some_iff.mp hstep
      exact Or.inr (Or.inr (Or.inr rfl))
  | sync =>
      obtain ⟨_, rfl⟩ := sync_eq_some hstep
      exact Or.inr (Or.inr (Or.inr rfl))
  | readSeq =>
      obtain ⟨_, _, _, rfl⟩ := readSeq_eq_some hstep
      exact Or.inr (Or.inr (Or.inr rfl))
  | beginExport now =>
      obtain ⟨_, _, _, _, rfl⟩ := beginExport_eq_some hstep
      exact Or.inr (Or.inr (Or.inr rfl))
  | exportShard order =>
      obtain ⟨_, _, _, _, _, _, _, rfl⟩ := exportShard_eq_some hstep
      exact Or.inr (Or.inr (Or.inr rfl))

end Manager
end Persistence
end DistCache
