import DistCache.CrashFiles
import DistCache.DataDirectory
import DistCache.SnapshotRecovery

/-!
# A crash during a snapshot

`Snapshot` replaces two files: `WriteSnapshot` the snapshot and then `Compact` the
append-only file, each through a temporary file that is synced and renamed.  `Recover`
reads neither of the temporary files, so that after a crash it finds the old snapshot or
the new one with the old records, or both new.  Each gives back what the cache held.
-/

namespace DistCache
namespace Persistence

open CrashFiles DeadlineStore Eviction Transition

/-! ## The operations on the files -/

/-- The files of the directory; the temporary ones end in `.tmp` and `.compact`. -/
inductive FileName where
  | snapshot
  | snapshotTmp
  | aof
  | aofCompact
  deriving DecidableEq, Repr

abbrev DirOps := List (FileOp FileName UInt8)

/-- `WriteSnapshot`; the buffer decides how the bytes are cut into writes, and its
flush is the last of them. -/
def writeSnapshotOps (chunks : List Bytes) : DirOps :=
  writeTmp FileName.snapshotTmp chunks ++ ([.rename .snapshotTmp .snapshot] : DirOps)

/-- `Compact`; with every record synced, its first flush has nothing to write. -/
def compactOps (chunks : List Bytes) : DirOps :=
  ([.write .aof [], .sync .aof] : DirOps) ++ writeTmp FileName.aofCompact chunks ++
    ([.close .aof, .rename .aofCompact .aof, .openAppend .aof] : DirOps)

def filesOf (d : Dir FileName UInt8) : Files :=
  ⟨d.content .snapshot, (d.content .aof).getD []⟩

/-! ## Where a crash may come -/

section Crashes

variable {d after : Dir FileName UInt8} {snap kept : List Bytes}
  {done : DirOps}

def compactBody (chunks : List Bytes) : DirOps :=
  ([.write .aof [], .sync .aof] : DirOps) ++ writeTmp FileName.aofCompact chunks ++
    ([.close .aof] : DirOps)

theorem snapshotOps_eq (snap kept : List Bytes) :
    writeSnapshotOps snap ++ compactOps kept =
      writeTmp FileName.snapshotTmp snap ++ (.rename .snapshotTmp .snapshot ::
        (compactBody kept ++ (.rename .aofCompact .aof :: [.openAppend .aof] : DirOps)) :
          DirOps) := by
  simp [writeSnapshotOps, compactOps, compactBody]

theorem spares_compactBody {name : FileName} (hname : name ≠ .aofCompact)
    (chunks : List Bytes) : ∀ op ∈ compactBody chunks, op.Spares name := by
  intro op hmem
  simp only [compactBody, List.cons_append, List.nil_append, List.mem_cons, List.mem_append,
    List.not_mem_nil, or_false] at hmem
  rcases hmem with rfl | rfl | htmp | rfl
  · exact Or.inr rfl
  · trivial
  · exact spares_writeTmp hname.symm chunks op htmp
  · trivial

theorem run_compactBody (d : Dir FileName UInt8) (chunks : List Bytes) :
    d.run (compactBody chunks) .aofCompact =
      some ⟨chunks.flatten, chunks.flatten.length⟩ := by
  rw [compactBody, Dir.run_append, Dir.run_append]
  exact run_writeTmp _ _ chunks

theorem run_openAppend {f : File UInt8} (hfile : d .aof = some f)
    (hdone : done <+: [.openAppend .aof]) : d.run done = d := by
  cases done with
  | nil => rfl
  | cons op rest =>
      obtain ⟨rfl, hrest⟩ := List.cons_prefix_cons.mp hdone
      rw [List.prefix_nil.mp hrest]
      exact openAppend_of_some hfile

theorem crash_cases (hsnapshot : Settled d .snapshot) (haof : Settled d .aof)
    (hdone : done <+: writeSnapshotOps snap ++ compactOps kept)
    (hcrash : Crash (d.run done) after) :
    filesOf after = filesOf d ∨
      filesOf after = { filesOf d with snapshot := some snap.flatten } ∨
      filesOf after = ⟨some snap.flatten, kept.flatten⟩ := by
  rw [snapshotOps_eq] at hdone
  rcases prefix_split hdone with hbefore | ⟨more, hmore, rfl⟩
  · left
    have hold : after.content .snapshot = d.content .snapshot :=
      hcrash.content_of_spares (spares_writeTmp (by decide) snap) hsnapshot hbefore
    have hrecords : after.content .aof = d.content .aof :=
      hcrash.content_of_spares (spares_writeTmp (by decide) snap) haof hbefore
    rw [filesOf, filesOf, hold, hrecords]
  · right
    rw [Dir.run_replace] at hcrash
    obtain ⟨hnew, hnewSettled⟩ := content_of_synced
      ((replace_target (show FileName.snapshotTmp ≠ .snapshot by decide)).trans
        (run_writeTmp d .snapshotTmp snap))
    have hsame : Same .aof d (d.replace (writeTmp .snapshotTmp snap) .snapshotTmp .snapshot) :=
      same_replace (spares_writeTmp (by decide) snap) (by decide) (by decide)
    rcases prefix_split hmore with hbefore | ⟨last, hlast, rfl⟩
    · left
      have hkeep := hcrash.content_of_spares (spares_compactBody (by decide) kept) hnewSettled
        hbefore
      have hrecords := hcrash.content_of_spares (spares_compactBody (by decide) kept)
        (hsame.2 haof) hbefore
      rw [filesOf, filesOf, hkeep, hrecords, hnew, hsame.1]
    · right
      rw [Dir.run_replace] at hcrash
      have hcompacted := (replace_target (show FileName.aofCompact ≠ .aof by decide)).trans
        (run_compactBody (d.replace (writeTmp .snapshotTmp snap) .snapshotTmp .snapshot) kept)
      obtain ⟨hrecords, hrecordsSettled⟩ := content_of_synced hcompacted
      have hsnap : Same .snapshot _ (Dir.replace _ (compactBody kept) .aofCompact .aof) :=
        same_replace (d := d.replace (writeTmp .snapshotTmp snap) .snapshotTmp .snapshot)
          (spares_compactBody (by decide) kept) (by decide) (by decide)
      rw [run_openAppend hcompacted hlast] at hcrash
      rw [filesOf, hcrash.content_eq (hsnap.2 hnewSettled), hcrash.content_eq hrecordsSettled,
        hsnap.1, hnew, hrecords]
      rfl

end Crashes

/-! ## The call of `Snapshot` -/

namespace Manager

/-- What a call of `Snapshot` does before it writes, while nobody else does
anything: the dispatcher answers the barrier, and the shards are exported. -/
def quietCall {L : Layout} (now : ℤ) (orders : List (List (Key × Item))) : List (Action L) :=
  [Action.sync, .engine .dequeue, .readSeq, .beginExport now] ++ orders.map Action.exportShard

section Quiet

variable {L : Layout} {m next : Manager L}

theorem run_exports {orders : List (List (Key × Item))}
    (hrun : run step m (orders.map .exportShard) = some next) :
    next.engine = m.engine ∧ next.disk = m.disk := by
  induction orders generalizing m with
  | nil =>
      cases hrun
      exact ⟨rfl, rfl⟩
  | cons order rest ih =>
      obtain ⟨mid, hstep, hrest⟩ := (run_cons_eq_some step).mp hrun
      obtain ⟨_, _, _, _, _, _, _, hmid⟩ := exportShard_eq_some hstep
      have hlast := ih hrest
      rwa [hmid] at hlast

theorem run_quietCall {now : ℤ} {orders : List (List (Key × Item))}
    (hdrained : m.engine.Drained) (hrun : run step m (quietCall now orders) = some next) :
    next.engine.Drained ∧ next.disk = m.disk := by
  obtain ⟨hchan, hidle, hflushing⟩ := hdrained
  obtain ⟨synced, hsync, hrun⟩ := (run_cons_eq_some step).mp hrun
  obtain ⟨acked, hdequeue, hrun⟩ := (run_cons_eq_some step).mp hrun
  obtain ⟨counted, hread, hrun⟩ := (run_cons_eq_some step).mp hrun
  obtain ⟨exporting, hbegin, hrun⟩ := (run_cons_eq_some step).mp hrun
  obtain ⟨hengine, hdisk⟩ := run_exports hrun
  obtain ⟨_, hsynced⟩ := sync_eq_some hsync
  obtain ⟨e, he, hacked⟩ := Option.map_eq_some_iff.mp hdequeue
  obtain ⟨_, _, _, hcounted⟩ := readSeq_eq_some hread
  obtain ⟨_, clocked, _, hclock, hexporting⟩ := beginExport_eq_some hbegin
  have hanswered : e.Drained := by
    simp only [hsynced, Engine.step, Engine.dequeue, Engine.sync, hidle, hchan,
      List.nil_append, Option.some.injEq] at he
    rw [← he]
    exact ⟨rfl, rfl, hflushing⟩
  have hsame : counted.engine = e ∧ counted.disk = m.disk := by
    rw [hcounted, ← hacked, hsynced]
    exact ⟨rfl, rfl⟩
  have hquiet : clocked.Drained := by
    unfold Engine.readClock at hclock
    split_ifs at hclock
    rw [hsame.1, Option.some.injEq] at hclock
    rw [← hclock]
    exact hanswered
  rw [hengine, hdisk, hexporting]
  exact ⟨hquiet, hsame.2⟩

end Quiet

/-- Recovering from the files gives what is live in the cache of the engine. -/
def GivesBack {L fresh : Layout} (f : Files) (c : Cache fresh) (e : Engine L) : Prop :=
  ∃ recovered, f.recover c = .ok recovered ∧ ∀ t, e.clock ≤ t → ∀ key,
    live t (recovered.contents key) = live t (e.cache.contents key)

theorem Sound.givesBack {L : Layout} {opened : List Event} {m : Manager L}
    (hsound : m.Sound opened) (hdrained : m.engine.Drained) (hfits : m.disk.Fits)
    (shards : ℤ) (policy : Kind) (hash : Key → ℕ) (rng : ℕ → ℕ → ℕ) :
    GivesBack m.disk.files (Cache.unlimited shards policy hash rng) m.engine := by
  refine ⟨_, Disk.recover_files hfits _, ?_⟩
  intro t ht key
  rw [contents_recover_unlimited]
  exact hsound.live_recovered hdrained ht key

/-- In one process from an empty directory, at a moment when every event is
appended and synced and nobody writes, a crash between any two operations of
`Snapshot` on its files leaves a directory from which a fresh cache without limits
recovers the same unexpired entries as from the directory before the call. -/
theorem snapshot_crash_atomic (cfg : Config) (hash : Key → ℕ) (rng : ℕ → ℕ → ℕ) (clock : ℤ)
    (actions : List (Action (cfg.layout hash))) {m called : Manager (cfg.layout hash)}
    (hrun : run step (boot Disk.empty (Cache.new cfg hash rng) clock) actions = some m)
    (hdrained : m.engine.Drained) {now : ℤ} {orders : List (List (Key × Item))}
    (hcall : run step m (quietCall now orders) = some called)
    {startSeq : ℕ} {entries : List Event}
    (hphase : called.phase = .exporting startSeq now (cfg.layout hash).shards entries)
    (hfits : m.disk.Fits)
    (hnew : ({ m.disk with snapshot := some ⟨startSeq, entries⟩ } : Disk).Fits)
    {d after : Dir FileName UInt8} (hfiles : filesOf d = m.disk.files)
    (hsnapshot : Settled d .snapshot) (haof : Settled d .aof) {snap kept : List Bytes}
    (hsnap : snap.flatten = encodeSnapshot ⟨startSeq, entries⟩)
    (hkept : kept.flatten = encodeAll ((filesOf d).readRecords startSeq))
    {done : DirOps}
    (hdone : done <+: writeSnapshotOps snap ++ compactOps kept)
    (hcrash : Crash (d.run done) after)
    (shards : ℤ) (policy : Kind) (hash' : Key → ℕ) (rng' : ℕ → ℕ → ℕ) :
    ∃ before recovered,
      (filesOf d).recover (Cache.unlimited shards policy hash' rng') = .ok before ∧
      (filesOf after).recover (Cache.unlimited shards policy hash' rng') = .ok recovered ∧
      ∀ t, called.engine.clock ≤ t → ∀ key,
        live t (recovered.contents key) = live t (before.contents key) := by
  obtain ⟨hquiet, hdisk⟩ := run_quietCall hdrained hcall
  have hsound : called.Sound [] :=
    sound_of_run ((run_append_eq_some step).mpr ⟨m, hrun, hcall⟩)
  have hreplace : called.replace = some ⟨called.engine,
      { called.disk with snapshot := some ⟨startSeq, entries⟩ }, .replaced startSeq⟩ := by
    simp only [Manager.replace, hphase, if_true]
  have hreplaced := hsound.replace hreplace
  have hcompacted := hreplaced.compact rfl
  have hnewFits : ({ called.disk with snapshot := some ⟨startSeq, entries⟩ } : Disk).Fits := by
    rw [hdisk]
    exact hnew
  have hcompactedFits : (Disk.compact { called.disk with snapshot := some ⟨startSeq, entries⟩ }
      startSeq).Fits :=
    ⟨hnewFits.startSeq, hnewFits.entries,
      fun ev hmem => hnewFits.aof ev (List.mem_of_mem_filter hmem)⟩
  rw [← hdisk] at hfits hfiles
  have hafter : GivesBack (filesOf after) (Cache.unlimited shards policy hash' rng')
      called.engine := by
    rcases crash_cases hsnapshot haof hdone hcrash with hold | hmiddle | hboth
    · rw [hold, hfiles]
      exact hsound.givesBack hquiet hfits shards policy hash' rng'
    · rw [hmiddle, hfiles, hsnap]
      exact hreplaced.givesBack hquiet hnewFits shards policy hash' rng'
    · rw [hboth, hsnap, hkept, hfiles]
      have hpair := Disk.files_compact hnewFits startSeq
      have hgives := hcompacted.givesBack hquiet hcompactedFits shards policy hash' rng'
      rw [hpair] at hgives
      exact hgives
  obtain ⟨before, hbefore, hlive⟩ := hsound.givesBack hquiet hfits shards policy hash' rng'
  obtain ⟨recovered, hrecovered, hsame⟩ := hafter
  refine ⟨before, recovered, by rw [hfiles, hbefore], hrecovered, ?_⟩
  intro t ht key
  rw [hsame t ht key, hlive t ht key]

def oneEntry : List (Action (Config.layout ⟨1, 0, 0, .lru⟩ fun _ => 0)) :=
  [.engine (.client ⟨⟨1, 1⟩, .setTTL [97] [49] 0⟩), .engine .dequeue, .append,
    .engine .publish]

def oneRecordDir : Dir FileName UInt8
  | .aof => some ⟨encodeAll [⟨1, .opSet, [97], [49], 0⟩], 31⟩
  | _ => none

def tornTmp : Dir FileName UInt8
  | .aof => some ⟨encodeAll [⟨1, .opSet, [97], [49], 0⟩], 31⟩
  | .snapshotTmp => some ⟨[68, 67], 2⟩
  | _ => none

theorem snapshot_crash_atomic_tornTmp :
    ∃ before recovered,
      (filesOf oneRecordDir).recover (Cache.unlimited 4 .lfu List.length fun _ _ => 0) =
        .ok before ∧
      (filesOf tornTmp).recover (Cache.unlimited 4 .lfu List.length fun _ _ => 0) =
        .ok recovered ∧
      ∀ t, 2 ≤ t → ∀ key, live t (recovered.contents key) = live t (before.contents key) := by
  have hend : (run step (boot Disk.empty (Cache.new ⟨1, 0, 0, .lru⟩ (fun _ => 0) fun _ _ => 0)
        0) oneEntry).map (fun m => (m.disk, m.engine.chan, m.engine.handling,
          m.engine.flushing)) =
      some (⟨none, [⟨1, .opSet, [97], [49], 0⟩]⟩, [], .idle, none) := by
    decide +kernel
  have hcalled : (run step (boot Disk.empty
        (Cache.new ⟨1, 0, 0, .lru⟩ (fun _ => 0) fun _ _ => 0) 0)
        (oneEntry ++ quietCall 2 [[([97], ⟨[49], 0⟩)]])).map
        (fun m => (m.phase, m.engine.clock)) =
      some (.exporting 1 2 1 [.set [97] [49] 0], 2) := by
    decide +kernel
  obtain ⟨called, hboth, hstate⟩ := Option.map_eq_some_iff.mp hcalled
  obtain ⟨hphase, hclock⟩ := Prod.mk.inj hstate
  obtain ⟨m, hrun, hcall⟩ := (run_append_eq_some step).mp hboth
  rw [hrun, Option.map_some, Option.some.injEq, Prod.mk.injEq, Prod.mk.injEq,
    Prod.mk.injEq] at hend
  obtain ⟨hdisk, hchan, hidle, hflushing⟩ := hend
  have hrecord : (⟨1, .opSet, [97], [49], 0⟩ : Event).Fits :=
    ⟨by decide, by decide, by decide, by decide⟩
  have hentry : (Event.set [97] [49] 0).Fits := ⟨by decide, by decide, by decide, by decide⟩
  have hfits : m.disk.Fits := by
    rw [hdisk]
    exact ⟨by decide, by simp [Disk.entries], by simpa using hrecord⟩
  have hnew : ({ m.disk with snapshot := some ⟨1, [.set [97] [49] 0]⟩ } : Disk).Fits := by
    rw [hdisk]
    exact ⟨by decide, by simpa [Disk.entries] using hentry, by simpa using hrecord⟩
  have hfiles : filesOf oneRecordDir = m.disk.files := by
    rw [hdisk]
    rfl
  have hsettled : ∀ name, Settled oneRecordDir name := by
    intro name f hfile
    cases name with
    | aof =>
        cases hfile
        rfl
    | _ => cases hfile
  have hcrash : Crash (oneRecordDir.run [.create .snapshotTmp, .write .snapshotTmp
      (encodeSnapshot ⟨1, [.set [97] [49] 0]⟩)]) tornTmp := by
    intro name
    cases name with
    | snapshot => exact Or.inl ⟨rfl, rfl⟩
    | snapshotTmp => exact Or.inr ⟨_, 2, rfl, by decide, rfl⟩
    | aof => exact Or.inr ⟨_, 31, rfl, le_rfl, rfl⟩
    | aofCompact => exact Or.inl ⟨rfl, rfl⟩
  have hdone : [.create .snapshotTmp, .write .snapshotTmp
      (encodeSnapshot ⟨1, [.set [97] [49] 0]⟩)] <+:
      writeSnapshotOps [encodeSnapshot ⟨1, [.set [97] [49] 0]⟩] ++ compactOps [] :=
    ⟨_, rfl⟩
  have hkept : ([] : List Bytes).flatten = encodeAll ((filesOf oneRecordDir).readRecords 1) := by
    decide +kernel
  have hresult := snapshot_crash_atomic _ _ _ 0 oneEntry hrun ⟨hchan, hidle, hflushing⟩ hcall
    hphase hfits hnew hfiles (hsettled _) (hsettled _) (List.append_nil _) hkept hdone hcrash
    4 .lfu List.length fun _ _ => 0
  rw [hclock] at hresult
  exact hresult

end Manager

end Persistence
end DistCache
