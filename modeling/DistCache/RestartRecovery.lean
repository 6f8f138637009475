import DistCache.SnapshotRecovery

/-!
# Recovery over several processes

Every process recovers from the directory that the one before it has left, and
its dispatcher counts from zero again.  The snapshot on the disk carries a
boundary in the numbers of the process that wrote it.  The records of a later
process start at one, and those up to the boundary are skipped by the next
recovery although the snapshot does not contain them.

A history is a list of processes, run one after the other on one directory.
-/

namespace DistCache
namespace Persistence

open DeadlineStore Eviction Transition

/-- A process: its cache without limits, the clock at its start, and what
happens until it ends. -/
structure Process where
  shards : ℤ
  policy : Kind
  hash : Key → ℕ
  rng : ℕ → ℕ → ℕ
  clock : ℤ
  actions : List (Action (Config.layout ⟨shards, 0, 0, policy⟩ hash))

namespace Process

def boot (p : Process) (d : Disk) :
    Manager (Config.layout ⟨p.shards, 0, 0, p.policy⟩ p.hash) :=
  Manager.boot d (Cache.unlimited p.shards p.policy p.hash p.rng) p.clock

def run (p : Process) (d : Disk) :
    Option (Manager (Config.layout ⟨p.shards, 0, 0, p.policy⟩ p.hash)) :=
  Transition.run Manager.step (p.boot d) p.actions

/-- The process ends when everything is delivered and no snapshot is under
way. -/
def Ended {L : Layout} (m : Manager L) : Prop :=
  m.engine.Drained ∧ m.phase = .idle

instance {L : Layout} (m : Manager L) : Decidable (Ended m) :=
  inferInstanceAs (Decidable ((m.engine.chan = [] ∧ m.engine.handling = .idle ∧
    m.engine.flushing = none) ∧ m.phase = .idle))

def life (d : Disk) (p : Process) : Option Disk :=
  (p.run d).bind fun final => if Ended final then some final.disk else none

/-- Every record gets a number above the boundary of the snapshot that is on the
disk, and every snapshot reads the number zero or one that no record found in
the file exceeds. -/
def NumbersFit (d : Disk) (p : Process) : Prop :=
  Along Manager.step (Manager.NumbersFit d.aof) (p.boot d) p.actions

instance (d : Disk) (p : Process) : Decidable (NumbersFit d p) :=
  inferInstanceAs (Decidable (Along Manager.step (Manager.NumbersFit d.aof) (p.boot d)
    p.actions))

variable {d d' : Disk} {p : Process}

theorem sound_run {final : Manager (Config.layout ⟨p.shards, 0, 0, p.policy⟩ p.hash)}
    (hcompacted : ∀ ev ∈ d.aof, d.startSeq < ev.seq) (hfit : p.NumbersFit d)
    (hrun : p.run d = some final) : final.Sound d.aof := by
  have hplaced : (d.recover (Cache.unlimited p.shards p.policy p.hash p.rng)).Placed :=
    ((Cache.placed_new _ p.hash p.rng).applyEvents d.entries).applyEvents _
  have hcontents := Manager.contents_recover_unlimited d p.shards p.policy p.hash p.rng
  exact run_invariant_along Manager.step
    (fun _ _ _ hsound hnumbers hstep => Manager.sound_step hsound hnumbers hstep)
    (Manager.sound_boot hplaced hcontents hcompacted) hfit hrun

theorem compacted_life (hcompacted : ∀ ev ∈ d.aof, d.startSeq < ev.seq)
    (hfit : p.NumbersFit d) (hlife : life d p = some d') :
    ∀ ev ∈ d'.aof, d'.startSeq < ev.seq := by
  obtain ⟨final, hrun, hended⟩ := Option.bind_eq_some_iff.mp hlife
  split_ifs at hended with hidle
  cases hended
  apply (sound_run hcompacted hfit hrun).compacted
  intro startSeq hreplaced
  rw [hidle.2] at hreplaced
  contradiction

/-- In every history whose processes all keep the numbers apart, the recovery of
the next process gives exactly the entries that are live at the end of the
last one. -/
theorem recover_history (history : List Process) {d : Disk} {p : Process}
    (hhistory : Transition.run life Disk.empty history = some d)
    (hfit : Along life NumbersFit Disk.empty (history ++ [p]))
    {final : Manager (Config.layout ⟨p.shards, 0, 0, p.policy⟩ p.hash)}
    (hrun : p.run d = some final) (hended : Ended final)
    {now : ℤ} (hnow : final.engine.clock ≤ now)
    (shards : ℤ) (policy : Kind) (hash : Key → ℕ) (rng : ℕ → ℕ → ℕ) (key : Key) :
    live now ((final.disk.recover
        (Cache.unlimited shards policy hash rng)).contents key) =
      live now (final.engine.cache.contents key) := by
  obtain ⟨hbefore, hlast⟩ := (along_append life).mp hfit
  have hcompacted : ∀ ev ∈ d.aof, d.startSeq < ev.seq := by
    refine run_invariant_along (I := fun d : Disk => ∀ ev ∈ d.aof, d.startSeq < ev.seq)
      life ?_ (fun ev hmem => absurd hmem List.not_mem_nil) hbefore hhistory
    intro d p d' hd hp hlife
    exact compacted_life hd hp hlife
  have hsound := sound_run hcompacted (hlast d hhistory).1 hrun
  rw [Manager.contents_recover_unlimited]
  exact hsound.live_recovered hended.1 hnow key

/-! ## The second process after a snapshot -/

def snapshotOf {L : Layout} (now : ℤ) (order : List (Key × Item)) : List (Action L) :=
  [.sync, .engine .dequeue, .readSeq, .beginExport now, .exportShard order, .replace, .compact]

def writeOf {L : Layout} (now : ℤ) (key : Key) (value : Bytes) : List (Action L) :=
  [.engine (.client ⟨⟨now, now⟩, .setTTL key value 0⟩), .engine .dequeue, .append,
    .engine .publish]

def snapshotting : Process :=
  ⟨1, .noEviction, fun _ => 0, fun _ _ => 0, 0,
    writeOf 1 [97] [49] ++ snapshotOf 2 [([97], ⟨[49], 0⟩)]⟩

def writing : Process := ⟨1, .noEviction, fun _ => 0, fun _ _ => 0, 3, writeOf 4 [98] [50]⟩

theorem write_after_restart_is_lost :
    ∃ d final, Transition.run life Disk.empty [snapshotting] = some d ∧
      writing.run d = some final ∧ Ended final ∧
      live 5 (final.engine.cache.contents [98]) = some ⟨[50], 0⟩ ∧
      live 5 ((final.disk.recover
        (Cache.unlimited 1 .noEviction (fun _ => 0) fun _ _ => 0)).contents [98]) = none := by
  have hfirst : Transition.run life Disk.empty [snapshotting] =
      some ⟨some ⟨1, [.set [97] [49] 0]⟩, []⟩ := by
    decide +kernel
  have hsecond : (writing.run ⟨some ⟨1, [.set [97] [49] 0]⟩, []⟩).map (fun final =>
      (decide (Ended final), live 5 (final.engine.cache.contents [98]),
        live 5 ((final.disk.recover
          (Cache.unlimited 1 .noEviction (fun _ => 0) fun _ _ => 0)).contents [98]))) =
      some (true, some ⟨[50], 0⟩, none) := by
    decide +kernel
  obtain ⟨final, hrun, hfinal⟩ := Option.map_eq_some_iff.mp hsecond
  simp only [Prod.mk.injEq, decide_eq_true_eq] at hfinal
  exact ⟨_, final, hfirst, hrun, hfinal⟩

def snapshotFirst : Process :=
  ⟨1, .noEviction, fun _ => 0, fun _ _ => 0, 5,
    snapshotOf 6 [([98], ⟨[50], 0⟩)] ++ writeOf 7 [97] [49]⟩

theorem recover_history_snapshotFirst :
    ∃ d final, Transition.run life Disk.empty [writing] = some d ∧
      snapshotFirst.run d = some final ∧
      final.disk = ⟨some ⟨0, [.set [98] [50] 0]⟩,
        [⟨1, .opSet, [98], [50], 0⟩, ⟨1, .opSet, [97], [49], 0⟩]⟩ ∧
      ∀ key, live 8 ((final.disk.recover
          (Cache.unlimited 2 .lru List.length fun _ _ => 0)).contents key) =
        live 8 (final.engine.cache.contents key) := by
  have hfirst : Transition.run life Disk.empty [writing] =
      some ⟨none, [⟨1, .opSet, [98], [50], 0⟩]⟩ := by
    decide +kernel
  have hfit : Along life NumbersFit Disk.empty ([writing] ++ [snapshotFirst]) := by
    decide +kernel
  have hsecond : (snapshotFirst.run ⟨none, [⟨1, .opSet, [98], [50], 0⟩]⟩).map (fun final =>
      (decide (Ended final), final.disk, final.engine.clock)) =
      some (true, ⟨some ⟨0, [.set [98] [50] 0]⟩,
        [⟨1, .opSet, [98], [50], 0⟩, ⟨1, .opSet, [97], [49], 0⟩]⟩, 7) := by
    decide +kernel
  obtain ⟨final, hrun, hfinal⟩ := Option.map_eq_some_iff.mp hsecond
  simp only [Prod.mk.injEq, decide_eq_true_eq] at hfinal
  obtain ⟨hended, hdisk, hclock⟩ := hfinal
  exact ⟨_, final, hfirst, hrun, hdisk, recover_history [writing] hfirst hfit hrun hended
    (by omega) 2 .lru List.length fun _ _ => 0⟩

end Process
end Persistence
end DistCache
