import DistCache.SnapshotManager

/-!
# Recovery from a snapshot taken during writes

The snapshot on the disk, with the records behind its boundary and the events on their
way, agrees with the cache at all times.  A snapshot in the making satisfies the same
for the shards that it has exported.

Every process counts from zero, so two conditions on the numbers are left open: a
record must get a number above the boundary on the disk, and a snapshot must not read
a number that separates the records of earlier processes.
-/

namespace DistCache
namespace Persistence
namespace Manager

open DeadlineStore Eviction Transition

variable {L : Layout}

def copyOf (entries : List Event) : Contents := replay (mutations entries) fun _ => none

/-- What a call of `Snapshot` has achieved. -/
def PhaseSound (m : Manager L) : Prop :=
  match m.phase with
  | .idle => True
  | .syncing _ => True
  | .counted startSeq => m.engine.Counted m.disk.aof startSeq
  | .exporting startSeq now i entries =>
      m.engine.Exporting m.disk.aof startSeq now i (copyOf entries)
  | .replaced startSeq => m.disk.startSeq = startSeq ∧ startSeq ≤ m.engine.seq

/-- The invariant; `opened` are the records of the file when the process
started. -/
structure Sound (opened : List Event) (m : Manager L) : Prop where
  regular : m.engine.Regular
  accounted : m.engine.Accounted
  onDisk : m.engine.Tracks m.disk.aof m.disk.startSeq (copyOf m.disk.entries) fun _ => True
  fresh : ∃ old new, m.disk.aof = old ++ new ∧ (∀ ev ∈ old, ev ∈ opened) ∧
    m.engine.Fresh new
  early : m.engine.seq = 0 → m.engine.Covered m.disk.aof 0
  compacted : (∀ startSeq, m.phase ≠ .replaced startSeq) →
    ∀ ev ∈ m.disk.aof, m.disk.startSeq < ev.seq
  phase : m.PhaseSound

/-- The numbers of this process and of the earlier ones do not get into each
other's way. -/
def NumbersFit (opened : List Event) (m : Manager L) : Action L → Prop
  | .append => ∀ ev ∈ Engine.Handling.taken m.engine.handling, m.disk.startSeq < ev.seq
  | .readSeq => m.engine.seq = 0 ∨ ∀ ev ∈ opened, ev.seq ≤ m.engine.seq
  | _ => True

instance (opened : List Event) (m : Manager L) (a : Action L) :
    Decidable (m.NumbersFit opened a) :=
  match a with
  | .append => inferInstanceAs (Decidable (∀ ev ∈ Engine.Handling.taken m.engine.handling,
      m.disk.startSeq < ev.seq))
  | .readSeq => inferInstanceAs (Decidable (m.engine.seq = 0 ∨ ∀ ev ∈ opened,
      ev.seq ≤ m.engine.seq))
  | .engine _ => inferInstanceAs (Decidable True)
  | .sync => inferInstanceAs (Decidable True)
  | .beginExport _ => inferInstanceAs (Decidable True)
  | .exportShard _ => inferInstanceAs (Decidable True)
  | .replace => inferInstanceAs (Decidable True)
  | .compact => inferInstanceAs (Decidable True)

section Steps

variable {opened : List Event} {m next : Manager L} {startSeq : ℕ}

/-! ## The dispatcher and the clients -/

theorem PhaseSound.advance {e : Engine L} (hphase : m.PhaseSound)
    (hregular : m.engine.Regular) (hadvance : Engine.Advance m.engine e) :
    ({ m with engine := e } : Manager L).PhaseSound := by
  unfold PhaseSound at hphase ⊢
  simp only
  cases hcase : m.phase with
  | idle => trivial
  | syncing ticket => trivial
  | counted startSeq =>
      simp only [hcase] at hphase
      exact hphase.advance hregular hadvance
  | exporting startSeq now i entries =>
      simp only [hcase] at hphase
      exact hphase.advance hregular hadvance
  | replaced startSeq =>
      simp only [hcase] at hphase
      exact ⟨hphase.1, hphase.2.trans (Engine.seq_le_of_advance hregular hadvance)⟩

theorem Sound.advance {e : Engine L} (hsound : m.Sound opened)
    (hadvance : Engine.Advance m.engine e) :
    ({ m with engine := e } : Manager L).Sound opened := by
  obtain ⟨old, new, haof, hold, hnew⟩ := hsound.fresh
  refine ⟨hadvance.regular, hsound.accounted.advance hadvance,
    hsound.onDisk.advance hadvance,
    ⟨old, new, haof, hold, hnew.advance hsound.regular hadvance⟩, ?_, hsound.compacted,
    hsound.phase.advance hsound.regular hadvance⟩
  intro hzero
  have hle := Engine.seq_le_of_advance hsound.regular hadvance
  have hzero' : e.seq = 0 := hzero
  exact (hsound.early (by omega)).advance hadvance

/-! ## Appending a record -/

theorem PhaseSound.append {ev : Event} {e : Engine L} (hphase : m.PhaseSound)
    (hregular : m.engine.Regular) (hdeliver : m.engine.deliver = some (ev, e)) :
    (⟨e, { m.disk with aof := m.disk.aof ++ [ev] }, m.phase⟩ : Manager L).PhaseSound := by
  unfold PhaseSound at hphase ⊢
  simp only
  cases hcase : m.phase with
  | idle => trivial
  | syncing ticket => trivial
  | counted startSeq =>
      simp only [hcase] at hphase
      exact hphase.deliver hregular hdeliver
  | exporting startSeq now i entries =>
      simp only [hcase] at hphase
      exact hphase.deliver hregular hdeliver
  | replaced startSeq =>
      simp only [hcase] at hphase
      obtain ⟨_, _, rfl⟩ := Engine.backlog_deliver hdeliver
      exact hphase

theorem Sound.append (hsound : m.Sound opened)
    (hfit : ∀ ev ∈ Engine.Handling.taken m.engine.handling, m.disk.startSeq < ev.seq)
    (hstep : m.append = some next) : next.Sound opened := by
  obtain ⟨ev, e, hdeliver, rfl⟩ := append_eq_some hstep
  obtain ⟨hregular, hnumber⟩ := Engine.regular_deliver hsound.regular hdeliver
  obtain ⟨old, new, haof, hold, hnew⟩ := hsound.fresh
  have hboundary : m.disk.startSeq < ev.seq := by
    apply hfit ev
    obtain ⟨_, hhandling, _⟩ := Engine.backlog_deliver hdeliver
    simp [hhandling, Engine.Handling.taken]
  refine ⟨hregular, hsound.accounted.deliver hdeliver,
    hsound.onDisk.deliver hdeliver hboundary,
    ⟨old, new ++ [ev], ?_, hold, hnew.deliver hsound.regular hdeliver⟩, ?_, ?_,
    hsound.phase.append hsound.regular hdeliver⟩
  · simp only [haof, List.append_assoc]
  · intro hzero
    have hcount : m.engine.seq = 0 := by
      obtain ⟨_, _, rfl⟩ := Engine.backlog_deliver hdeliver
      exact hzero
    have hpositive : 0 < ev.seq := by omega
    exact (hsound.early hcount).deliver hdeliver hpositive
  · intro hphase other hmem
    rcases List.mem_append.mp hmem with hmem | hmem
    · exact hsound.compacted hphase other hmem
    · rw [List.mem_singleton.mp hmem]
      exact hboundary

/-! ## The steps of a snapshot -/

theorem Sound.rephase {phase : Phase} (hsound : m.Sound opened)
    (hphase : ({ m with phase := phase } : Manager L).PhaseSound)
    (hbefore : ∀ startSeq, m.phase ≠ .replaced startSeq) :
    ({ m with phase := phase } : Manager L).Sound opened :=
  ⟨hsound.regular, hsound.accounted, hsound.onDisk, hsound.fresh, hsound.early,
    fun _ => hsound.compacted hbefore, hphase⟩

theorem Sound.sync (hsound : m.Sound opened) (hstep : m.sync = some next) :
    next.Sound opened := by
  obtain ⟨hcase, rfl⟩ := sync_eq_some hstep
  have hsynced := hsound.advance (Engine.advance_sync hsound.regular)
  have hwaiting : (⟨m.engine.sync, m.disk, .syncing m.engine.tickets⟩ :
      Manager L).PhaseSound := trivial
  exact hsynced.rephase hwaiting (by simp [hcase])

theorem Sound.covered_seq (hsound : m.Sound opened)
    (hfit : m.engine.seq = 0 ∨ ∀ ev ∈ opened, ev.seq ≤ m.engine.seq) :
    m.engine.Covered m.disk.aof m.engine.seq := by
  by_cases hzero : m.engine.seq = 0
  · rw [hzero]
    exact hsound.early hzero
  · have hopened := hfit.resolve_left hzero
    obtain ⟨old, new, haof, hold, hnew⟩ := hsound.fresh
    have hfresh : m.engine.Fresh m.disk.aof := by
      unfold Engine.Fresh
      rw [haof, above_append, above_eq_nil fun ev hmem => hopened ev (hold ev hmem), hnew,
        List.nil_append]
    exact hfresh.covered hsound.accounted

theorem Sound.readSeq (hsound : m.Sound opened)
    (hfit : m.engine.seq = 0 ∨ ∀ ev ∈ opened, ev.seq ≤ m.engine.seq)
    (hstep : m.readSeq = some next) : next.Sound opened := by
  obtain ⟨ticket, hcase, _, rfl⟩ := readSeq_eq_some hstep
  have hcounted : (⟨m.engine, m.disk, .counted m.engine.seq⟩ : Manager L).PhaseSound :=
    ⟨le_rfl, hsound.covered_seq hfit⟩
  exact hsound.rephase hcounted (by simp [hcase])

theorem Sound.beginExport {now : ℤ} (hsound : m.Sound opened)
    (hstep : m.beginExport now = some next) : next.Sound opened := by
  obtain ⟨startSeq, e, hcase, hread, rfl⟩ := beginExport_eq_some hstep
  obtain ⟨hadvance, hclock⟩ := Engine.advance_readClock hsound.regular hread
  have hread' := hsound.advance hadvance
  have hcounted := hread'.phase
  simp only [PhaseSound, hcase] at hcounted
  have hexporting : (⟨e, m.disk, .exporting startSeq now 0 []⟩ : Manager L).PhaseSound :=
    hcounted.beginExport (fun _ => rfl) hclock.ge
  exact hread'.rephase hexporting (by simp [hcase])

theorem copyOf_append (entries more : List Event) :
    copyOf (entries ++ more) = replay (mutations more) (copyOf entries) := by
  rw [copyOf, mutations_append, replay_append]
  rfl

theorem Sound.exportShard {order : List (Key × Item)} (hsound : m.Sound opened)
    (hstep : m.exportShard order = some next) : next.Sound opened := by
  obtain ⟨startSeq, now, i, entries, hi, hcase, horder, rfl⟩ := exportShard_eq_some hstep
  have hphase := hsound.phase
  simp only [PhaseSound, hcase] at hphase
  have hexported := hphase.exportShard hsound.regular.placed hi horder
  rw [← copyOf_append] at hexported
  have hexporting : (⟨m.engine, m.disk, .exporting startSeq now (i + 1)
      (entries ++ order.map snapshotRecord)⟩ : Manager L).PhaseSound := hexported
  exact hsound.rephase hexporting (by simp [hcase])

theorem Sound.replace (hsound : m.Sound opened) (hstep : m.replace = some next) :
    next.Sound opened := by
  obtain ⟨startSeq, now, entries, hcase, rfl⟩ := replace_eq_some hstep
  have hphase := hsound.phase
  simp only [PhaseSound, hcase] at hphase
  exact ⟨hsound.regular, hsound.accounted, hphase.tracks_all, hsound.fresh, hsound.early,
    fun hother => absurd rfl (hother startSeq), ⟨rfl, hphase.counted.le_seq⟩⟩

theorem Sound.compact (hsound : m.Sound opened) (hstep : m.compact = some next) :
    next.Sound opened := by
  obtain ⟨startSeq, hcase, rfl⟩ := compact_eq_some hstep
  have hphase := hsound.phase
  simp only [PhaseSound, hcase] at hphase
  obtain ⟨hboundary, hle⟩ := hphase
  obtain ⟨old, new, haof, hold, hnew⟩ := hsound.fresh
  refine ⟨hsound.regular, hsound.accounted,
    hsound.onDisk.congr_above (above_above m.disk.aof hboundary.ge), ?_, ?_, ?_, trivial⟩
  · refine ⟨above old startSeq, above new startSeq, ?_,
      fun ev hmem => hold ev (List.mem_of_mem_filter hmem), ?_⟩
    · simp only [Disk.compact, Disk.recordsFrom, haof, above_append]
    · exact (above_above new hle).trans hnew
  · intro hzero
    have hzero' : m.engine.seq = 0 := hzero
    exact (hsound.early hzero').congr_above (above_above m.disk.aof (by omega))
  · intro _ ev hmem
    have hnumber : startSeq < ev.seq := by
      have hkept := List.of_mem_filter hmem
      simpa using hkept
    have hsame : (m.disk.compact startSeq).startSeq = m.disk.startSeq := rfl
    simp only [hsame, hboundary]
    exact hnumber

theorem sound_step {a : Action L} (hsound : m.Sound opened) (hfit : m.NumbersFit opened a)
    (hstep : m.step a = some next) : next.Sound opened := by
  cases a with
  | engine a =>
      obtain ⟨e, he, rfl⟩ := Option.map_eq_some_iff.mp hstep
      exact hsound.advance (Engine.advance_step hsound.regular he)
  | append => exact hsound.append hfit hstep
  | sync => exact hsound.sync hstep
  | readSeq => exact hsound.readSeq hfit hstep
  | beginExport now => exact hsound.beginExport hstep
  | exportShard order => exact hsound.exportShard hstep
  | replace => exact hsound.replace hstep
  | compact => exact hsound.compact hstep

end Steps

/-! ## One process -/

theorem sound_boot {d : Disk} {c : Cache L} {clock : ℤ} (hplaced : (d.recover c).Placed)
    (hcontents : (d.recover c).contents =
      replay (mutations (d.recordsFrom d.startSeq)) (copyOf d.entries))
    (hcompacted : ∀ ev ∈ d.aof, d.startSeq < ev.seq) :
    (boot d c clock).Sound d.aof := by
  have hall : d.recordsFrom d.startSeq = d.aof := above_eq_self hcompacted
  have hzero : above d.aof 0 = d.aof := by
    apply above_eq_self
    intro ev hmem
    have hnumber := hcompacted ev hmem
    omega
  have hlog : ∀ startSeq, (boot d c clock).engine.logAbove d.aof startSeq =
      mutations (above d.aof startSeq) := fun startSeq => List.append_nil _
  refine ⟨Engine.regular_start hplaced clock, Engine.accounted_start _ clock, ?_,
    ⟨d.aof, [], (List.append_nil _).symm, fun _ hmem => hmem, rfl⟩, ?_,
    fun _ => hcompacted, trivial⟩
  · intro key _ _
    have hbooted : (boot d c clock).disk.aof = d.aof := rfl
    rw [hbooted, hlog]
    left
    exact (congrFun hcontents key).symm
  · intro _ key _
    have hbooted : (boot d c clock).disk.aof = d.aof := rfl
    rw [hbooted, hlog, hzero, ← hall]
    exact ⟨copyOf d.entries, (congrFun hcontents key).symm⟩

theorem contents_recover {c : Cache L} (hunlimited : c.Unlimited)
    (hempty : c.contents = fun _ => none) (d : Disk) :
    (d.recover c).contents =
      replay (mutations (d.recordsFrom d.startSeq)) (copyOf d.entries) := by
  have hentries := Cache.contents_applyEvents hunlimited d.entries
  rw [Disk.recover, Cache.contents_applyEvents (hunlimited.applyEvents d.entries), hentries,
    hempty]
  rfl

theorem contents_recover_unlimited (d : Disk) (shards : ℤ) (policy : Kind) (hash : Key → ℕ)
    (rng : ℕ → ℕ → ℕ) :
    (d.recover (Cache.unlimited shards policy hash rng)).contents =
      replay (mutations (d.recordsFrom d.startSeq)) (copyOf d.entries) :=
  contents_recover (Cache.unlimited_unlimited shards policy hash rng) rfl d

theorem Sound.live_recovered {opened : List Event} {m : Manager L} (hsound : m.Sound opened)
    (hdrained : m.engine.Drained) {now : ℤ} (hnow : m.engine.clock ≤ now) (key : Key) :
    live now (replay (mutations (m.disk.recordsFrom m.disk.startSeq))
        (copyOf m.disk.entries) key) =
      live now (m.engine.cache.contents key) := by
  obtain ⟨hchan, hidle, hflushing⟩ := hdrained
  have hbacklog : m.engine.backlog = [] := by
    rw [Engine.backlog, hchan, hidle]
    rfl
  exact hsound.onDisk.live_eq hbacklog hflushing hnow trivial

theorem startSeq_le_step {opened : List Event} {m next : Manager L} {a : Action L}
    (hsound : m.Sound opened) (hle : m.disk.startSeq ≤ m.engine.seq)
    (hstep : m.step a = some next) : next.disk.startSeq ≤ next.engine.seq := by
  cases a with
  | engine a =>
      obtain ⟨e, he, rfl⟩ := Option.map_eq_some_iff.mp hstep
      have hadvance := Engine.advance_step hsound.regular he
      exact hle.trans (Engine.seq_le_of_advance hsound.regular hadvance)
  | append =>
      obtain ⟨ev, e, hdeliver, rfl⟩ := append_eq_some hstep
      obtain ⟨_, _, rfl⟩ := Engine.backlog_deliver hdeliver
      exact hle
  | sync =>
      obtain ⟨_, rfl⟩ := sync_eq_some hstep
      exact hle
  | readSeq =>
      obtain ⟨_, _, _, rfl⟩ := readSeq_eq_some hstep
      exact hle
  | beginExport now =>
      obtain ⟨_, e, _, hread, rfl⟩ := beginExport_eq_some hstep
      have hadvance := (Engine.advance_readClock hsound.regular hread).1
      exact hle.trans (Engine.seq_le_of_advance hsound.regular hadvance)
  | exportShard order =>
      obtain ⟨_, _, _, _, _, _, _, rfl⟩ := exportShard_eq_some hstep
      exact hle
  | replace =>
      obtain ⟨startSeq, now, entries, hcase, rfl⟩ := replace_eq_some hstep
      have hphase := hsound.phase
      simp only [PhaseSound, hcase] at hphase
      exact hphase.counted.le_seq
  | compact =>
      obtain ⟨_, _, rfl⟩ := compact_eq_some hstep
      exact hle

/-! ## From an empty directory -/

theorem sound_of_run {cfg : Config} {hash : Key → ℕ} {rng : ℕ → ℕ → ℕ} {clock : ℤ}
    {actions : List (Action (cfg.layout hash))} {final : Manager (cfg.layout hash)}
    (hrun : run step (boot Disk.empty (Cache.new cfg hash rng) clock) actions = some final) :
    final.Sound [] := by
  have hboot : (boot Disk.empty (Cache.new cfg hash rng) clock).Sound [] :=
    sound_boot (d := Disk.empty) (c := Cache.new cfg hash rng)
      (Cache.placed_new cfg hash rng) (Cache.contents_new cfg hash rng)
      (fun ev hmem => absurd hmem List.not_mem_nil)
  have hinv : final.Sound [] ∧ final.disk.startSeq ≤ final.engine.seq := by
    refine run_invariant (I := fun m : Manager (cfg.layout hash) =>
      m.Sound [] ∧ m.disk.startSeq ≤ m.engine.seq) step ?_ ⟨hboot, le_rfl⟩ hrun
    intro m a next ⟨hsound, hle⟩ hstep
    have hfit : m.NumbersFit [] a := by
      cases a with
      | append =>
          intro ev hmem
          have hnumber := hsound.regular.seq_of_taken hmem
          omega
      | readSeq => exact Or.inr fun ev hmem => absurd hmem List.not_mem_nil
      | _ => trivial
    exact ⟨sound_step hsound hfit hstep, startSeq_le_step hsound hle hstep⟩
  exact hinv.1

/-- Whatever the clients, the dispatcher and any number of snapshots do in one
process that starts from an empty directory: once the channel is drained, a
recovery from the disk gives exactly the entries that are live in the cache. -/
theorem recover_live_eq_live
    (cfg : Config) (hash : Key → ℕ) (rng : ℕ → ℕ → ℕ) (clock : ℤ)
    (actions : List (Action (cfg.layout hash))) {final : Manager (cfg.layout hash)}
    (hrun : run step (boot Disk.empty (Cache.new cfg hash rng) clock) actions = some final)
    (hdrained : final.engine.Drained) {now : ℤ} (hnow : final.engine.clock ≤ now)
    (shards : ℤ) (policy : Kind) (hash' : Key → ℕ) (rng' : ℕ → ℕ → ℕ) (key : Key) :
    live now ((final.disk.recover
        (Cache.unlimited shards policy hash' rng')).contents key) =
      live now (final.engine.cache.contents key) := by
  rw [contents_recover_unlimited]
  exact (sound_of_run hrun).live_recovered hdrained hnow key

def writeDuringSnapshot : List (Action (Config.layout ⟨1, 0, 0, .lru⟩ fun _ => 0)) :=
  [.engine (.client ⟨⟨1, 1⟩, .setTTL [97] [49] 0⟩), .engine .dequeue, .append,
    .engine .publish, .sync, .engine .dequeue, .readSeq, .beginExport 2,
    .exportShard [([97], ⟨[49], 0⟩)], .engine (.client ⟨⟨3, 3⟩, .setTTL [98] [50] 10⟩),
    .replace, .engine .dequeue, .append, .compact, .engine .publish]

theorem writeDuringSnapshot_recovered :
    ∃ final, run step (boot Disk.empty
        (Cache.new ⟨1, 0, 0, .lru⟩ (fun _ => 0) fun _ _ => 0) 0) writeDuringSnapshot =
        some final ∧
      final.disk = ⟨some ⟨1, [.set [97] [49] 0]⟩, [⟨2, .opSet, [98], [50], 13⟩]⟩ ∧
      ∀ key, live 5 ((final.disk.recover
          (Cache.unlimited 4 .noEviction List.length fun _ _ => 0)).contents key) =
        live 5 (final.engine.cache.contents key) := by
  have hend : (run step (boot Disk.empty
        (Cache.new ⟨1, 0, 0, .lru⟩ (fun _ => 0) fun _ _ => 0) 0) writeDuringSnapshot).map
        (fun m => (m.disk, m.engine.chan, m.engine.handling, m.engine.flushing,
          m.engine.clock)) =
      some (⟨some ⟨1, [.set [97] [49] 0]⟩, [⟨2, .opSet, [98], [50], 13⟩]⟩, [], .idle,
        none, 3) := by
    decide +kernel
  obtain ⟨final, hrun, hfinal⟩ := Option.map_eq_some_iff.mp hend
  simp only [Prod.mk.injEq] at hfinal
  obtain ⟨hdisk, hchan, hidle, hflushing, hclock⟩ := hfinal
  exact ⟨final, hrun, hdisk, recover_live_eq_live _ _ _ 0 writeDuringSnapshot hrun
    ⟨hchan, hidle, hflushing⟩ (by omega) 4 .noEviction List.length fun _ _ => 0⟩

end Manager
end Persistence
end DistCache
