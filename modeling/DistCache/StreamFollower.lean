import DistCache.EventDispatch

/-!
# Following the event stream

A component that follows the stream keeps the events that it was handed, and copies the
cache while the clients go on: it reads the published number as the boundary and exports
the shards one after the other.  The copy and the kept events above the boundary, with
the events on their way, agree with the cache at all times.

The persistence manager keeps the events in a file, the primary in a channel.
-/

namespace DistCache

open DeadlineStore Eviction Transition

variable {L : Layout}

def above (kept : List Event) (startSeq : ℕ) : List Event :=
  kept.filter fun ev => startSeq < ev.seq

theorem above_above (kept : List Event) {low high : ℕ} (hle : low ≤ high) :
    above (above kept low) high = above kept high := by
  unfold above
  rw [List.filter_filter]
  apply List.filter_congr
  intro ev _
  rw [Bool.eq_iff_iff, Bool.and_eq_true, decide_eq_true_eq, decide_eq_true_eq]
  omega

theorem above_append (kept more : List Event) (startSeq : ℕ) :
    above (kept ++ more) startSeq = above kept startSeq ++ above more startSeq :=
  List.filter_append kept more

theorem above_snoc (kept : List Event) {ev : Event} {startSeq : ℕ}
    (hnumber : startSeq < ev.seq) :
    above (kept ++ [ev]) startSeq = above kept startSeq ++ [ev] := by
  simp [above, hnumber]

theorem above_eq_self {kept : List Event} {startSeq : ℕ}
    (hall : ∀ ev ∈ kept, startSeq < ev.seq) : above kept startSeq = kept := by
  apply List.filter_eq_self.mpr
  intro ev hmem
  rw [decide_eq_true_eq]
  exact hall ev hmem

theorem above_eq_nil {kept : List Event} {startSeq : ℕ}
    (hnone : ∀ ev ∈ kept, ev.seq ≤ startSeq) : above kept startSeq = [] := by
  apply List.filter_eq_nil_iff.mpr
  intro ev hmem
  have hle := hnone ev hmem
  rw [decide_eq_true_eq]
  omega

def snapshotRecord (entry : Key × Item) : Event :=
  .set entry.1 entry.2.value entry.2.expireAt

/-! ## The entries of an exported shard -/

theorem mutations_snapshotRecords (order : List (Key × Item)) :
    mutations (order.map snapshotRecord) = order.map fun e => .set e.1 e.2 := by
  induction order with
  | nil => rfl
  | cons entry rest ih =>
      have hcons : mutations ((entry :: rest).map snapshotRecord) =
          .set entry.1 entry.2 :: mutations (rest.map snapshotRecord) := rfl
      rw [hcons, ih, List.map_cons]

section Export

variable {s : Shard} {now : ℤ} {order : List (Key × Item)} {store : Contents} {key : Key}

theorem replay_export_of_absent (horder : order.Perm (s.exportEntries now))
    (habsent : store key = none) :
    replay (mutations (order.map snapshotRecord)) store key = live now (s.view key) := by
  have hnodup : (order.map Prod.fst).Nodup :=
    (horder.map Prod.fst).nodup_iff.mpr (nodup_exportEntries s now)
  obtain ⟨hfound, hother⟩ := replay_sets hnodup store key
  rw [mutations_snapshotRecords]
  cases hlive : live now (s.view key) with
  | some it => exact hfound it (horder.mem_iff.mpr (mem_exportEntries.mpr hlive))
  | none =>
      rw [hother, habsent]
      intro hmem
      obtain ⟨⟨other, it⟩, hin, rfl⟩ := List.mem_map.mp hmem
      rw [mem_exportEntries.mp (horder.mem_iff.mp hin)] at hlive
      contradiction

theorem replay_export_of_not_held (horder : order.Perm (s.exportEntries now))
    (hview : s.view key = none) :
    replay (mutations (order.map snapshotRecord)) store key = store key := by
  have hnodup : (order.map Prod.fst).Nodup :=
    (horder.map Prod.fst).nodup_iff.mpr (nodup_exportEntries s now)
  rw [mutations_snapshotRecords]
  apply (replay_sets hnodup store key).2
  intro hmem
  obtain ⟨⟨other, it⟩, hin, rfl⟩ := List.mem_map.mp hmem
  have hlive := mem_exportEntries.mp (horder.mem_iff.mp hin)
  rw [hview] at hlive
  contradiction

theorem replay_export_of_other_shard {c : Cache L} (hplaced : c.Placed) {i : ℕ}
    (hi : i < L.shards) (horder : order.Perm ((c.shards ⟨i, hi⟩).exportEntries now))
    (hne : (L.index key : ℕ) ≠ i) :
    replay (mutations (order.map snapshotRecord)) store key = store key := by
  apply replay_export_of_not_held horder
  by_contra hheld
  have hindex : L.index key = ⟨i, hi⟩ := hplaced ⟨i, hi⟩ key hheld
  exact hne (congrArg Fin.val hindex)

end Export

namespace Engine

def logAbove (e : Engine L) (kept : List Event) (startSeq : ℕ) :
    List (Mutation Key Bytes ℤ) :=
  mutations (above kept startSeq) ++ mutations e.backlog

def Tracks (e : Engine L) (kept : List Event) (startSeq : ℕ) (copy : Contents)
    (P : Key → Prop) : Prop :=
  ∀ key, ¬ e.Unsettled key → P key →
    UpToDate e.clock key (e.logAbove kept startSeq) copy (e.cache.contents key)

/-- The log above the boundary explains every settled entry of the cache. -/
def Covered (e : Engine L) (kept : List Event) (startSeq : ℕ) : Prop :=
  ∀ key, ¬ e.Unsettled key →
    Explained key (e.logAbove kept startSeq) (e.cache.contents key)

def Fresh (e : Engine L) (kept : List Event) : Prop :=
  above kept e.seq = Handling.seen e.handling

/-- A published number has been read as the boundary. -/
structure Counted (e : Engine L) (kept : List Event) (startSeq : ℕ) : Prop where
  le_seq : startSeq ≤ e.seq
  covered : e.Covered kept startSeq

structure Exporting (e : Engine L) (kept : List Event) (startSeq : ℕ) (now : ℤ) (i : ℕ)
    (copy : Contents) : Prop where
  counted : e.Counted kept startSeq
  now_le : now ≤ e.clock
  absent : ∀ key, i ≤ (L.index key : ℕ) → copy key = none
  tracks : e.Tracks kept startSeq copy fun key => (L.index key : ℕ) < i

variable {e next : Engine L} {kept : List Event} {startSeq : ℕ} {copy : Contents}
  {P : Key → Prop} {now : ℤ} {i : ℕ}

theorem Tracks.live_eq (htracks : e.Tracks kept startSeq copy P)
    (hbacklog : e.backlog = []) (hflushing : e.flushing = none) {later : ℤ}
    (hlater : e.clock ≤ later) {key : Key} (hkey : P key) :
    live later (replay (mutations (above kept startSeq)) copy key) =
      live later (e.cache.contents key) := by
  have hsettled : ¬ e.Unsettled key := by
    rintro ⟨i, hi, _⟩
    rw [hflushing] at hi
    contradiction
  have huptodate := htracks key hsettled hkey
  rw [logAbove, hbacklog, mutations_nil, List.append_nil] at huptodate
  exact (Agree.mono huptodate hlater).live_eq

theorem Fresh.covered (hfresh : e.Fresh kept) (haccounted : e.Accounted) :
    e.Covered kept e.seq := by
  intro key hsettled
  rw [logAbove, hfresh, ← mutations_append]
  exact haccounted key hsettled

/-! ## Steps of the engine -/

theorem logAbove_advance {events : List Event}
    (hbacklog : mutations next.backlog = mutations e.backlog ++ mutations events) :
    next.logAbove kept startSeq = e.logAbove kept startSeq ++ mutations events := by
  simp only [logAbove, hbacklog, List.append_assoc]

theorem Tracks.advance (htracks : e.Tracks kept startSeq copy P)
    (hadvance : Advance e next) : next.Tracks kept startSeq copy P := by
  obtain ⟨events, hbacklog, hmoves⟩ := hadvance.emitted
  intro key hsettled hkey
  rw [logAbove_advance hbacklog]
  exact UpToDate.moves hadvance.clock_le (fun hbefore => htracks key hbefore hkey)
    (hmoves key hsettled)

theorem Covered.advance (hcovered : e.Covered kept startSeq) (hadvance : Advance e next) :
    next.Covered kept startSeq := by
  obtain ⟨events, hbacklog, hmoves⟩ := hadvance.emitted
  intro key hsettled
  rw [logAbove_advance hbacklog]
  exact Explained.moves (fun hbefore => hcovered key hbefore) (hmoves key hsettled)

theorem seq_le_of_advance (hregular : e.Regular) (hadvance : Advance e next) :
    e.seq ≤ next.seq := by
  rcases hadvance.counter with ⟨hseq, _⟩ | ⟨ev, hdelivered, _, hseq⟩
  · exact hseq.ge
  · have hnumber := hregular.numbered ev (Or.inr hdelivered)
    omega

theorem Fresh.advance (hfresh : e.Fresh kept) (hregular : e.Regular)
    (hadvance : Advance e next) : next.Fresh kept := by
  unfold Fresh at hfresh ⊢
  rcases hadvance.counter with ⟨hseq, hseen⟩ | ⟨ev, hdelivered, hidle, hseq⟩
  · rw [hseq, hseen, hfresh]
  · have hle := seq_le_of_advance hregular hadvance
    rw [hidle, ← above_above kept hle, hfresh, hdelivered]
    simp [above, Handling.seen, hseq]

theorem Counted.advance (hcounted : e.Counted kept startSeq) (hregular : e.Regular)
    (hadvance : Advance e next) : next.Counted kept startSeq :=
  ⟨hcounted.le_seq.trans (seq_le_of_advance hregular hadvance),
    hcounted.covered.advance hadvance⟩

theorem Exporting.advance (hexporting : e.Exporting kept startSeq now i copy)
    (hregular : e.Regular) (hadvance : Advance e next) :
    next.Exporting kept startSeq now i copy :=
  ⟨hexporting.counted.advance hregular hadvance,
    hexporting.now_le.trans hadvance.clock_le, hexporting.absent,
    hexporting.tracks.advance hadvance⟩

/-! ## The follower keeps one more event -/

section Deliver

variable {ev : Event}

theorem logAbove_deliver (hdeliver : e.deliver = some (ev, next))
    (hnumber : startSeq < ev.seq) :
    next.logAbove (kept ++ [ev]) startSeq = e.logAbove kept startSeq := by
  obtain ⟨hbacklog, _, _⟩ := backlog_deliver hdeliver
  have hsplit : mutations (ev :: next.backlog) = mutations [ev] ++ mutations next.backlog :=
    mutations_append [ev] next.backlog
  simp only [logAbove, above_snoc kept hnumber, hbacklog, hsplit, mutations_append,
    List.append_assoc]

theorem Tracks.deliver (htracks : e.Tracks kept startSeq copy P)
    (hdeliver : e.deliver = some (ev, next)) (hnumber : startSeq < ev.seq) :
    next.Tracks (kept ++ [ev]) startSeq copy P := by
  intro key hsettled hkey
  rw [logAbove_deliver hdeliver hnumber]
  obtain ⟨_, _, rfl⟩ := backlog_deliver hdeliver
  exact htracks key hsettled hkey

theorem Covered.deliver (hcovered : e.Covered kept startSeq)
    (hdeliver : e.deliver = some (ev, next)) (hnumber : startSeq < ev.seq) :
    next.Covered (kept ++ [ev]) startSeq := by
  intro key hsettled
  rw [logAbove_deliver hdeliver hnumber]
  obtain ⟨_, _, rfl⟩ := backlog_deliver hdeliver
  exact hcovered key hsettled

theorem Fresh.deliver (hfresh : e.Fresh kept) (hregular : e.Regular)
    (hdeliver : e.deliver = some (ev, next)) : next.Fresh (kept ++ [ev]) := by
  obtain ⟨_, hnumber⟩ := regular_deliver hregular hdeliver
  obtain ⟨_, hhandling, rfl⟩ := backlog_deliver hdeliver
  unfold Fresh at hfresh ⊢
  rw [hhandling] at hfresh
  have hlt : e.seq < ev.seq := by omega
  simp only [above_snoc kept hlt, hfresh]
  rfl

theorem Counted.deliver (hcounted : e.Counted kept startSeq) (hregular : e.Regular)
    (hdeliver : e.deliver = some (ev, next)) : next.Counted (kept ++ [ev]) startSeq := by
  obtain ⟨_, hnumber⟩ := regular_deliver hregular hdeliver
  have hle := hcounted.le_seq
  have hcovered := hcounted.covered.deliver hdeliver (by omega)
  obtain ⟨_, _, rfl⟩ := backlog_deliver hdeliver
  exact ⟨hle, hcovered⟩

theorem Exporting.deliver (hexporting : e.Exporting kept startSeq now i copy)
    (hregular : e.Regular) (hdeliver : e.deliver = some (ev, next)) :
    next.Exporting (kept ++ [ev]) startSeq now i copy := by
  obtain ⟨_, hnumber⟩ := regular_deliver hregular hdeliver
  have hle := hexporting.counted.le_seq
  have htracks := hexporting.tracks.deliver hdeliver (by omega)
  have hcounted := hexporting.counted.deliver hregular hdeliver
  obtain ⟨_, _, rfl⟩ := backlog_deliver hdeliver
  exact ⟨hcounted, hexporting.now_le, hexporting.absent, htracks⟩

end Deliver

/-! ## The follower drops events below the boundary -/

theorem Tracks.congr_above {other : List Event} (htracks : e.Tracks kept startSeq copy P)
    (habove : above other startSeq = above kept startSeq) :
    e.Tracks other startSeq copy P := by
  unfold Tracks logAbove
  rw [habove]
  exact htracks

theorem Covered.congr_above {other : List Event} (hcovered : e.Covered kept startSeq)
    (habove : above other startSeq = above kept startSeq) : e.Covered other startSeq := by
  unfold Covered logAbove
  rw [habove]
  exact hcovered

theorem Tracks.replay_first {ev : Event} (htracks : e.Tracks (ev :: kept) startSeq copy P)
    (hnumber : startSeq < ev.seq) :
    e.Tracks kept startSeq (replay (mutations [ev]) copy) P := by
  have hfirst : above (ev :: kept) startSeq = [ev] ++ above kept startSeq := by
    simp [above, hnumber]
  intro key hsettled hkey
  have hbefore := htracks key hsettled hkey
  unfold UpToDate at hbefore ⊢
  rw [logAbove, hfirst, mutations_append, List.append_assoc, replay_append] at hbefore
  exact hbefore

/-! ## The export of the shards -/

theorem Counted.beginExport (hcounted : e.Counted kept startSeq)
    (hempty : ∀ key, copy key = none) (hnow : now ≤ e.clock) :
    e.Exporting kept startSeq now 0 copy :=
  ⟨hcounted, hnow, fun key _ => hempty key,
    fun _ _ hkey => absurd hkey (Nat.not_lt_zero _)⟩

theorem Exporting.exportShard {order : List (Key × Item)}
    (hexporting : e.Exporting kept startSeq now i copy) (hplaced : e.cache.Placed)
    (hi : i < L.shards)
    (horder : order.Perm ((e.cache.shards ⟨i, hi⟩).exportEntries now)) :
    e.Exporting kept startSeq now (i + 1)
      (replay (mutations (order.map snapshotRecord)) copy) := by
  have hother : ∀ key, (L.index key : ℕ) ≠ i →
      replay (mutations (order.map snapshotRecord)) copy key = copy key :=
    fun _ hne => replay_export_of_other_shard hplaced hi horder hne
  refine ⟨hexporting.counted, hexporting.now_le, ?_, ?_⟩
  · intro key hkey
    rw [hother key (by omega)]
    exact hexporting.absent key (by omega)
  · intro key hsettled hkey
    by_cases hshard : (L.index key : ℕ) = i
    · have hindex : L.index key = ⟨i, hi⟩ := Fin.ext hshard
      have hcopy : replay (mutations (order.map snapshotRecord)) copy key =
          live now (e.cache.contents key) := by
        rw [replay_export_of_absent horder (hexporting.absent key hshard.ge),
          Cache.contents, hindex]
      exact (hexporting.counted.covered key hsettled).upToDate_export hexporting.now_le hcopy
    · have hbefore := hexporting.tracks key hsettled (by omega)
      unfold UpToDate at hbefore ⊢
      rwa [replay_congr_key _ (hother key hshard)]

theorem Exporting.tracks_all (hexporting : e.Exporting kept startSeq now L.shards copy) :
    e.Tracks kept startSeq copy fun _ => True :=
  fun key hsettled _ => hexporting.tracks key hsettled (L.index key).isLt

end Engine

end DistCache
