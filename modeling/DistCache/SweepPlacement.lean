import DistCache.KeptDeadlines

/-!
# Where the sweeps happen

`Delete` and `Len` do not look at deadlines: an expired entry counts as long as it is
there, and how long that is depends on the sweeps.  A run with sweeps is compared with
the run of the same operations without any.  The results are the same wherever the
sweeps happen exactly if the run without sweeps has no expired entry where a `Delete` or
`Len` looks.
-/

namespace DistCache

open DeadlineStore TimedRuns

variable {L : Layout}

/-! ## Operations and sweeps -/

inductive ClientAction (L : Layout) where
  | step (op : KeyOp L)
  | len

structure TimedAction (L : Layout) where
  clock : Clock
  ordered : clock.first ≤ clock.second
  action : ClientAction L

namespace TimedAction

def time (a : TimedAction L) : ℤ := a.clock.first

def isSweep (a : TimedAction L) : Bool :=
  match a.action with
  | .step (.sweepExpired _ _ _) => true
  | _ => false

def isCount (a : TimedAction L) : Bool :=
  match a.action with
  | .step (.delete _) => true
  | .step (.len _) => true
  | .len => true
  | _ => false

end TimedAction

def Shard.Fresh (s : Shard) (now : ℤ) : Prop := ∀ key, live now (s.view key) = s.view key

namespace Cache

def react (c : Cache L) (a : TimedAction L) : Cache L × Reply :=
  match a.action with
  | .step op => ((c.exec ⟨a.clock, op⟩).1, (c.exec ⟨a.clock, op⟩).2.2)
  | .len => (c, .count c.len)

/-- What is deleted or counted has not expired. -/
def Clean (c : Cache L) (a : TimedAction L) : Prop :=
  match a.action with
  | .step (.delete key) => live a.time (c.contents key) = c.contents key
  | .step (.len shard) => (c.shards shard).Fresh a.time
  | .len => ∀ shard, (c.shards shard).Fresh a.time
  | _ => True

def CanSweep (c : Cache L) (a : TimedAction L) : Prop :=
  match a.action with
  | .step (.sweepExpired shard sample order) =>
      sample = 32 ∧ order.Perm (c.shards shard).items.keys
  | _ => True

end Cache

/-! ## Counting a shard -/

namespace Shard

variable {s r : Shard} {now : ℤ}

theorem mem_keys_iff_view {key : Key} : key ∈ s.items.keys ↔ s.view key ≠ none := by
  rw [← AList.mem_keys, ← AList.lookup_isSome, Option.isSome_iff_ne_none]
  rfl

theorem keys_subset_of_trails (htrails : Trails now s.view r.view) :
    s.items.keys ⊆ r.items.keys := by
  intro key hmem
  rw [mem_keys_iff_view] at hmem ⊢
  rcases htrails key with hsame | ⟨hnone, -⟩
  · rw [← hsame]
    exact hmem
  · exact absurd hnone hmem

theorem len_le_of_trails (htrails : Trails now s.view r.view) : s.len ≤ r.len :=
  (s.items.keys_nodup.subperm (keys_subset_of_trails htrails)).length_le

theorem len_lt_of_trails (htrails : Trails now s.view r.view) {key : Key}
    (hgone : s.view key = none) (hthere : r.view key ≠ none) : s.len < r.len := by
  have hnodup : (key :: s.items.keys).Nodup := by
    rw [List.nodup_cons, mem_keys_iff_view]
    exact ⟨not_not.mpr hgone, s.items.keys_nodup⟩
  have hsub : key :: s.items.keys ⊆ r.items.keys :=
    List.cons_subset.mpr ⟨mem_keys_iff_view.mpr hthere, keys_subset_of_trails htrails⟩
  exact (hnodup.subperm hsub).length_le

theorem eq_of_trails {key : Key} (htrails : Trails now s.view r.view)
    (hfresh : live now (r.view key) = r.view key) : s.view key = r.view key := by
  rcases htrails key with hsame | ⟨hnone, hdead⟩
  · exact hsame
  · rw [hnone, ← hfresh, hdead]

theorem len_eq_of_fresh (htrails : Trails now s.view r.view) (hfresh : r.Fresh now) :
    s.len = r.len := by
  apply le_antisymm (len_le_of_trails htrails)
  have hback : Trails now r.view s.view := fun key =>
    Or.inl (eq_of_trails htrails (hfresh key)).symm
  exact len_le_of_trails hback

theorem result_del (s : Shard) (key : Key) : (s.del key).result = (s.view key).isSome := by
  unfold del view
  cases s.items.lookup key <;> rfl

/-! ## Sweeping a shard -/

theorem view_sweepLoop_cons {key : Key} {it : Item} (hlookup : s.items.lookup key = some it)
    (hexpired : it.expired now) (rest : List Key) :
    (sweepLoop now (key :: rest) s).1.view key = none := by
  simp only [sweepLoop, hlookup, if_pos hexpired]
  have hremoved : (s.removeLocked key it).view key = none := by
    rw [view_removeLocked, del_apply, Function.update_self]
  rcases trails_sweepLoop now rest (s.removeLocked key it) key with hsame | ⟨hnone, -⟩
  · rw [hsame, hremoved]
  · exact hnone

theorem exists_order {key : Key} (hmem : key ∈ s.items.keys) :
    ∃ rest, (key :: rest).Perm s.items.keys := by
  obtain ⟨before, after, hsplit⟩ := List.append_of_mem hmem
  refine ⟨before ++ after, ?_⟩
  rw [hsplit]
  exact List.perm_middle.symm

/-! ## One step in both runs -/

theorem trails_run {clock : Clock} (hordered : clock.first ≤ clock.second)
    (hs : s.maxEntries ≤ 0 ∧ s.maxMemory ≤ 0) (hr : r.maxEntries ≤ 0 ∧ r.maxMemory ≤ 0)
    {op : KeyOp L} (hop : ∀ shard sample order, op ≠ .sweepExpired shard sample order)
    (htrails : Trails clock.first s.view r.view) :
    Trails clock.first (op.run clock s).shard.view (op.run clock r).shard.view := by
  cases hkey : op.key? with
  | some key =>
      have hlooks : clock.first ≤ op.looksAt clock := by
        cases op <;> first | exact hordered | exact le_rfl
      have hlive := (htrails.later hlooks).sameLive key
      rw [view_run hs.1 hs.2 clock hkey, view_run hr.1 hr.2 clock hkey, hlive]
      exact htrails.update key _
  | none =>
      cases op with
      | sweepExpired shard sample order => exact absurd rfl (hop shard sample order)
      | keys shard => exact htrails
      | len shard => exact htrails
      | flush shard => exact fun _ => Or.inl rfl
      | _ => cases hkey

end Shard

namespace Cache

structure Trailing (now : ℤ) (c free : Cache L) : Prop where
  unlimited : c.Unlimited
  free_unlimited : free.Unlimited
  shards : ∀ i, Trails now (c.shards i).view (free.shards i).view

variable {c free : Cache L} {a : TimedAction L}

theorem Trailing.sweep {clock : Clock} (htrailing : c.Trailing clock.first free)
    (shard : Fin L.shards) (sample : ℕ) (order : List Key) :
    (c.exec ⟨clock, .sweepExpired shard sample order⟩).1.Trailing clock.first free := by
  refine ⟨htrailing.unlimited.exec _, htrailing.free_unlimited, ?_⟩
  intro i
  rw [shards_exec]
  split_ifs
  · exact (Shard.trails_sweepLoop clock.first _ _).trans (htrailing.shards i)
  · exact htrailing.shards i

theorem Trailing.exec {clock : Clock} (hordered : clock.first ≤ clock.second) {op : KeyOp L}
    (hop : ∀ shard sample order, op ≠ .sweepExpired shard sample order)
    (htrailing : c.Trailing clock.first free) :
    (c.exec ⟨clock, op⟩).1.Trailing clock.first (free.exec ⟨clock, op⟩).1 := by
  refine ⟨htrailing.unlimited.exec _, htrailing.free_unlimited.exec _, ?_⟩
  intro i
  rw [shards_exec, shards_exec]
  split_ifs
  · exact Shard.trails_run hordered (htrailing.unlimited i) (htrailing.free_unlimited i) hop
      (htrailing.shards i)
  · exact htrailing.shards i

theorem Trailing.react_sweep (hsweep : a.isSweep) (htrailing : c.Trailing a.time free) :
    (c.react a).1.Trailing a.time free := by
  obtain ⟨clock, hordered, action⟩ := a
  cases action with
  | len => cases hsweep
  | step op =>
      cases op with
      | sweepExpired shard sample order => exact htrailing.sweep shard sample order
      | _ => cases hsweep

theorem Trailing.react (hclient : ¬ a.isSweep) (htrailing : c.Trailing a.time free) :
    (c.react a).1.Trailing a.time (free.react a).1 := by
  obtain ⟨clock, hordered, action⟩ := a
  cases action with
  | len => exact htrailing
  | step op =>
      apply htrailing.exec hordered
      rintro shard sample order rfl
      exact hclient rfl

theorem len_eq_of_trailing {now : ℤ} (htrailing : c.Trailing now free)
    (hfresh : ∀ shard, (free.shards shard).Fresh now) : c.len = free.len := by
  have hshards : ∀ i, (c.shards i).len = (free.shards i).len := fun i =>
    Shard.len_eq_of_fresh (htrailing.shards i) (hfresh i)
  simp only [len, hshards]

theorem Trailing.result_eq (hcount : a.isCount) (htrailing : c.Trailing a.time free)
    (hclean : free.Clean a) : (c.react a).2 = (free.react a).2 := by
  obtain ⟨clock, hordered, action⟩ := a
  cases action with
  | len => exact congrArg Reply.count (len_eq_of_trailing htrailing hclean)
  | step op =>
      cases op with
      | delete key =>
          have hview := Shard.eq_of_trails (htrailing.shards (L.index key)) hclean
          have hresult : ((c.shards (L.index key)).del key).result =
              ((free.shards (L.index key)).del key).result := by
            rw [Shard.result_del, Shard.result_del, hview]
          exact congrArg Reply.bool hresult
      | len shard =>
          exact congrArg Reply.count (Shard.len_eq_of_fresh (htrailing.shards shard) hclean)
      | _ => cases hcount

/-! ## A sweep that shows -/

theorem expired_of_live_ne {entry : Option Item} {now : ℤ} (hne : live now entry ≠ entry) :
    ∃ it, entry = some it ∧ it.expired now := by
  have hdead := (live_eq_self_or_none now entry).resolve_left hne
  cases entry with
  | none => exact absurd hdead hne
  | some it => exact ⟨it, rfl, live_eq_none_iff.mp hdead it rfl⟩

theorem exists_sweep {shard : Fin L.shards} {key : Key} {now : ℤ}
    (hne : live now ((c.shards shard).view key) ≠ (c.shards shard).view key) :
    ∃ b : TimedAction L, b.isSweep ∧ b.time = now ∧ c.CanSweep b ∧
      ((c.react b).1.shards shard).view key = none ∧
      ∀ i, Trails now ((c.react b).1.shards i).view (c.shards i).view := by
  obtain ⟨it, hview, hexpired⟩ := expired_of_live_ne hne
  have hmem : key ∈ (c.shards shard).items.keys := by
    rw [Shard.mem_keys_iff_view, hview]
    exact Option.some_ne_none it
  obtain ⟨rest, hperm⟩ := Shard.exists_order hmem
  have htake : (key :: rest).take 32 = key :: rest.take 31 := rfl
  refine ⟨⟨⟨now, now⟩, le_rfl, .step (.sweepExpired shard 32 (key :: rest))⟩, rfl, rfl,
    ⟨rfl, hperm⟩, ?_, ?_⟩
  · have hself : shard = (KeyOp.sweepExpired shard 32 (key :: rest) : KeyOp L).shard := rfl
    simp only [react]
    rw [shards_exec, if_pos hself]
    simp only [KeyOp.run, Shard.sweepExpired, htake]
    exact Shard.view_sweepLoop_cons hview hexpired _
  · intro i
    simp only [react]
    rw [shards_exec]
    split_ifs
    · exact Shard.trails_sweepLoop now _ _
    · exact .refl now _

theorem len_lt_of_gone {swept : Cache L} {shard : Fin L.shards} {key : Key} {now : ℤ}
    (htrails : ∀ i, Trails now (swept.shards i).view (c.shards i).view)
    (hgone : (swept.shards shard).view key = none) (hthere : (c.shards shard).view key ≠ none) :
    swept.len < c.len := by
  apply List.sum_lt_sum
  · intro i _
    exact Shard.len_le_of_trails (htrails i)
  · exact ⟨shard, List.mem_finRange shard,
      Shard.len_lt_of_trails (htrails shard) hgone hthere⟩

theorem view_ne_none_of_live_ne {entry : Option Item} {now : ℤ} (hne : live now entry ≠ entry) :
    entry ≠ none := by
  rintro rfl
  exact hne (live_none now)

theorem exists_sweep_shows (hdirty : ¬ c.Clean a) :
    a.isCount ∧ ∃ b : TimedAction L, b.isSweep ∧ b.time = a.time ∧ c.CanSweep b ∧
      ((c.react b).1.react a).2 ≠ (c.react a).2 := by
  obtain ⟨clock, hordered, action⟩ := a
  cases action with
  | len =>
      refine ⟨rfl, ?_⟩
      obtain ⟨shard, hstale⟩ := not_forall.mp hdirty
      obtain ⟨key, hne⟩ := not_forall.mp hstale
      obtain ⟨b, hsweep, htime, hcan, hgone, htrails⟩ := exists_sweep hne
      have hlt := len_lt_of_gone htrails hgone (view_ne_none_of_live_ne hne)
      exact ⟨b, hsweep, htime, hcan, fun heq => hlt.ne (Reply.count.inj heq)⟩
  | step op =>
      cases op with
      | delete key =>
          refine ⟨rfl, ?_⟩
          have hne : live clock.first ((c.shards (L.index key)).view key) ≠
              (c.shards (L.index key)).view key := hdirty
          obtain ⟨b, hsweep, htime, hcan, hgone, -⟩ := exists_sweep hne
          refine ⟨b, hsweep, htime, hcan, ?_⟩
          intro heq
          have hresult : (((c.react b).1.shards (L.index key)).del key).result =
              ((c.shards (L.index key)).del key).result := Reply.bool.inj heq
          rw [Shard.result_del, Shard.result_del, hgone] at hresult
          have hthere := Option.isSome_iff_ne_none.mpr (view_ne_none_of_live_ne hne)
          rw [hthere] at hresult
          cases hresult
      | len shard =>
          refine ⟨rfl, ?_⟩
          obtain ⟨key, hne⟩ := not_forall.mp hdirty
          obtain ⟨b, hsweep, htime, hcan, hgone, htrails⟩ := exists_sweep hne
          have hlt := Shard.len_lt_of_trails (htrails shard) hgone (view_ne_none_of_live_ne hne)
          exact ⟨b, hsweep, htime, hcan, fun heq => hlt.ne (Reply.count.inj heq)⟩
      | _ => exact absurd trivial hdirty

/-! ## Runs with sweeps -/

/-- A run of the operations with sweeps anywhere. -/
abbrev Sweeps (c : Cache L) (operations run : List (TimedAction L)) : Prop :=
  Inserts TimedAction.time react TimedAction.isSweep CanSweep c operations run

abbrev counted (c : Cache L) (run : List (TimedAction L)) : List Reply :=
  observed react TimedAction.isCount c run

theorem not_isCount_of_isSweep (a : TimedAction L) (hsweep : a.isSweep) : ¬ a.isCount := by
  obtain ⟨clock, hordered, action⟩ := a
  cases action with
  | len => cases hsweep
  | step op =>
      cases op with
      | sweepExpired shard sample order => exact Bool.false_ne_true
      | _ => cases hsweep

/-- The sweeps cannot be told from the results of `Delete` and `Len` exactly if the
run without sweeps never deletes or counts an entry that has expired. -/
theorem sweeps_unseen_iff (c : Cache L) (hunlimited : c.Unlimited)
    (operations : List (TimedAction L)) (hclient : ∀ a ∈ operations, ¬ a.isSweep)
    (hclock : (operations.map TimedAction.time).Pairwise (· ≤ ·)) :
    (∀ first second, c.Sweeps operations first → c.Sweeps operations second →
        c.counted first = c.counted second) ↔
      Throughout react Clean c operations := by
  apply observed_eq_iff_throughout (R := Trailing)
  · intro now later c free hle htrailing
    exact ⟨htrailing.unlimited, htrailing.free_unlimited,
      fun i => (htrailing.shards i).later hle⟩
  · exact not_isCount_of_isSweep
  · exact fun a c free hsweep htrailing => htrailing.react_sweep hsweep
  · exact fun a c free hloud htrailing => htrailing.react hloud
  · exact fun a c free hcount htrailing hclean => htrailing.result_eq hcount hclean
  · exact fun a c _ hdirty => exists_sweep_shows hdirty
  · exact hclient
  · exact hclock
  · exact fun now => ⟨hunlimited, hunlimited, fun i => .refl now _⟩

def actionAt (now : ℤ) (action : ClientAction (Config.layout ⟨1, 0, 0, .lru⟩ fun _ => 0)) :
    TimedAction (Config.layout ⟨1, 0, 0, .lru⟩ fun _ => 0) :=
  ⟨⟨now, now⟩, le_rfl, action⟩

/-- A read has removed the key before it is deleted. -/
theorem sweeps_unseen_iff_read :
    let c := Cache.unlimited 1 .lru (fun _ => 0) fun _ _ => 0
    let operations := [actionAt 1 (.step (.setTTL [107] [118] 5)),
      actionAt 10 (.step (.get [107])), actionAt 11 (.step (.delete [107]))]
    ∀ first second, c.Sweeps operations first → c.Sweeps operations second →
      c.counted first = c.counted second := by
  intro c operations
  have hclient : ∀ a ∈ operations, ¬ a.isSweep := by decide
  have hclean : Throughout react Clean c operations := by
    refine ⟨trivial, trivial, ?_, trivial⟩
    have hgone : (c.execAll [⟨⟨1, 1⟩, .setTTL [107] [118] 5⟩,
        ⟨⟨10, 10⟩, .get [107]⟩]).1.contents [107] = none := by
      decide +kernel
    change live 11 ((c.execAll [⟨⟨1, 1⟩, .setTTL [107] [118] 5⟩,
        ⟨⟨10, 10⟩, .get [107]⟩]).1.contents [107]) = _
    exact (congrArg (live 11) hgone).trans hgone.symm
  exact (sweeps_unseen_iff c (unlimited_unlimited 1 .lru _ _) operations hclient
    (by decide)).mpr hclean

/-- The same two operations on a key that has expired, without a sweep before them
and with one. -/
theorem sweep_changes_delete_and_len :
    let c := Cache.unlimited 1 .lru (fun _ => 0) fun _ _ => 0
    let operations := [actionAt 1 (.step (.setTTL [107] [118] 5)), actionAt 10 .len,
      actionAt 10 (.step (.delete [107]))]
    let swept := [actionAt 1 (.step (.setTTL [107] [118] 5)),
      actionAt 10 (.step (.sweepExpired (Layout.index _ [107]) 32 [[107]])), actionAt 10 .len,
      actionAt 10 (.step (.delete [107]))]
    c.Sweeps operations operations ∧ c.Sweeps operations swept ∧
      c.counted operations = [.count 1, .bool true] ∧
      c.counted swept = [.count 0, .bool false] := by
  intro c operations swept
  have hperm : [[107]].Perm ((c.react (actionAt 1 (.step (.setTTL [107] [118] 5)))).1.shards
      (Layout.index _ [107])).items.keys := by
    decide +kernel
  have hnone : c.Sweeps operations operations := .none (by decide) (by decide) c
  have hswept : c.Sweeps operations swept := by
    refine ⟨rfl, by decide, ?_, fun _ => ⟨rfl, hperm⟩, ?_, ?_, trivial⟩
    · exact fun hsweep => absurd hsweep (by decide)
    · exact fun hsweep => absurd hsweep (by decide)
    · exact fun hsweep => absurd hsweep (by decide)
  exact ⟨hnone, hswept, by decide +kernel, by decide +kernel⟩

end Cache
end DistCache
