import DistCache.CounterCommands

/-!
# Deadlines along a run

In a cache without limits a step replaces the entry of its key by a function of the
entry that is live: a read leaves it, `Expire` gives it another deadline, and the writes
do not look at it.  A deadline is therefore kept by every step but the writes to its
key.  `IncrBy` is one of them: a counter that was to run out stays.
-/

namespace DistCache

open DeadlineStore

variable {L : Layout}

/-! ## The entry that a step leaves -/

namespace KeyOp

def key? : KeyOp L → Option Key
  | .setTTL key _ _ => some key
  | .get key => some key
  | .delete key => some key
  | .exists_ key => some key
  | .expire key _ => some key
  | .ttl key => some key
  | .incrBy key _ => some key
  | _ => none

theorem shard_of_key? {op : KeyOp L} {key : Key} (hkey : op.key? = some key) :
    op.shard = L.index key := by
  cases op <;> cases hkey <;> rfl

def looksAt (clock : Clock) : KeyOp L → ℤ
  | .expire _ _ => clock.second
  | _ => clock.first

def leaves (clock : Clock) (entry : Option Item) : KeyOp L → Option Item
  | .setTTL _ value lifetime => some ⟨value, deadline clock.first lifetime⟩
  | .delete _ => none
  | .expire _ lifetime => entry.map (Entry.retime (deadline clock.first lifetime))
  | .incrBy _ delta =>
      match ExpiringMap.counter entry with
      | none => entry
      | some base => some ⟨formatInt (int64 (base + delta)), 0⟩
  | _ => entry

end KeyOp

namespace Shard

variable {s : Shard} {key : Key} {now : ℤ}

theorem view_lookupLive {α : Type} {absent gone : α} {found : Item → Outcome α}
    {kept : Item → Item}
    (hfound : ∀ it, live now (s.view key) = some it →
      (found it).shard.view = Function.update s.view key (some (kept it))) :
    (s.lookupLive key now absent gone found).shard.view =
      Function.update s.view key ((live now (s.view key)).map kept) := by
  cases hlive : live now (s.view key) with
  | some it =>
      rw [lookupLive_of_live hlive]
      exact hfound it hlive
  | none =>
      unfold lookupLive
      cases hlookup : s.items.lookup key with
      | none =>
          have hview : s.view key = none := hlookup
          exact (Function.update_eq_self_iff.mpr hview.symm).symm
      | some it =>
          simp only [if_pos (live_eq_none_iff.mp hlive it hlookup), view_removeLocked, del_apply,
            Option.map_none]

theorem view_read {α : Type} {absent gone : α} {found : Item → Outcome α}
    (hfound : ∀ it, (found it).shard.view = s.view) :
    (s.lookupLive key now absent gone found).shard.view =
      Function.update s.view key (live now (s.view key)) := by
  have hview : (s.lookupLive key now absent gone found).shard.view =
      Function.update s.view key ((live now (s.view key)).map id) := by
    apply view_lookupLive
    intro it hlive
    rw [hfound, id, ← (live_eq_some hlive).1, Function.update_eq_self]
  rw [Option.map_id] at hview
  exact hview

theorem view_incrBy (hentries : s.maxEntries ≤ 0) (hmemory : s.maxMemory ≤ 0) (clock : Clock)
    (delta : ℤ) :
    (s.incrBy key delta clock.first).shard.view =
      Function.update s.view key
        ((KeyOp.incrBy key delta : KeyOp L).leaves clock (live clock.first (s.view key))) := by
  simp only [KeyOp.leaves]
  cases hcounter : ExpiringMap.counter (live clock.first (s.view key)) with
  | some base => exact (incrBy_of_number hentries hmemory delta hcounter).1
  | none =>
      -- a value that is no number is the value of a live entry
      rw [incrBy_of_error delta hcounter]
      cases hlive : live clock.first (s.view key) with
      | none => simp [hlive, ExpiringMap.counter] at hcounter
      | some it =>
          dsimp only
          rw [← (live_eq_some hlive).1, Function.update_eq_self]

theorem view_run (hentries : s.maxEntries ≤ 0) (hmemory : s.maxMemory ≤ 0) (clock : Clock)
    {op : KeyOp L} (hkey : op.key? = some key) :
    (op.run clock s).shard.view =
      Function.update s.view key (op.leaves clock (live (op.looksAt clock) (s.view key))) := by
  cases op with
  | setTTL own value lifetime =>
      cases hkey
      exact view_set_of_unlimited hentries hmemory key value _
  | get own =>
      cases hkey
      exact view_read fun _ => rfl
  | delete own =>
      cases hkey
      exact view_del s key
  | exists_ own =>
      cases hkey
      exact view_read fun _ => rfl
  | expire own lifetime =>
      cases hkey
      apply view_lookupLive
      intro it _
      have hretime := s.view_insert key (it.retime (deadline clock.first lifetime))
      rw [set_apply] at hretime
      exact hretime
  | ttl own =>
      cases hkey
      exact view_read fun _ => rfl
  | incrBy own delta =>
      cases hkey
      have hshard : (KeyOp.run clock (.incrBy key delta : KeyOp L) s).shard =
          (s.incrBy key delta clock.first).shard := by
        simp only [KeyOp.run]
        cases (s.incrBy key delta clock.first).result <;> rfl
      rw [hshard]
      exact view_incrBy hentries hmemory clock delta
  | _ => cases hkey

end Shard

namespace Cache

variable {c : Cache L} {key : Key}

theorem contents_exec_of_key (hunlimited : c.Unlimited) (clock : Clock) {op : KeyOp L}
    (hkey : op.key? = some key) :
    (c.exec ⟨clock, op⟩).1.contents =
      Function.update c.contents key
        (op.leaves clock (live (op.looksAt clock) (c.contents key))) := by
  have hshard := KeyOp.shard_of_key? hkey
  obtain ⟨hentries, hmemory⟩ := hunlimited op.shard
  apply contents_exec_update hshard
  rw [Shard.view_run hentries hmemory clock hkey, hshard]
  rfl

theorem contents_exec_of_same {clock : Clock} {op : KeyOp L}
    (hsame : (op.run clock (c.shards op.shard)).shard = c.shards op.shard) :
    (c.exec ⟨clock, op⟩).1.contents = c.contents := by
  funext other
  rw [contents_exec_of_shard, hsame]
  split_ifs with hshard
  · rw [contents, hshard]
  · rfl

theorem Unlimited.execAll (hunlimited : c.Unlimited) (steps : List (Step L)) :
    (c.execAll steps).1.Unlimited := by
  induction steps generalizing c with
  | nil => exact hunlimited
  | cons step rest ih => exact ih (hunlimited.exec step)

theorem Placed.execAll (hplaced : c.Placed) (steps : List (Step L)) :
    (c.execAll steps).1.Placed := by
  induction steps generalizing c with
  | nil => exact hplaced
  | cons step rest ih => exact ih (placed_exec hplaced step)

end Cache

/-! ## Steps that leave the deadline of a key alone -/

/-- No write to the key but `IncrBy`, and no flush of its shard. -/
def KeyOp.Spares (key : Key) : KeyOp L → Prop
  | .setTTL own _ _ => own ≠ key
  | .delete own => own ≠ key
  | .expire own _ => own ≠ key
  | .flush shard => shard ≠ L.index key
  | _ => True

def KeyOp.IsIncrBy (key : Key) (op : KeyOp L) : Prop := ∃ delta, op = .incrBy key delta

namespace Cache

variable {c : Cache L} {key : Key}

theorem live_contents_of_key (hunlimited : c.Unlimited) {clock : Clock} {op : KeyOp L}
    {own : Key} (hown : op.key? = some own) {t : ℤ}
    (hleaves : own = key → live t (op.leaves clock (live (op.looksAt clock) (c.contents key))) =
      live t (c.contents key)) :
    live t ((c.exec ⟨clock, op⟩).1.contents key) = live t (c.contents key) := by
  rw [contents_exec_of_key hunlimited clock hown]
  by_cases hkey : own = key
  · subst hkey
    rw [Function.update_self]
    exact hleaves rfl
  · rw [Function.update_of_ne (Ne.symm hkey)]

theorem live_contents_exec (hunlimited : c.Unlimited) {clock : Clock} {op : KeyOp L}
    (hspares : op.Spares key) {t : ℤ} (ht : clock.first ≤ t)
    (hrefused : op.IsIncrBy key → c.currentNumber key clock.first = none) :
    live t ((c.exec ⟨clock, op⟩).1.contents key) = live t (c.contents key) := by
  cases op with
  | setTTL own value lifetime | expire own lifetime | delete own =>
      exact live_contents_of_key hunlimited rfl fun hkey => absurd hkey hspares
  | get own => exact live_contents_of_key hunlimited rfl fun _ => live_live ht _
  | exists_ own => exact live_contents_of_key hunlimited rfl fun _ => live_live ht _
  | ttl own => exact live_contents_of_key hunlimited rfl fun _ => live_live ht _
  | incrBy own delta =>
      apply live_contents_of_key hunlimited rfl
      rintro rfl
      have hnone : ExpiringMap.counter (live clock.first (c.contents own)) = none :=
        hrefused ⟨delta, rfl⟩
      simp only [KeyOp.leaves, KeyOp.looksAt, hnone]
      exact live_live ht _
  | sweepExpired shard sample order =>
      rw [contents_exec_of_shard]
      split_ifs with hshard
      · have hsame := Shard.sameLive_sweepLoop clock.first (order.take sample) (c.shards shard)
        rw [contents, hshard]
        exact hsame.later ht key
      · rfl
  | keys shard => rw [contents_exec_of_same rfl]
  | len shard => rw [contents_exec_of_same rfl]
  | flush shard => rw [contents_exec_flush, if_neg (Ne.symm hspares)]

theorem live_contents_execAll (hunlimited : c.Unlimited) {it : Item} {steps : List (Step L)}
    (hclock : (steps.map fun step => step.clock.first).Pairwise (· ≤ ·))
    (hspares : ∀ step ∈ steps, step.op.Spares key)
    (hrefused : ∀ step ∈ steps, step.op.IsIncrBy key →
      ¬ it.expired step.clock.first ∧ parseInt it.value = none)
    (hlive : ∀ step ∈ steps, live step.clock.first (c.contents key) =
      live step.clock.first (some it))
    {t : ℤ} (ht : ∀ step ∈ steps, step.clock.first ≤ t)
    (hend : live t (c.contents key) = live t (some it)) :
    live t ((c.execAll steps).1.contents key) = live t (some it) := by
  induction steps generalizing c with
  | nil => exact hend
  | cons step rest ih =>
      rw [List.map_cons, List.pairwise_cons] at hclock
      have hmem : step ∈ step :: rest := List.mem_cons_self
      have hnumber : step.op.IsIncrBy key →
          c.currentNumber key step.clock.first = none := by
        intro hincrBy
        obtain ⟨hfresh, hparse⟩ := hrefused step hmem hincrBy
        rw [currentNumber, hlive step hmem, live_of_not_expired hfresh]
        exact hparse
      have hstep : ∀ later, step.clock.first ≤ later →
          live later ((c.exec step).1.contents key) = live later (c.contents key) := by
        intro later hle
        exact live_contents_exec hunlimited (hspares step hmem) hle hnumber
      apply ih (hunlimited.exec step) hclock.2
      · exact fun other hother => hspares other (List.mem_cons_of_mem _ hother)
      · exact fun other hother => hrefused other (List.mem_cons_of_mem _ hother)
      · intro other hother
        rw [hstep _ (hclock.1 _ (List.mem_map_of_mem hother))]
        exact hlive other (List.mem_cons_of_mem _ hother)
      · exact fun other hother => ht other (List.mem_cons_of_mem _ hother)
      · rw [hstep t (ht step hmem)]
        exact hend

/-! ## Runs that keep a deadline -/

/-- Every read of the key at this time finds nothing. -/
structure Absent (c : Cache L) (key : Key) (t : ℤ) : Prop where
  get : ∀ second, (c.exec ⟨⟨t, second⟩, .get key⟩).2.2 = .value none
  exists_ : ∀ second, (c.exec ⟨⟨t, second⟩, .exists_ key⟩).2.2 = .bool false
  ttl : ∀ second, (c.exec ⟨⟨t, second⟩, .ttl key⟩).2.2 = .remaining 0 false false
  keys : key ∉ c.keys t
  export_ : ∀ it, (key, it) ∉ c.exportEntries t

theorem absent_of_live (hplaced : c.Placed) {t : ℤ} (hnone : live t (c.contents key) = none) :
    c.Absent key t := by
  have hview : live t ((c.shards (L.index key)).view key) = none := hnone
  constructor
  · intro second
    have hget := ((c.shards (L.index key)).get_spec key t).2
    rw [hview] at hget
    exact congrArg Reply.value hget
  · intro second
    have hexists := ((c.shards (L.index key)).exists_spec key t).2
    rw [hview] at hexists
    exact congrArg Reply.bool hexists
  · intro second
    have httl := ((c.shards (L.index key)).ttl_spec key t).2.1
    rw [hview] at httl
    simp only [Cache.exec, KeyOp.run, KeyOp.shard, httl]
    rfl
  · rw [mem_keys_iff hplaced]
    exact not_not.mpr hnone
  · intro it
    rw [mem_exportEntries_iff hplaced, hnone]
    exact (Option.some_ne_none _).symm

def Over (steps : List (Step L)) (t : ℤ) : Prop := ∀ step ∈ steps, step.clock.first ≤ t

/-- No `IncrBy` on the key has happened from the deadline on. -/
def NotRecreated (key : Key) (d : ℤ) (steps : List (Step L)) : Prop :=
  ∀ step ∈ steps, step.op.IsIncrBy key → step.clock.first < d

/-- Before the deadline the key has it.  From then on the key is absent, until an
`IncrBy` starts it again from zero. -/
structure KeepsDeadline (c : Cache L) (key : Key) (d : ℤ) (steps : List (Step L)) : Prop where
  stays : ∀ before after t, steps = before ++ after → Over before t → t < d →
    ((c.execAll before).1.contents key).map Entry.expireAt = some d
  absent : ∀ before after t, steps = before ++ after → Over before t → d ≤ t →
    NotRecreated key d before → (c.execAll before).1.Absent key t
  recreated : ∀ before clock delta after, steps = before ++ ⟨clock, .incrBy key delta⟩ :: after →
    d ≤ clock.first → NotRecreated key d before →
    ((c.execAll before).1.exec ⟨clock, .incrBy key delta⟩).1.contents key =
        some ⟨formatInt (int64 delta), 0⟩ ∧
      ((c.execAll before).1.exec ⟨clock, .incrBy key delta⟩).2.2 = .number (.ok (int64 delta))

section Run

variable {value : Bytes} {d : ℤ} {steps : List (Step L)}

theorem not_expired_of_lt {t : ℤ} (hlt : t < d) : ¬ (⟨value, d⟩ : Item).expired t := by
  rintro ⟨-, hle⟩
  exact absurd hle (not_le.mpr hlt)

theorem live_contents_before (hunlimited : c.Unlimited)
    (hentry : c.contents key = some ⟨value, d⟩)
    (hclock : (steps.map fun step => step.clock.first).Pairwise (· ≤ ·))
    (hspares : ∀ step ∈ steps, step.op.Spares key) {before after : List (Step L)}
    (hsplit : steps = before ++ after)
    (hrefused : ∀ step ∈ before, step.op.IsIncrBy key →
      step.clock.first < d ∧ parseInt value = none)
    {t : ℤ} (hover : Over before t) :
    live t ((c.execAll before).1.contents key) = live t (some ⟨value, d⟩) := by
  subst hsplit
  rw [List.map_append, List.pairwise_append] at hclock
  apply live_contents_execAll hunlimited hclock.1
  · exact fun step hmem => hspares step (List.mem_append_left _ hmem)
  · intro step hmem hincrBy
    obtain ⟨hlt, hparse⟩ := hrefused step hmem hincrBy
    exact ⟨not_expired_of_lt hlt, hparse⟩
  · intro step hmem
    rw [hentry]
  · exact hover
  · rw [hentry]

theorem over_of_pairwise (hclock : (steps.map fun step => step.clock.first).Pairwise (· ≤ ·))
    {before after : List (Step L)} {step : Step L} (hsplit : steps = before ++ step :: after) :
    Over before step.clock.first := by
  rw [hsplit, List.map_append, List.pairwise_append] at hclock
  intro other hmem
  exact hclock.2.2 _ (List.mem_map_of_mem hmem) _ (List.mem_map_of_mem List.mem_cons_self)

theorem keepsDeadline_of_refused (hunlimited : c.Unlimited) (hplaced : c.Placed)
    (hentry : c.contents key = some ⟨value, d⟩) (hd : d ≠ 0)
    (hclock : (steps.map fun step => step.clock.first).Pairwise (· ≤ ·))
    (hspares : ∀ step ∈ steps, step.op.Spares key)
    (hrefused : ∀ step ∈ steps, step.op.IsIncrBy key → step.clock.first < d →
      parseInt value = none) :
    c.KeepsDeadline key d steps := by
  have hwithin : ∀ {before after : List (Step L)}, steps = before ++ after →
      ∀ {step}, step ∈ before → step ∈ steps := by
    intro before after hsplit step hmem
    rw [hsplit]
    exact List.mem_append_left _ hmem
  have hgone : ∀ before after t, steps = before ++ after → Over before t → d ≤ t →
      NotRecreated key d before → live t ((c.execAll before).1.contents key) = none := by
    intro before after t hsplit hover hle hnot
    rw [live_contents_before hunlimited hentry hclock hspares hsplit ?_ hover]
    · exact live_of_expired ⟨hd, hle⟩
    · intro step hmem hincrBy
      have hlt := hnot step hmem hincrBy
      exact ⟨hlt, hrefused step (hwithin hsplit hmem) hincrBy hlt⟩
  constructor
  · intro before after t hsplit hover hlt
    have hlive := live_contents_before hunlimited hentry hclock hspares hsplit ?_ hover
    · rw [live_of_not_expired (not_expired_of_lt hlt)] at hlive
      rw [(live_eq_some hlive).1]
      rfl
    · intro step hmem hincrBy
      have hbefore := lt_of_le_of_lt (hover step hmem) hlt
      exact ⟨hbefore, hrefused step (hwithin hsplit hmem) hincrBy hbefore⟩
  · intro before after t hsplit hover hle hnot
    exact absent_of_live (hplaced.execAll before) (hgone before after t hsplit hover hle hnot)
  · intro before clock delta after hsplit hle hnot
    have hover := over_of_pairwise hclock hsplit
    have hnone := hgone before _ clock.first hsplit hover hle hnot
    have hzero : (c.execAll before).1.currentNumber key clock.first = some 0 := by
      rw [currentNumber, hnone]
      rfl
    have hcount := (c.execAll before).1.exec_incrBy_of_some clock key delta hzero
    rw [zero_add] at hcount
    exact hcount

theorem no_early_incrBy (hunlimited : c.Unlimited) (hentry : c.contents key = some ⟨value, d⟩)
    (hd : d ≠ 0) (hclock : (steps.map fun step => step.clock.first).Pairwise (· ≤ ·))
    (hspares : ∀ step ∈ steps, step.op.Spares key) (hkeeps : c.KeepsDeadline key d steps)
    {number : ℤ} (hparse : parseInt value = some number) (before : List (Step L)) :
    ∀ after, steps = before ++ after → ∀ step ∈ before, step.op.IsIncrBy key →
      d ≤ step.clock.first := by
  induction before using List.reverseRecOn with
  | nil =>
      intro after hsplit step hmem
      cases hmem
  | append_singleton before last ih =>
      intro after hsplit step hmem hincrBy
      have hinner : steps = before ++ last :: after := by
        rw [hsplit, List.append_assoc, List.singleton_append]
      rcases List.mem_append.mp hmem with hearlier | hlast
      · exact ih _ hinner step hearlier hincrBy
      · rw [List.mem_singleton] at hlast
        subst hlast
        by_contra hlate
        have hlt : step.clock.first < d := not_le.mp hlate
        have hover := over_of_pairwise hclock hinner
        have hlive := live_contents_before hunlimited hentry hclock hspares hinner ?_ hover
        · rw [live_of_not_expired (not_expired_of_lt hlt)] at hlive
          have hnumber : (c.execAll before).1.currentNumber key step.clock.first =
              some number := by
            rw [currentNumber, hlive]
            exact hparse
          obtain ⟨clock, op⟩ := step
          obtain ⟨delta, rfl⟩ := hincrBy
          have hstored := ((c.execAll before).1.exec_incrBy_of_some clock key delta hnumber).1
          have hover' : Over (before ++ [⟨clock, .incrBy key delta⟩]) clock.first := by
            intro other hother
            rcases List.mem_append.mp hother with hearlier | hself
            · exact hover other hearlier
            · rw [List.mem_singleton] at hself
              rw [hself]
          have hstays := hkeeps.stays _ after clock.first hsplit hover' hlt
          rw [execAll_append] at hstays
          simp only [execAll, hstored, Option.map_some, Option.some.injEq] at hstays
          exact hd hstays.symm
        · intro other hearlier hother
          have hle := ih _ hinner other hearlier hother
          exact absurd (lt_of_le_of_lt (hover other hearlier) hlt) (not_lt.mpr hle)

end Run

/-- A run without a write to the key keeps the deadline of the key exactly if no
`IncrBy` adds to it before the deadline. -/
theorem deadline_kept_iff (shards : ℤ) (policy : Eviction.Kind) (hash : Key → ℕ)
    (rng : ℕ → ℕ → ℕ) (past steps : List (Step (Config.layout ⟨shards, 0, 0, policy⟩ hash)))
    (key : Key) (value : Bytes) (d : ℤ) (hd : d ≠ 0)
    (hentry : ((Cache.unlimited shards policy hash rng).execAll past).1.contents key =
      some ⟨value, d⟩)
    (hclock : (steps.map fun step => step.clock.first).Pairwise (· ≤ ·))
    (hspares : ∀ step ∈ steps, step.op.Spares key) :
    ((Cache.unlimited shards policy hash rng).execAll past).1.KeepsDeadline key d steps ↔
      ∀ step ∈ steps, step.op.IsIncrBy key → step.clock.first < d → parseInt value = none := by
  have hunlimited := (unlimited_unlimited shards policy hash rng).execAll past
  have hplaced : (Cache.unlimited shards policy hash rng).Placed := placed_new _ hash rng
  constructor
  · intro hkeeps step hmem hincrBy hlt
    cases hparse : parseInt value with
    | none => rfl
    | some number =>
        have hle := no_early_incrBy hunlimited hentry hd hclock hspares hkeeps hparse steps []
          (List.append_nil steps).symm step hmem hincrBy
        exact absurd hlt (not_lt.mpr hle)
  · intro hrefused
    exact keepsDeadline_of_refused hunlimited (hplaced.execAll past) hentry hd hclock hspares
      hrefused

/-- A counter with a deadline of eleven that is counted at two is there at a hundred. -/
theorem counter_outlives_deadline :
    let c := ((Cache.unlimited 1 .lru (fun _ => 0) fun _ _ => 0).execAll
      [⟨⟨1, 1⟩, .setTTL [107] [53] 10⟩]).1
    let counted := (c.execAll [⟨⟨2, 2⟩, .incrBy [107] 1⟩]).1
    c.contents [107] = some ⟨[53], 11⟩ ∧ counted.contents [107] = some ⟨[54], 0⟩ ∧
      (counted.exec ⟨⟨100, 100⟩, .get [107]⟩).2.2 = .value (some [54]) := by
  decide +kernel

/-- A value that is no number is kept by `IncrBy` with its deadline. -/
theorem deadline_kept_iff_text :
    let past : List (Step (Config.layout ⟨1, 0, 0, .lru⟩ fun _ => 0)) :=
      [⟨⟨1, 1⟩, .setTTL [107] [118] 10⟩]
    ((Cache.unlimited 1 .lru (fun _ => 0) fun _ _ => 0).execAll past).1.KeepsDeadline [107] 11
      [⟨⟨2, 2⟩, .incrBy [107] 1⟩, ⟨⟨3, 3⟩, .get [107]⟩, ⟨⟨12, 12⟩, .incrBy [107] 4⟩] := by
  intro past
  have hentry : ((Cache.unlimited 1 .lru (fun _ => 0) fun _ _ => 0).execAll past).1.contents
      [107] = some ⟨[118], 11⟩ := by
    decide +kernel
  have hspares : ∀ step ∈ ([⟨⟨2, 2⟩, .incrBy [107] 1⟩, ⟨⟨3, 3⟩, .get [107]⟩,
      ⟨⟨12, 12⟩, .incrBy [107] 4⟩] : List (Step (Config.layout ⟨1, 0, 0, .lru⟩ fun _ => 0))),
      step.op.Spares [107] := by
    simp [KeyOp.Spares]
  have hiff := deadline_kept_iff 1 .lru (fun _ => 0) (fun _ _ => 0) past
    [⟨⟨2, 2⟩, .incrBy [107] 1⟩, ⟨⟨3, 3⟩, .get [107]⟩, ⟨⟨12, 12⟩, .incrBy [107] 4⟩] [107] [118] 11
    (by decide) hentry (by decide) hspares
  exact hiff.mpr fun _ _ _ _ => by decide

end Cache
end DistCache
