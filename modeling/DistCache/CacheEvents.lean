import DistCache.CacheEngine

/-!
# The event stream determines the cache

A cache keeps every key in the shard that its hash selects, so that the events of a step
on one shard explain the change of the whole cache.  `FlushAll` is the exception: each of
its steps clears one shard but emits an event that clears them all, and only the complete
sequence is explained.  A cache without limits does with an event what the event says.
-/

namespace DistCache

open DeadlineStore Eviction

variable {L : Layout}

namespace Cache

def Placed (c : Cache L) : Prop :=
  ∀ i, (c.shards i).Holds fun key => L.index key = i

theorem placed_new (cfg : Config) (hash : Key → ℕ) (rng : ℕ → ℕ → ℕ) :
    (Cache.new cfg hash rng).Placed := by
  intro i key hkey
  exact absurd (AList.lookup_empty key) hkey

theorem contents_new (cfg : Config) (hash : Key → ℕ) (rng : ℕ → ℕ → ℕ) :
    (Cache.new cfg hash rng).contents = fun _ => none := rfl

theorem Placed.update {c : Cache L} (hplaced : c.Placed)
    {i : Fin L.shards} {s : Shard} (counters : Counters)
    (hs : s.Holds fun key => L.index key = i) :
    (⟨Function.update c.shards i s, counters⟩ : Cache L).Placed := by
  intro j
  by_cases hj : j = i
  · subst j
    simpa using hs
  · have hother := hplaced j
    simpa [Function.update_of_ne hj] using hother

end Cache

/-! ## Steps -/

theorem Outcome.Explained.relabel {α β : Type} {s : Shard} {P : Key → Prop}
    {o : Outcome α} (hexplained : o.Explained s P) (result : β) :
    (⟨o.shard, o.events, result⟩ : Outcome β).Explained s P :=
  ⟨hexplained.view_eq, hexplained.touches⟩

def KeyOp.IsFlush : KeyOp L → Prop
  | .flush _ => True
  | _ => False

instance (op : KeyOp L) : Decidable op.IsFlush :=
  match op with
  | .flush _ => inferInstanceAs (Decidable True)
  | .setTTL _ _ _ => inferInstanceAs (Decidable False)
  | .get _ => inferInstanceAs (Decidable False)
  | .delete _ => inferInstanceAs (Decidable False)
  | .exists_ _ => inferInstanceAs (Decidable False)
  | .expire _ _ => inferInstanceAs (Decidable False)
  | .ttl _ => inferInstanceAs (Decidable False)
  | .incrBy _ _ => inferInstanceAs (Decidable False)
  | .sweepExpired _ _ _ => inferInstanceAs (Decidable False)
  | .keys _ => inferInstanceAs (Decidable False)
  | .len _ => inferInstanceAs (Decidable False)

theorem KeyOp.explained_run (clock : Clock) {op : KeyOp L} {s : Shard}
    (hop : ¬ op.IsFlush)
    (hholds : s.Holds fun key => L.index key = op.shard) :
    (op.run clock s).Explained s fun key => L.index key = op.shard := by
  let Q : Key → Key → Prop := fun key other => L.index other = L.index key
  have hself : ∀ key, Q key key := fun _ => rfl
  cases op with
  | setTTL key value lifetime =>
      exact (Shard.explained_set hholds (hself key)).relabel _
  | get key => exact (Shard.explained_get (P := Q key) (hself key)).relabel _
  | delete key => exact (Shard.explained_del (P := Q key) (hself key)).relabel _
  | exists_ key =>
      exact (Shard.explained_exists (P := Q key) (hself key)).relabel _
  | expire key lifetime =>
      exact (Shard.explained_expire (P := Q key) (hself key)).relabel _
  | ttl key => exact (Shard.explained_ttl (P := Q key) (hself key)).relabel _
  | incrBy key delta =>
      have hincr : (s.incrBy key delta clock.first).Explained s (Q key) :=
        Shard.explained_incrBy hholds (hself key)
      simp only [KeyOp.run]
      cases hresult : (s.incrBy key delta clock.first).result with
      | error err => exact hincr.relabel _
      | ok result => exact hincr.relabel _
  | sweepExpired shard sample order =>
      exact (Shard.explained_sweepExpired hholds).relabel _
  | keys shard => exact explained_silent rfl
  | len shard => exact explained_silent rfl
  | flush shard => exact absurd trivial hop

theorem KeyOp.timely_run {clock : Clock} {op : KeyOp L} {s : Shard} {now : ℤ}
    (hclock : clock.second = now) :
    TimelyLog now (mutations (op.run clock s).events) s.view := by
  have hquiet : ∀ events : List Event,
      (∀ key expireAt, Mutation.expire key expireAt ∉ mutations events) →
      TimelyLog now (mutations events) s.view :=
    fun events hevents => timelyLog_of_no_expire hevents s.view
  have hread : ∀ {α : Type} {key : Key} {time : ℤ} {absent gone : α}
      {found : Item → Outcome α}, (∀ it, (found it).events = []) →
      ∀ entry expireAt, Mutation.expire entry expireAt ∉
        mutations (s.lookupLive key time absent gone found).events := by
    intro α key time absent gone found hfound entry expireAt
    apply Shard.lookupLive_rule (P := fun o : Outcome α =>
      Mutation.expire entry expireAt ∉ mutations o.events)
    · simp
    · simp
    · simp [hfound]
  cases op with
  | setTTL key value lifetime =>
      apply hquiet
      simp [KeyOp.run, Shard.set]
  | get key =>
      apply hquiet
      simp only [KeyOp.run, Shard.get]
      exact hread fun _ => rfl
  | delete key =>
      apply hquiet
      simp only [KeyOp.run, Shard.del]
      cases s.items.lookup key <;> simp
  | exists_ key =>
      apply hquiet
      simp only [KeyOp.run, Shard.exists_]
      exact hread fun _ => rfl
  | expire key lifetime =>
      simp only [KeyOp.run, Shard.expire, Shard.lookupLive]
      cases hlookup : s.items.lookup key with
      | none => trivial
      | some it =>
          by_cases hexpired : it.expired clock.second
          · simp only [if_pos hexpired]
            exact ⟨trivial, trivial⟩
          · simp only [if_neg hexpired]
            refine ⟨?_, trivial⟩
            intro hdead
            rw [live_eq_none_iff] at hdead
            exact hexpired (hclock ▸ hdead it hlookup)
  | ttl key =>
      apply hquiet
      simp only [KeyOp.run, Shard.ttl]
      exact hread fun _ => rfl
  | incrBy key delta =>
      apply hquiet
      simp only [KeyOp.run, Shard.incrBy]
      cases s.counterBase key clock.first <;> simp [Shard.set]
  | sweepExpired shard sample order =>
      apply hquiet
      simp [KeyOp.run, Shard.sweepExpired]
  | keys shard => trivial
  | len shard => trivial
  | flush shard => exact ⟨trivial, trivial⟩

theorem Operation.steps_not_flush (op : Operation L) (hop : op ≠ .flushAll) :
    ∀ step ∈ op.steps, ¬ step.op.IsFlush := by
  intro step hstep
  cases op with
  | flushAll => exact absurd rfl hop
  | mset pairs =>
      obtain ⟨pair, _, rfl⟩ := List.mem_map.mp hstep
      exact id
  | mget keys =>
      obtain ⟨key, _, rfl⟩ := List.mem_map.mp hstep
      exact id
  | set key value => cases List.mem_singleton.mp hstep; exact id
  | setTTL clock key value lifetime => cases List.mem_singleton.mp hstep; exact id
  | get clock key => cases List.mem_singleton.mp hstep; exact id
  | delete key => cases List.mem_singleton.mp hstep; exact id
  | exists_ clock key => cases List.mem_singleton.mp hstep; exact id
  | expire clock key lifetime => cases List.mem_singleton.mp hstep; exact id
  | ttl clock key => cases List.mem_singleton.mp hstep; exact id
  | incrBy clock key delta => cases List.mem_singleton.mp hstep; exact id
  | sweepExpired clock shard sample order =>
      cases List.mem_singleton.mp hstep
      exact id

namespace Cache

theorem contents_exec {c : Cache L} (hplaced : c.Placed) {step : Step L}
    (hop : ¬ step.op.IsFlush) :
    (c.exec step).1.contents =
      replay (mutations (c.exec step).2.1) c.contents := by
  have hexplained :=
    KeyOp.explained_run step.clock hop (hplaced step.op.shard)
  funext key
  by_cases hshard : L.index key = step.op.shard
  · have hview : c.contents key = (c.shards step.op.shard).view key := by
      rw [contents, hshard]
    rw [replay_congr_key _ hview]
    have hnew : (c.exec step).1.contents key =
        (step.op.run step.clock (c.shards step.op.shard)).shard.view key := by
      simp [contents, exec, hshard]
    rw [hnew, hexplained.view_eq]
    rfl
  · rw [replay_of_not_touches]
    · simp [contents, exec, Function.update_of_ne hshard]
    · intro mutation hmem htouch
      exact hshard (hexplained.touches mutation hmem key htouch)

theorem timely_exec {c : Cache L} (hplaced : c.Placed) {step : Step L}
    (hop : ¬ step.op.IsFlush) :
    TimelyLog step.clock.second (mutations (c.exec step).2.1) c.contents := by
  have hexplained :=
    KeyOp.explained_run step.clock hop (hplaced step.op.shard)
  have htimely : TimelyLog step.clock.second
      (mutations (step.op.run step.clock (c.shards step.op.shard)).events)
      (c.shards step.op.shard).view := KeyOp.timely_run rfl
  apply htimely.congr
  intro mutation hmem key htouch
  rw [contents, hexplained.touches mutation hmem key htouch]

theorem placed_exec {c : Cache L} (hplaced : c.Placed) (step : Step L) :
    (c.exec step).1.Placed := by
  apply hplaced.update
  by_cases hop : step.op.IsFlush
  · cases hcase : step.op with
    | flush shard =>
        intro key hkey
        exact absurd (congrFun (Shard.view_flushSilent _) key) hkey
    | setTTL key value lifetime => simp [hcase, KeyOp.IsFlush] at hop
    | get key => simp [hcase, KeyOp.IsFlush] at hop
    | delete key => simp [hcase, KeyOp.IsFlush] at hop
    | exists_ key => simp [hcase, KeyOp.IsFlush] at hop
    | expire key lifetime => simp [hcase, KeyOp.IsFlush] at hop
    | ttl key => simp [hcase, KeyOp.IsFlush] at hop
    | incrBy key delta => simp [hcase, KeyOp.IsFlush] at hop
    | sweepExpired shard sample order => simp [hcase, KeyOp.IsFlush] at hop
    | keys shard => simp [hcase, KeyOp.IsFlush] at hop
    | len shard => simp [hcase, KeyOp.IsFlush] at hop
  · exact (KeyOp.explained_run step.clock hop (hplaced _)).holds (hplaced _)

theorem contents_exec_flush (c : Cache L) (clock : Clock) (i : Fin L.shards)
    (key : Key) :
    (c.exec ⟨clock, .flush i⟩).1.contents key =
      if L.index key = i then none else c.contents key := by
  by_cases hshard : L.index key = i
  · rw [if_pos hshard]
    simp [contents, exec, KeyOp.shard, KeyOp.run, Shard.flush, hshard]
  · simp [contents, exec, KeyOp.shard, hshard]

/-! ## Completed operations -/

theorem execAll_append (c : Cache L) (first second : List (Step L)) :
    c.execAll (first ++ second) =
      (((c.execAll first).1.execAll second).1,
        (c.execAll first).2 ++ ((c.execAll first).1.execAll second).2) := by
  induction first generalizing c with
  | nil => rfl
  | cons step rest ih =>
      simp only [List.cons_append, execAll, ih, List.append_assoc]

theorem execAll_explained {c : Cache L} (hplaced : c.Placed)
    {steps : List (Step L)} (hsteps : ∀ step ∈ steps, ¬ step.op.IsFlush) :
    (c.execAll steps).1.contents =
        replay (mutations (c.execAll steps).2) c.contents ∧
      (c.execAll steps).1.Placed := by
  induction steps generalizing c with
  | nil => exact ⟨rfl, hplaced⟩
  | cons step rest ih =>
      have hhead := contents_exec hplaced (hsteps step (by simp))
      obtain ⟨hcontents, hrest⟩ :=
        ih (placed_exec hplaced step) fun other hmem =>
          hsteps other (List.mem_cons_of_mem _ hmem)
      refine ⟨?_, hrest⟩
      simp only [execAll, mutations_append, replay_append]
      rw [hcontents, hhead]

theorem execAll_flushes {c : Cache L} (hplaced : c.Placed)
    (shards : List (Fin L.shards)) :
    let r := c.execAll (shards.map fun i => ⟨unread, .flush i⟩)
    r.2 = shards.map (fun _ => Event.flush) ∧ r.1.Placed ∧
      ∀ key, r.1.contents key =
        if L.index key ∈ shards then none else c.contents key := by
  induction shards generalizing c with
  | nil => exact ⟨rfl, hplaced, fun key => by simp [execAll]⟩
  | cons i rest ih =>
      obtain ⟨hevents, hrest, hcontents⟩ :=
        ih (placed_exec hplaced ⟨unread, .flush i⟩)
      refine ⟨?_, hrest, ?_⟩
      · simp only [List.map_cons, execAll, hevents]
        rfl
      · intro key
        have hkey := hcontents key
        rw [contents_exec_flush] at hkey
        simp only [List.map_cons, execAll, List.mem_cons]
        rw [hkey]
        by_cases hhead : L.index key = i <;> simp [hhead]

theorem replay_flushes {n : ℕ} (hpos : 0 < n) (store : Contents) :
    replay (mutations (List.replicate n Event.flush)) store = fun _ => none := by
  obtain ⟨m, rfl⟩ : ∃ m, n = m + 1 := ⟨n - 1, by omega⟩
  have hflush : mutations (List.replicate (m + 1) Event.flush) =
      mutations (List.replicate m Event.flush) ++ [.flush] := by
    rw [List.replicate_succ', mutations_append]
    rfl
  rw [hflush, replay_snoc]
  rfl

theorem perform_explained_one {c : Cache L} (hplaced : c.Placed)
    (op : Operation L) :
    (c.execAll op.steps).1.contents =
        replay (mutations (c.execAll op.steps).2) c.contents ∧
      (c.execAll op.steps).1.Placed := by
  by_cases hop : op = .flushAll
  · subst op
    obtain ⟨hevents, hrest, hcontents⟩ :=
      execAll_flushes hplaced (List.finRange L.shards)
    refine ⟨?_, hrest⟩
    have hlog : (c.execAll (flushSteps L)).2 =
        List.replicate L.shards Event.flush := by
      simpa [flushSteps, List.map_const'] using hevents
    simp only [Operation.steps]
    rw [hlog, replay_flushes L.pos]
    funext key
    simpa [flushSteps] using hcontents key
  · exact execAll_explained hplaced (op.steps_not_flush hop)

theorem perform_explained {c : Cache L} (hplaced : c.Placed)
    (ops : List (Operation L)) :
    (c.perform ops).1.contents =
        replay (mutations (c.perform ops).2) c.contents ∧
      (c.perform ops).1.Placed := by
  induction ops generalizing c with
  | nil => exact ⟨rfl, hplaced⟩
  | cons op rest ih =>
      obtain ⟨hhead, hmiddle⟩ := perform_explained_one hplaced op
      obtain ⟨hcontents, hrest⟩ := ih hmiddle
      unfold perform at hcontents hrest ⊢
      rw [List.flatMap_cons, execAll_append]
      refine ⟨?_, hrest⟩
      simp only [mutations_append, replay_append]
      rw [hcontents, hhead]

/-! ## A cache without limits applies events as they say -/

def Unlimited (c : Cache L) : Prop :=
  ∀ i, (c.shards i).maxEntries ≤ 0 ∧ (c.shards i).maxMemory ≤ 0

end Cache

theorem Shard.not_over_of_unlimited {s : Shard}
    (hentries : s.maxEntries ≤ 0) (hmemory : s.maxMemory ≤ 0) :
    ¬ s.OverCapacity := by
  unfold Shard.OverCapacity
  omega

@[simp] theorem Shard.setLocked_limits
    (s : Shard) (key : Key) (value : Bytes) (expireAt : ℤ) :
    (s.setLocked key value expireAt).maxEntries = s.maxEntries ∧
      (s.setLocked key value expireAt).maxMemory = s.maxMemory := by
  unfold Shard.setLocked
  cases s.items.lookup key <;> simp

theorem Shard.applySet_of_unlimited {s : Shard}
    (hentries : s.maxEntries ≤ 0) (hmemory : s.maxMemory ≤ 0)
    (key : Key) (value : Bytes) (expireAt : ℤ) :
    s.applySet key value expireAt = s.setLocked key value expireAt := by
  have hover : ¬ (s.setLocked key value expireAt).OverCapacity := by
    apply Shard.not_over_of_unlimited
    · rw [(s.setLocked_limits key value expireAt).1]
      exact hentries
    · rw [(s.setLocked_limits key value expireAt).2]
      exact hmemory
  rw [Shard.applySet, Shard.enforceLimitsLocked_of_not_over hover]

theorem Shard.view_applyDel (s : Shard) (key : Key) :
    (s.applyDel key).view = (Mutation.del key).apply s.view := by
  unfold Shard.applyDel
  cases hlookup : s.items.lookup key with
  | none =>
      funext other
      by_cases hkey : key = other
      · subst other
        simp [Mutation.apply, Mutation.effect, Shard.view, hlookup]
      · simp [Mutation.apply, Mutation.effect, hkey]
  | some it => exact s.view_removeLocked key it

theorem Shard.view_applyExpire (s : Shard) (key : Key) (expireAt : ℤ) :
    (s.applyExpire key expireAt).view =
      (Mutation.expire key expireAt).apply s.view := by
  unfold Shard.applyExpire
  cases hlookup : s.items.lookup key with
  | none =>
      funext other
      by_cases hkey : key = other
      · subst other
        simp [Mutation.apply, Mutation.effect, Shard.view, hlookup]
      · simp [Mutation.apply, Mutation.effect, hkey]
  | some it => exact s.view_retime expireAt hlookup

namespace Cache

theorem contents_modifyShard (c : Cache L) (key : Key) (f : Shard → Shard)
    {m : Mutation Key Bytes ℤ}
    (hview : (f (c.shards (L.index key))).view =
      m.apply (c.shards (L.index key)).view)
    (htouch : ∀ other, m.Touches other → other = key) :
    (c.modifyShard (L.index key) f).contents = m.apply c.contents := by
  funext other
  by_cases hshard : L.index other = L.index key
  · have hnew : (c.modifyShard (L.index key) f).contents other =
        (f (c.shards (L.index key))).view other := by
      simp [contents, modifyShard, hshard]
    rw [hnew, hview]
    simp only [Mutation.apply, contents, hshard]
  · have hother : ¬ m.Touches other := by
      intro htouches
      exact hshard (congrArg L.index (htouch other htouches))
    rw [m.apply_of_not_touches _ hother]
    simp [contents, modifyShard, Function.update_of_ne hshard]

theorem contents_applyEvent {c : Cache L} (hunlimited : c.Unlimited)
    (ev : Event) :
    (c.applyEvent ev).contents = replay (mutations [ev]) c.contents := by
  obtain ⟨seq, op, key, value, expireAt⟩ := ev
  cases op with
  | opSet =>
      obtain ⟨hentries, hmemory⟩ := hunlimited (L.index key)
      have hview : ((c.shards (L.index key)).applySet key value expireAt).view =
          (Mutation.set key ⟨value, expireAt⟩).apply (c.shards (L.index key)).view := by
        rw [Shard.applySet_of_unlimited hentries hmemory, Shard.view_setLocked]
      apply contents_modifyShard c key
        (fun s => s.applySet key value expireAt) hview
      intro other htouch
      exact Eq.symm htouch
  | opDel =>
      apply contents_modifyShard c key (fun s => s.applyDel key)
        (Shard.view_applyDel _ key)
      intro other htouch
      exact Eq.symm htouch
  | opExpire =>
      apply contents_modifyShard c key (fun s => s.applyExpire key expireAt)
        (Shard.view_applyExpire _ key expireAt)
      intro other htouch
      exact Eq.symm htouch
  | opFlush =>
      funext other
      exact congrFun (Shard.view_flushSilent _) other
  | other code => rfl

theorem Unlimited.modifyShard {c : Cache L} (hunlimited : c.Unlimited)
    {i : Fin L.shards} {f : Shard → Shard}
    (hentries : (f (c.shards i)).maxEntries = (c.shards i).maxEntries)
    (hmemory : (f (c.shards i)).maxMemory = (c.shards i).maxMemory) :
    (c.modifyShard i f).Unlimited := by
  intro j
  by_cases hj : j = i
  · subst j
    simpa [Cache.modifyShard, hentries, hmemory] using hunlimited i
  · simpa [Cache.modifyShard, Function.update_of_ne hj] using hunlimited j

theorem Unlimited.applyEvent {c : Cache L} (hunlimited : c.Unlimited)
    (ev : Event) : (c.applyEvent ev).Unlimited := by
  obtain ⟨seq, op, key, value, expireAt⟩ := ev
  cases op with
  | opSet =>
      obtain ⟨hentries, hmemory⟩ := hunlimited (L.index key)
      simp only [Cache.applyEvent]
      apply hunlimited.modifyShard
      · rw [Shard.applySet_of_unlimited hentries hmemory]
        exact (Shard.setLocked_limits _ key value expireAt).1
      · rw [Shard.applySet_of_unlimited hentries hmemory]
        exact (Shard.setLocked_limits _ key value expireAt).2
  | opDel =>
      simp only [Cache.applyEvent]
      apply hunlimited.modifyShard
      · unfold Shard.applyDel
        split <;> rfl
      · unfold Shard.applyDel
        split <;> rfl
  | opExpire =>
      simp only [Cache.applyEvent]
      apply hunlimited.modifyShard
      · unfold Shard.applyExpire
        split <;> rfl
      · unfold Shard.applyExpire
        split <;> rfl
  | opFlush => exact fun i => hunlimited i
  | other code => exact hunlimited

theorem Unlimited.applyEvents {c : Cache L} (hunlimited : c.Unlimited)
    (events : List Event) : (c.applyEvents events).Unlimited := by
  induction events generalizing c with
  | nil => exact hunlimited
  | cons ev rest ih => exact ih (hunlimited.applyEvent ev)

theorem Placed.applyEvent {c : Cache L} (hplaced : c.Placed) (ev : Event) :
    (c.applyEvent ev).Placed := by
  obtain ⟨seq, op, key, value, expireAt⟩ := ev
  have hholds := hplaced (L.index key)
  cases op with
  | opSet =>
      apply hplaced.update
      have hset : ((c.shards (L.index key)).set key value expireAt).Explained _
          fun other => L.index other = L.index key := Shard.explained_set hholds rfl
      exact hset.holds hholds
  | opDel =>
      apply hplaced.update
      intro other hother
      rw [Shard.view_applyDel] at hother
      apply hholds
      by_cases heq : key = other <;>
        simp_all [Mutation.apply, Mutation.effect]
  | opExpire =>
      apply hplaced.update
      intro other hother
      rw [Shard.view_applyExpire] at hother
      apply hholds
      by_cases heq : key = other <;>
        simp_all [Mutation.apply, Mutation.effect]
  | opFlush =>
      intro i other hother
      exact absurd (congrFun (Shard.view_flushSilent _) other) hother
  | other code => exact hplaced

theorem Placed.applyEvents {c : Cache L} (hplaced : c.Placed) (events : List Event) :
    (c.applyEvents events).Placed := by
  induction events generalizing c with
  | nil => exact hplaced
  | cons ev rest ih => exact ih (hplaced.applyEvent ev)

theorem contents_applyEvents {c : Cache L} (hunlimited : c.Unlimited)
    (events : List Event) :
    (c.applyEvents events).contents = replay (mutations events) c.contents := by
  induction events generalizing c with
  | nil => rfl
  | cons ev rest ih =>
      have hhead := contents_applyEvent hunlimited ev
      have htail := ih (hunlimited.applyEvent ev)
      have hsplit : mutations (ev :: rest) = mutations [ev] ++ mutations rest :=
        mutations_append [ev] rest
      rw [hsplit, replay_append, ← hhead]
      exact htail

def unlimited (shards : ℤ) (policy : Kind) (hash : Key → ℕ) (rng : ℕ → ℕ → ℕ) :
    Cache (Config.layout ⟨shards, 0, 0, policy⟩ hash) :=
  Cache.new ⟨shards, 0, 0, policy⟩ hash rng

theorem unlimited_unlimited
    (shards : ℤ) (policy : Kind) (hash : Key → ℕ) (rng : ℕ → ℕ → ℕ) :
    (unlimited shards policy hash rng).Unlimited := by
  intro i
  simp [unlimited, Cache.new, Shard.new, perShard]

theorem contents_unlimited_applyEvents
    (shards : ℤ) (policy : Kind) (hash : Key → ℕ) (rng : ℕ → ℕ → ℕ)
    (events : List Event) :
    ((unlimited shards policy hash rng).applyEvents events).contents =
      replay (mutations events) fun _ => none := by
  rw [contents_applyEvents (unlimited_unlimited shards policy hash rng)]
  rfl

/-- Events that are applied over a cache which has some of them already, for each
key those up to a point of its own, leave what they leave when they are all
applied once; and so they do when all of them are there. -/
theorem applyEvents_over_part {R : Layout} {source : Cache L} {copy : Cache R}
    (hsource : source.Unlimited) (hcopy : copy.Unlimited) {events : List Event}
    (hpart : ∀ key, ∃ before, before <+: events ∧
      copy.contents key = (source.applyEvents before).contents key) :
    (copy.applyEvents events).contents = (source.applyEvents events).contents ∧
      ((source.applyEvents events).applyEvents events).contents =
        (source.applyEvents events).contents := by
  constructor
  · rw [contents_applyEvents hcopy, contents_applyEvents hsource]
    funext key
    obtain ⟨before, hbefore, hkey⟩ := hpart key
    rw [contents_applyEvents hsource] at hkey
    exact replay_over_part (hbefore.filterMap _) hkey
  · rw [contents_applyEvents (hsource.applyEvents events), contents_applyEvents hsource]
    funext key
    exact replay_over_part List.prefix_rfl rfl

theorem applyEvents_over_part_twoKeys :
    (((unlimited 4 .lru List.length fun _ _ => 0).applyEvents [.set [98] [2] 0]).applyEvents
        [.set [97] [1] 0, .set [98] [2] 0, .expire [98] 7]).contents =
      ((unlimited 1 .lfu List.length fun _ _ => 0).applyEvents
        [.set [97] [1] 0, .set [98] [2] 0, .expire [98] 7]).contents := by
  refine (applyEvents_over_part (unlimited_unlimited 1 .lfu _ _)
    ((unlimited_unlimited 4 .lru _ _).applyEvents [.set [98] [2] 0]) ?_).1
  intro key
  by_cases hkey : key = [98]
  · refine ⟨[.set [97] [1] 0, .set [98] [2] 0], ⟨[.expire [98] 7], rfl⟩, ?_⟩
    rw [contents_unlimited_applyEvents, contents_unlimited_applyEvents, hkey]
    rfl
  · refine ⟨[], List.nil_prefix, ?_⟩
    rw [contents_unlimited_applyEvents, contents_unlimited_applyEvents]
    have hother : ¬ [98] = key := fun heq => hkey heq.symm
    simp [mutations, Event.mutation?, Event.set, Mutation.apply, Mutation.effect, hother]

/-- The stream of the events of any sequence of completed operations, applied
to an empty cache without limits, gives exactly the contents of the cache that
emitted it, whatever its limits and its policy are. -/
theorem contents_applyEvents_perform
    (cfg : Config) (hash : Key → ℕ) (rng : ℕ → ℕ → ℕ)
    (ops : List (Operation (cfg.layout hash)))
    (shards : ℤ) (policy : Kind) (hash' : Key → ℕ) (rng' : ℕ → ℕ → ℕ) :
    ((unlimited shards policy hash' rng').applyEvents
        ((Cache.new cfg hash rng).perform ops).2).contents =
      ((Cache.new cfg hash rng).perform ops).1.contents := by
  have hexplained := (perform_explained (placed_new cfg hash rng) ops).1
  rw [contents_unlimited_applyEvents, hexplained, contents_new]

end Cache

end DistCache
