import DistCache.CacheShard

/-!
# The events of a shard operation say what it did

For every operation of a shard, replaying the emitted events over the entries
before the operation gives exactly the entries after it, expired entries
included.  The events name only the key of the operation and keys that the
shard holds, and a deadline is changed only while its entry is live.
-/

namespace DistCache

open DeadlineStore Eviction

namespace Shard

/-! ## Entries after the primitive updates -/

theorem view_erase (s : Shard) (key : Key) :
    (fun other => (s.items.erase key).lookup other) =
      (Mutation.del key).apply s.view := by
  funext other
  by_cases hkey : key = other
  · subst other
    simp [Mutation.apply, Mutation.effect]
  · simp [Mutation.apply, Mutation.effect, hkey, view,
      AList.lookup_erase_ne (Ne.symm hkey)]

theorem view_insert (s : Shard) (key : Key) (it : Item) :
    (fun other => (s.items.insert key it).lookup other) =
      (Mutation.set key it).apply s.view := by
  funext other
  by_cases hkey : key = other
  · subst other
    simp [Mutation.apply, Mutation.effect]
  · simp [Mutation.apply, Mutation.effect, hkey, view,
      AList.lookup_insert_ne (Ne.symm hkey)]

@[simp] theorem view_removeLocked (s : Shard) (key : Key) (it : Item) :
    (s.removeLocked key it).view = (Mutation.del key).apply s.view :=
  s.view_erase key

@[simp] theorem view_dropVictim (s : Shard) (victim : Key) (it : Item) :
    (s.dropVictim victim it).view = (Mutation.del victim).apply s.view :=
  s.view_erase victim

@[simp] theorem view_setLocked
    (s : Shard) (key : Key) (value : Bytes) (expireAt : ℤ) :
    (s.setLocked key value expireAt).view =
      (Mutation.set key ⟨value, expireAt⟩).apply s.view := by
  have hinsert := s.view_insert key ⟨value, expireAt⟩
  unfold setLocked
  cases hlookup : s.items.lookup key with
  | none => exact hinsert
  | some old => exact hinsert

@[simp] theorem view_retime
    (s : Shard) {key : Key} {it : Item} (expireAt : ℤ)
    (hlookup : s.items.lookup key = some it) :
    (s.retime key it expireAt).view =
      (Mutation.expire key expireAt).apply s.view := by
  have hinsert := s.view_insert key (it.retime expireAt)
  have hview : (s.retime key it expireAt).view =
      (Mutation.set key (it.retime expireAt)).apply s.view := hinsert
  rw [hview]
  funext other
  by_cases hkey : key = other
  · subst other
    simp [Mutation.apply, Mutation.effect, view, hlookup]
  · simp [Mutation.apply, Mutation.effect, hkey]

@[simp] theorem view_flushSilent (s : Shard) :
    s.flushSilent.view = fun _ => none := by
  funext key
  exact AList.lookup_empty key

@[simp] theorem view_policy (s : Shard) (policy : Policy) :
    ({ s with policy := policy } : Shard).view = s.view := rfl

/-! ## The eviction loop -/

theorem enforceTurn_congr {protectedKey : Key}
    {first second : Shard → Shard × List Key} {s : Shard}
    (hagree : ∀ next victim, s.policy.evict.1 = some victim →
      next.policy = s.policy.evict.2 → first next = second next) :
    enforceTurn protectedKey first s = enforceTurn protectedKey second s := by
  unfold enforceTurn
  cases hevict : s.policy.evict.1 with
  | none => rfl
  | some victim =>
      have hkeep : first { s with policy := s.policy.evict.2 } =
          second { s with policy := s.policy.evict.2 } :=
        hagree _ victim hevict rfl
      have hdrop : ∀ it,
          first (({ s with policy := s.policy.evict.2 } : Shard).dropVictim victim it) =
          second (({ s with policy := s.policy.evict.2 } : Shard).dropVictim victim it) :=
        fun it => hagree _ victim hevict rfl
      simp only [hkeep, hdrop]

theorem enforceLoop_eq_of_supply_lt (protectedKey : Key)
    {first second : ℕ} {s : Shard}
    (hfirst : s.policy.supply < first) (hsecond : s.policy.supply < second) :
    enforceLoop protectedKey first s = enforceLoop protectedKey second s := by
  induction first generalizing second s with
  | zero => omega
  | succ first ih =>
      cases second with
      | zero => omega
      | succ second =>
          apply enforceTurn_congr
          intro next victim hevict hpolicy
          have hless := Policy.supply_evict hevict
          rw [← hpolicy] at hless
          exact ih (by omega) (by omega)

/-- The loop of the source, one turn at a time and without a bound. -/
theorem enforceLimitsLocked_eq (s : Shard) (protectedKey : Key) :
    s.enforceLimitsLocked protectedKey =
      enforceTurn protectedKey
        (fun next => next.enforceLimitsLocked protectedKey) s := by
  apply enforceTurn_congr
  intro next victim hevict hpolicy
  have hless := Policy.supply_evict hevict
  rw [← hpolicy] at hless
  exact enforceLoop_eq_of_supply_lt protectedKey hless (Nat.lt_succ_self _)

theorem enforceLimitsLocked_of_not_over {s : Shard} {protectedKey : Key}
    (hover : ¬ s.OverCapacity) : s.enforceLimitsLocked protectedKey = (s, []) := by
  rw [enforceLimitsLocked_eq, enforceTurn, if_neg hover]

theorem enforceLimitsLocked_of_spare {s : Shard} {protectedKey : Key} (hover : s.OverCapacity)
    (hevict : s.policy.evict.1 = some protectedKey) :
    s.enforceLimitsLocked protectedKey =
      ({ s with policy := s.policy.evict.2.add protectedKey }, []) := by
  rw [enforceLimitsLocked_eq, enforceTurn, if_pos hover]
  simp only [hevict, if_true]

theorem enforceLimitsLocked_of_drop {s : Shard} {protectedKey victim : Key} {it : Item}
    (hover : s.OverCapacity) (hevict : s.policy.evict.1 = some victim)
    (hne : victim ≠ protectedKey) (hlookup : s.items.lookup victim = some it) :
    s.enforceLimitsLocked protectedKey =
      ((({ s with policy := s.policy.evict.2 } : Shard).dropVictim victim it).enforceLimitsLocked
        protectedKey).map id (victim :: ·) := by
  rw [enforceLimitsLocked_eq, enforceTurn, if_pos hover]
  simp only [hevict, if_neg hne, hlookup]
  rfl

theorem enforceLoop_induction {protectedKey : Key}
    {motive : Shard → Shard × List Key → Prop}
    (hstop : ∀ s policy, motive s ({ s with policy := policy }, []))
    (hskip : ∀ s policy r,
      motive { s with policy := policy } r → motive s r)
    (hdrop : ∀ s policy victim it r, victim ≠ protectedKey →
      s.items.lookup victim = some it →
      motive (({ s with policy := policy } : Shard).dropVictim victim it) r →
      motive s (r.1, victim :: r.2))
    (fuel : ℕ) (s : Shard) :
    motive s (enforceLoop protectedKey fuel s) := by
  induction fuel generalizing s with
  | zero => exact hstop s s.policy
  | succ fuel ih =>
      simp only [enforceLoop, enforceTurn]
      by_cases hover : s.OverCapacity
      · rw [if_pos hover]
        cases hevict : s.policy.evict.1 with
        | none => exact hstop s _
        | some victim =>
            simp only
            by_cases hprotected : victim = protectedKey
            · rw [if_pos hprotected]
              exact hstop s _
            · rw [if_neg hprotected]
              cases hlookup : s.items.lookup victim with
              | none => exact hskip s _ _ (ih _)
              | some it =>
                  exact hdrop s _ victim it _ hprotected hlookup (ih _)
      · rw [if_neg hover]
        exact hstop s s.policy

theorem view_enforceLimitsLocked (s : Shard) (protectedKey : Key) :
    (s.enforceLimitsLocked protectedKey).1.view =
      replay ((s.enforceLimitsLocked protectedKey).2.map .del) s.view := by
  unfold enforceLimitsLocked
  apply enforceLoop_induction (motive := fun s r =>
    r.1.view = replay (r.2.map .del) s.view)
  · intro s policy
    rfl
  · intro s policy r ih
    exact ih
  · intro s policy victim it r _ _ ih
    rw [List.map_cons, replay_cons, ih, view_dropVictim]
    rfl

theorem view_enforceLimitsLocked_self (s : Shard) (protectedKey : Key) :
    (s.enforceLimitsLocked protectedKey).1.view protectedKey = s.view protectedKey := by
  unfold enforceLimitsLocked
  apply enforceLoop_induction (motive := fun s r => r.1.view protectedKey = s.view protectedKey)
  · intro s policy
    rfl
  · intro s policy r ih
    exact ih
  · intro s policy victim it r hvictim _ ih
    rw [ih, view_dropVictim]
    simp [Mutation.apply, Mutation.effect, hvictim]

theorem view_set_self (s : Shard) (key : Key) (value : Bytes) (expireAt : ℤ) :
    (s.set key value expireAt).shard.view key = some ⟨value, expireAt⟩ := by
  have hset : (s.set key value expireAt).shard =
      ((s.setLocked key value expireAt).enforceLimitsLocked key).1 := rfl
  rw [hset, view_enforceLimitsLocked_self, view_setLocked]
  simp [Mutation.apply, Mutation.effect]

theorem enforceLimitsLocked_held (s : Shard) (protectedKey : Key) :
    ∀ key ∈ (s.enforceLimitsLocked protectedKey).2, s.view key ≠ none := by
  unfold enforceLimitsLocked
  apply enforceLoop_induction (motive := fun s r =>
    ∀ key ∈ r.2, s.view key ≠ none)
  · intro s policy key hmem
    simp at hmem
  · intro s policy r ih
    exact ih
  · intro s policy victim it r _ hlookup ih key hmem hnone
    rcases List.mem_cons.mp hmem with rfl | hmem
    · rw [view, hlookup] at hnone
      contradiction
    · apply ih key hmem
      rw [view_dropVictim]
      by_cases heq : victim = key
      · simp [Mutation.apply, Mutation.effect, heq]
      · simpa [Mutation.apply, Mutation.effect, heq] using hnone

end Shard

/-! ## Every operation is explained by its events -/

/-- The events of an operation on the shard `s` give the entries after it, and
touch only keys with the property `P`. -/
structure Outcome.Explained {α : Type} (s : Shard) (P : Key → Prop)
    (o : Outcome α) : Prop where
  view_eq : o.shard.view = replay (mutations o.events) s.view
  touches : ∀ mutation ∈ mutations o.events, ∀ key, mutation.Touches key → P key

def Shard.Holds (s : Shard) (P : Key → Prop) : Prop :=
  ∀ key, s.view key ≠ none → P key

section Explained

variable {α : Type} {s : Shard} {P : Key → Prop}

theorem Outcome.Explained.holds {o : Outcome α}
    (hexplained : o.Explained s P) (hholds : s.Holds P) :
    o.shard.Holds P := by
  intro key hkey
  rw [hexplained.view_eq] at hkey
  by_cases htouch : ∃ mutation ∈ mutations o.events, mutation.Touches key
  · obtain ⟨mutation, hmem, htouches⟩ := htouch
    exact hexplained.touches mutation hmem key htouches
  · apply hholds
    rw [replay_of_not_touches] at hkey
    · exact hkey
    · intro mutation hmem htouches
      exact htouch ⟨mutation, hmem, htouches⟩

theorem explained_silent {next : Shard} {result : α}
    (hview : next.view = s.view) :
    (⟨next, [], result⟩ : Outcome α).Explained s P := by
  constructor
  · exact hview
  · intro mutation hmem
    simp at hmem

theorem explained_removeLocked {key : Key} {it : Item} {result : α}
    (hkey : P key) :
    (⟨s.removeLocked key it, [.del key], result⟩ : Outcome α).Explained s P := by
  constructor
  · simp
  · intro mutation hmem other htouch
    simp only [mutations_del_cons, mutations_nil, List.mem_singleton] at hmem
    subst mutation
    cases htouch
    exact hkey

theorem Shard.explained_lookupLive {key : Key} {now : ℤ} {absent gone : α}
    {found : Item → Outcome α} (hkey : P key)
    (hfound : ∀ it, s.items.lookup key = some it → ¬ it.expired now →
      (found it).Explained s P) :
    (s.lookupLive key now absent gone found).Explained s P := by
  apply Shard.lookupLive_rule (P := fun o : Outcome α => o.Explained s P)
  · exact fun _ => explained_silent rfl
  · exact fun _ _ _ => explained_removeLocked hkey
  · exact hfound

theorem Shard.explained_get {key : Key} {now : ℤ} (hkey : P key) :
    (s.get key now).Explained s P :=
  s.explained_lookupLive hkey fun _ _ _ => explained_silent rfl

theorem Shard.explained_exists {key : Key} {now : ℤ} (hkey : P key) :
    (s.exists_ key now).Explained s P :=
  s.explained_lookupLive hkey fun _ _ _ => explained_silent rfl

theorem Shard.explained_ttl {key : Key} {now : ℤ} (hkey : P key) :
    (s.ttl key now).Explained s P :=
  s.explained_lookupLive hkey fun _ _ _ => explained_silent rfl

theorem Shard.explained_expire {key : Key} {expireAt now : ℤ} (hkey : P key) :
    (s.expire key expireAt now).Explained s P := by
  apply s.explained_lookupLive hkey
  intro it hlookup hlive
  constructor
  · simp [Shard.view_retime s expireAt hlookup]
  · intro mutation hmem other htouch
    simp only [mutations_expire_cons, mutations_nil, List.mem_singleton] at hmem
    subst mutation
    cases htouch
    exact hkey

theorem Shard.explained_del {key : Key} (hkey : P key) :
    (s.del key).Explained s P := by
  unfold Shard.del
  cases hlookup : s.items.lookup key with
  | none => exact explained_silent rfl
  | some it => exact explained_removeLocked hkey

theorem Shard.explained_set {key : Key} {value : Bytes} {expireAt : ℤ}
    (hholds : s.Holds P) (hkey : P key) :
    (s.set key value expireAt).Explained s P := by
  constructor
  · simp only [Shard.set, mutations_set_cons, mutations_map_del, replay_cons]
    rw [Shard.view_enforceLimitsLocked, Shard.view_setLocked]
  · intro mutation hmem other htouch
    simp only [Shard.set, mutations_set_cons, mutations_map_del,
      List.mem_cons, List.mem_map] at hmem
    rcases hmem with rfl | ⟨victim, hvictim, rfl⟩
    · cases htouch
      exact hkey
    · have hother : victim = other := htouch
      subst other
      have hheld := Shard.enforceLimitsLocked_held _ key victim hvictim
      rw [Shard.view_setLocked] at hheld
      by_cases heq : key = victim
      · exact heq ▸ hkey
      · apply hholds
        simpa [Mutation.apply, Mutation.effect, heq] using hheld

theorem Shard.explained_incrBy {key : Key} {delta now : ℤ}
    (hholds : s.Holds P) (hkey : P key) :
    (s.incrBy key delta now).Explained s P := by
  have hstore : ∀ (base : Shard) (value : Bytes),
      (∀ entry, (Mutation.set key entry).apply base.view =
        (Mutation.set key entry).apply s.view) → base.Holds P →
      ∀ result : Except CacheError (ℤ × List Key),
        (⟨(base.set key value 0).shard, (base.set key value 0).events, result⟩ :
          Outcome _).Explained s P := by
    intro base value hview hbase result
    have hset : (base.set key value 0).Explained base P :=
      Shard.explained_set hbase hkey
    constructor
    · have heq := hset.view_eq
      simp only [Shard.set, mutations_set_cons, replay_cons, hview] at heq ⊢
      exact heq
    · exact hset.touches
  unfold Shard.incrBy
  cases hbase : s.counterBase key now with
  | none => exact explained_silent rfl
  | some base =>
      rcases Shard.counterBase_cases hbase with hsame | ⟨it, _, _, hremoved⟩
      · simp only [hsame]
        exact hstore s _ (fun _ => rfl) hholds _
      · simp only [hremoved]
        apply hstore
        · intro entry
          funext other
          by_cases heq : key = other <;>
            simp [Mutation.apply, Mutation.effect, heq]
        · have hremoved : (⟨s.removeLocked key it, [.del key], ()⟩ :
              Outcome Unit).Explained s P := explained_removeLocked hkey
          exact hremoved.holds hholds

theorem Shard.sweepLoop_spec (now : ℤ) (order : List Key) (s : Shard) :
    (Shard.sweepLoop now order s).1.view =
        replay ((Shard.sweepLoop now order s).2.map .del) s.view ∧
      ∀ key ∈ (Shard.sweepLoop now order s).2, s.view key ≠ none := by
  induction order generalizing s with
  | nil => simp [Shard.sweepLoop]
  | cons key rest ih =>
      simp only [Shard.sweepLoop]
      cases hlookup : s.items.lookup key with
      | none => exact ih s
      | some it =>
          by_cases hexpired : it.expired now
          · obtain ⟨hview, hheld⟩ := ih (s.removeLocked key it)
            simp only [if_pos hexpired]
            constructor
            · rw [List.map_cons, replay_cons, hview, Shard.view_removeLocked]
            · intro other hmem hnone
              rcases List.mem_cons.mp hmem with rfl | hmem
              · rw [Shard.view, hlookup] at hnone
                contradiction
              · apply hheld other hmem
                rw [Shard.view_removeLocked]
                by_cases heq : key = other
                · simp [Mutation.apply, Mutation.effect, heq]
                · simpa [Mutation.apply, Mutation.effect, heq] using hnone
          · simp only [if_neg hexpired]
            exact ih s

theorem Shard.explained_sweepExpired {now : ℤ} {sample : ℕ} {order : List Key}
    (hholds : s.Holds P) :
    (s.sweepExpired now sample order).Explained s P := by
  obtain ⟨hview, hheld⟩ := Shard.sweepLoop_spec now (order.take sample) s
  constructor
  · simpa [Shard.sweepExpired] using hview
  · intro mutation hmem other htouch
    simp only [Shard.sweepExpired, mutations_map_del, List.mem_map] at hmem
    obtain ⟨key, hkey, rfl⟩ := hmem
    have hother : key = other := htouch
    subst other
    exact hholds key (hheld key hkey)

end Explained

/-! ## The exported entries -/

theorem mem_exportEntries {s : Shard} {now : ℤ} {key : Key} {it : Item} :
    (key, it) ∈ s.exportEntries now ↔ live now (s.view key) = some it := by
  have hentry : (⟨key, it⟩ : Sigma fun _ : Key => Item) ∈ s.items.entries ↔
      s.view key = some it := AList.mem_lookup_iff.symm
  simp only [Shard.exportEntries, List.mem_map, List.mem_filter, decide_eq_true_eq,
    Prod.mk.injEq, live, Option.filter_eq_some_iff]
  constructor
  · rintro ⟨entry, ⟨hmem, hlive⟩, rfl, rfl⟩
    exact ⟨hentry.mp hmem, hlive⟩
  · rintro ⟨hview, hlive⟩
    exact ⟨⟨key, it⟩, ⟨hentry.mpr hview, hlive⟩, rfl, rfl⟩

theorem nodup_exportEntries (s : Shard) (now : ℤ) :
    ((s.exportEntries now).map Prod.fst).Nodup := by
  have hkeys : (s.exportEntries now).map Prod.fst =
      (s.items.entries.filter fun entry => ¬ entry.2.expired now).keys := by
    simp [Shard.exportEntries, List.keys, Function.comp_def]
  rw [hkeys]
  exact List.NodupKeys.sublist List.filter_sublist s.items.nodupKeys

end DistCache
