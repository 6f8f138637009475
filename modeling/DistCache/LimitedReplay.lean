import DistCache.Transition
import DistCache.CacheEvents
import DistCache.ShardBookkeeping

/-!
# Replaying the stream into a cache with the same limits

A cache with limits that applies an event evicts on its own account, and the stream
tells it the victims of the source as well.  The two sides keep the same keys as long as
their policies agree.  They drift apart by what the stream does not tell: a hit is
reported to `lru` and `lfu` but emits no event, and an increment of an expired counter
forgets the key and adds it again.
-/

namespace DistCache

open DeadlineStore Eviction Transition

variable {L : Layout}

/-! ## Policies that evict alike -/

namespace Eviction

/-- The count of `noeviction` has no effect; other policies have to be equal. -/
def Policy.Alike : Policy → Policy → Prop
  | .noEviction _, .noEviction _ => True
  | first, second => first = second

theorem Policy.Alike.of_eq {first second : Policy} (heq : first = second) :
    first.Alike second := by
  subst second
  cases first <;> trivial

theorem Policy.Alike.cases {first second : Policy} (halike : first.Alike second) :
    first = second ∨ ∃ p q, first = .noEviction p ∧ second = .noEviction q := by
  cases first with
  | noEviction p =>
      cases second with
      | noEviction q => exact Or.inr ⟨p, q, rfl, rfl⟩
      | _ => exact Or.inl halike
  | _ => exact Or.inl halike

section Alike

variable {first second : Policy}

theorem Policy.Alike.map (f : Policy → Policy)
    (hcount : ∀ p, ∃ q, f (.noEviction p) = .noEviction q)
    (halike : first.Alike second) : (f first).Alike (f second) := by
  rcases halike.cases with heq | ⟨p, q, rfl, rfl⟩
  · exact .of_eq (congrArg f heq)
  · obtain ⟨p', hp⟩ := hcount p
    obtain ⟨q', hq⟩ := hcount q
    rw [hp, hq]
    trivial

theorem Policy.Alike.add (halike : first.Alike second) (key : Key) :
    (first.add key).Alike (second.add key) :=
  halike.map (fun policy => policy.add key) fun p => ⟨p.add, rfl⟩

theorem Policy.Alike.access (halike : first.Alike second) (key : Key) :
    (first.access key).Alike (second.access key) :=
  halike.map (fun policy => policy.access key) fun p => ⟨p, rfl⟩

theorem Policy.Alike.remove (halike : first.Alike second) (key : Key) :
    (first.remove key).Alike (second.remove key) :=
  halike.map (fun policy => policy.remove key) fun p => ⟨p.remove, rfl⟩

theorem Policy.Alike.note (halike : first.Alike second) (key : Key) (expireAt : ℤ) :
    (first.note key expireAt).Alike (second.note key expireAt) :=
  halike.map (fun policy => policy.note key expireAt) fun p => ⟨p, rfl⟩

theorem Policy.Alike.evict (halike : first.Alike second) :
    first.evict.1 = second.evict.1 ∧ first.evict.2.Alike second.evict.2 := by
  rcases halike.cases with rfl | ⟨p, q, rfl, rfl⟩
  · exact ⟨rfl, .of_eq rfl⟩
  · exact ⟨rfl, trivial⟩

theorem Policy.Alike.supply (halike : first.Alike second) :
    first.supply = second.supply := by
  rcases halike.cases with rfl | ⟨p, q, rfl, rfl⟩
  · rfl
  · rfl

theorem Policy.Alike.symm (halike : first.Alike second) : second.Alike first := by
  rcases halike.cases with rfl | ⟨p, q, rfl, rfl⟩
  · exact .of_eq rfl
  · trivial

theorem Policy.Alike.trans {third : Policy} (halike : first.Alike second)
    (hnext : second.Alike third) : first.Alike third := by
  rcases halike.cases with rfl | ⟨p, q, rfl, rfl⟩
  · exact hnext
  · rcases hnext.cases with rfl | ⟨q', r, _, rfl⟩ <;> trivial

theorem Policy.Alike.foldl_remove (halike : first.Alike second) (keys : List Key) :
    (keys.foldl Policy.remove first).Alike (keys.foldl Policy.remove second) := by
  induction keys generalizing first second with
  | nil => exact halike
  | cons key rest ih => exact ih (halike.remove key)

end Alike

theorem Policy.readd_alike_access {policy : Policy} {key : Key}
    (hkind : policy.kind = .lru ∨ policy.kind = .noEviction)
    (htracks : policy.Tracks key) :
    ((policy.remove key).add key).Alike (policy.access key) := by
  cases policy with
  | noEviction p => trivial
  | lru p =>
      apply Policy.Alike.of_eq
      have hgone : key ∉ p.ll.erase key := p.nodup.not_mem_erase
      have hmem : key ∈ p.ll := htracks
      simp only [Policy.remove, Policy.add, Policy.access, Lru.remove, Lru.add,
        Lru.access, if_pos hmem, List.erase_of_not_mem hgone]
  | lfu p => simp [Policy.kind] at hkind
  | fifo p => simp [Policy.kind] at hkind
  | random p => simp [Policy.kind] at hkind
  | ttl p => simp [Policy.kind] at hkind

end Eviction

/-! ## Shards in step -/

def Shard.applyEvent (s : Shard) (ev : Event) : Shard :=
  match ev.op with
  | .opSet => s.applySet ev.key ev.value ev.expireAt
  | .opDel => s.applyDel ev.key
  | .opExpire => s.applyExpire ev.key ev.expireAt
  | .opFlush => s.flushSilent
  | .other _ => s

def Shard.applyEvents (s : Shard) (events : List Event) : Shard :=
  events.foldl Shard.applyEvent s

/-- `r` holds the entries of `s` under the same limits, and unless something
was missed it evicts alike. -/
structure Shard.InStep (missed : Prop) (s r : Shard) : Prop where
  items : r.items = s.items
  mem : r.mem = s.mem
  maxEntries : r.maxEntries = s.maxEntries
  maxMemory : r.maxMemory = s.maxMemory
  policy : ¬ missed → r.policy.Alike s.policy

namespace Shard.InStep

variable {missed : Prop} {s r : Shard}

theorem weaken {missed' : Prop} (hin : s.InStep missed r)
    (himp : missed → missed') : s.InStep missed' r :=
  { hin with policy := fun hnot => hin.policy fun h => hnot (himp h) }

theorem over_iff (hin : s.InStep missed r) : r.OverCapacity ↔ s.OverCapacity := by
  unfold Shard.OverCapacity
  rw [hin.items, hin.mem, hin.maxEntries, hin.maxMemory]

theorem removeLocked (hin : s.InStep missed r) (key : Key) (it : Item) :
    (s.removeLocked key it).InStep missed (r.removeLocked key it) where
  items := by simp only [Shard.removeLocked, hin.items]
  mem := by simp only [Shard.removeLocked, hin.mem]
  maxEntries := hin.maxEntries
  maxMemory := hin.maxMemory
  policy := fun hnot => (hin.policy hnot).remove key

theorem setLocked (hin : s.InStep missed r) (key : Key) (value : Bytes)
    (expireAt : ℤ) :
    (s.setLocked key value expireAt).InStep missed
      (r.setLocked key value expireAt) := by
  unfold Shard.setLocked
  rw [hin.items]
  cases hlookup : s.items.lookup key with
  | none =>
      exact
        { items := rfl
          mem := by simp only [hin.mem]
          maxEntries := hin.maxEntries
          maxMemory := hin.maxMemory
          policy := fun hnot => ((hin.policy hnot).add key).note key expireAt }
  | some old =>
      exact
        { items := rfl
          mem := by simp only [hin.mem]
          maxEntries := hin.maxEntries
          maxMemory := hin.maxMemory
          policy := fun hnot => ((hin.policy hnot).access key).note key expireAt }

theorem retime (hin : s.InStep missed r) (key : Key) (it : Item) (expireAt : ℤ) :
    (s.retime key it expireAt).InStep missed (r.retime key it expireAt) where
  items := by simp only [Shard.retime, hin.items]
  mem := hin.mem
  maxEntries := hin.maxEntries
  maxMemory := hin.maxMemory
  policy := fun hnot => (hin.policy hnot).note key expireAt

theorem flushSilent (hin : s.InStep missed r) :
    s.flushSilent.InStep missed r.flushSilent where
  items := rfl
  mem := rfl
  maxEntries := hin.maxEntries
  maxMemory := hin.maxMemory
  policy := by
    intro hnot
    simp only [Shard.flushSilent, hin.items]
    exact (hin.policy hnot).foldl_remove _

/-! ## Evictions -/

theorem eq_with_policy (hin : s.InStep missed r) :
    r = { s with policy := r.policy } := by
  obtain ⟨items, policy, mem, maxEntries, maxMemory⟩ := r
  simp only [Shard.mk.injEq, true_and]
  exact ⟨hin.items, hin.mem, hin.maxEntries, hin.maxMemory⟩

theorem with_policies {first second : Policy} (halike : second.Alike first) :
    ({ s with policy := first } : Shard).InStep False { s with policy := second } :=
  ⟨rfl, rfl, rfl, rfl, fun _ => halike⟩

theorem enforceLoop (protectedKey : Key) (fuel : ℕ) {policy : Policy}
    (halike : policy.Alike s.policy) :
    (Shard.enforceLoop protectedKey fuel s).1.InStep False
        (Shard.enforceLoop protectedKey fuel { s with policy := policy }).1 ∧
      (Shard.enforceLoop protectedKey fuel { s with policy := policy }).2 =
        (Shard.enforceLoop protectedKey fuel s).2 := by
  induction fuel generalizing s policy with
  | zero => exact ⟨with_policies halike, rfl⟩
  | succ fuel ih =>
      obtain ⟨hvictim, hpolicy⟩ := halike.evict
      have hsame : ({ s with policy := policy } : Shard).OverCapacity ↔
          s.OverCapacity := Iff.rfl
      simp only [Shard.enforceLoop, Shard.enforceTurn, hsame, hvictim]
      by_cases hover : s.OverCapacity
      · simp only [if_pos hover]
        cases hevict : s.policy.evict.1 with
        | none => exact ⟨with_policies hpolicy, rfl⟩
        | some victim =>
            simp only
            by_cases hprotected : victim = protectedKey
            · simp only [if_pos hprotected]
              exact ⟨with_policies (hpolicy.add victim), trivial⟩
            · simp only [if_neg hprotected]
              cases hlookup : s.items.lookup victim with
              | none => exact ih (s := { s with policy := s.policy.evict.2 }) hpolicy
              | some it =>
                  obtain ⟨hrest, hvictims⟩ := ih
                    (s := ({ s with policy := s.policy.evict.2 } :
                      Shard).dropVictim victim it) hpolicy
                  exact ⟨hrest, congrArg (victim :: ·) hvictims⟩
      · simp only [if_neg hover]
        exact ⟨with_policies halike, trivial⟩

theorem enforceLimitsLocked (hin : s.InStep False r) (protectedKey : Key) :
    (s.enforceLimitsLocked protectedKey).1.InStep False
        (r.enforceLimitsLocked protectedKey).1 := by
  have halike := hin.policy not_false
  rw [hin.eq_with_policy]
  unfold Shard.enforceLimitsLocked
  simp only [halike.supply]
  exact (InStep.enforceLoop protectedKey _ halike).1

end Shard.InStep

theorem Shard.applyDel_of_absent {s : Shard} {key : Key}
    (habsent : s.view key = none) : s.applyDel key = s := by
  have hlookup : s.items.lookup key = none := habsent
  unfold Shard.applyDel
  rw [hlookup]

theorem Shard.applyEvents_dels_of_absent {s : Shard} {keys : List Key}
    (habsent : ∀ key ∈ keys, s.view key = none) :
    s.applyEvents (keys.map .del) = s := by
  induction keys with
  | nil => rfl
  | cons key rest ih =>
      have hhead := Shard.applyDel_of_absent (habsent key List.mem_cons_self)
      have htail := ih fun other hmem =>
        habsent other (List.mem_cons_of_mem key hmem)
      have hevent : s.applyEvent (.del key) = s := hhead
      simp only [List.map_cons, Shard.applyEvents, List.foldl_cons, hevent]
      exact htail

theorem Shard.enforceLimitsLocked_gone (s : Shard) (protectedKey : Key) :
    ∀ key ∈ (s.enforceLimitsLocked protectedKey).2,
      (s.enforceLimitsLocked protectedKey).1.view key = none := by
  intro key hmem
  rw [Shard.view_enforceLimitsLocked]
  rw [replay_dels, if_pos hmem]

theorem Shard.InStep.enforce_and_apply {missed : Prop} {s r : Shard} {key : Key}
    (hin : s.InStep missed r) (hover : s.OverCapacity → ¬ missed) :
    (s.enforceLimitsLocked key).1.InStep missed
      ((r.enforceLimitsLocked key).1.applyEvents
        ((s.enforceLimitsLocked key).2.map .del)) := by
  by_cases hfull : s.OverCapacity
  · have hexact : s.InStep False r :=
      { hin with policy := fun _ => hin.policy (hover hfull) }
    have hafter := hexact.enforceLimitsLocked key
    have hgone : ∀ victim ∈ (s.enforceLimitsLocked key).2,
        (r.enforceLimitsLocked key).1.view victim = none := by
      intro victim hmem
      have hsource := s.enforceLimitsLocked_gone key victim hmem
      simp only [Shard.view, hafter.items] at hsource ⊢
      exact hsource
    rw [Shard.applyEvents_dels_of_absent hgone]
    exact hafter.weaken False.elim
  · have hroom : ¬ r.OverCapacity := fun h => hfull (hin.over_iff.mp h)
    rw [Shard.enforceLimitsLocked_of_not_over hfull,
      Shard.enforceLimitsLocked_of_not_over hroom]
    exact hin

/-! ## Steps that the stream does not tell -/

/-- The policy learns of the step in a way that no event tells: a hit under
`lru` and `lfu`, or an increment that removes an expired entry first, except
under `lru`, for which that is the same as an overwrite. -/
def KeyOp.Unrecorded (clock : Clock) (op : KeyOp L) (s : Shard) : Prop :=
  match op with
  | .get key =>
      (s.policy.kind = .lru ∨ s.policy.kind = .lfu) ∧
        (s.items.lookup key).any fun it => ¬ it.expired clock.first
  | .incrBy key _ =>
      ¬ (s.policy.kind = .lru ∨ s.policy.kind = .noEviction) ∧
        (s.items.lookup key).any fun it => it.expired clock.first
  | _ => False

/-- The step stores an entry and the shard is over a limit then. -/
def KeyOp.Overflows (clock : Clock) (op : KeyOp L) (s : Shard) : Prop :=
  match op with
  | .setTTL key value lifetime =>
      (s.setLocked key value (deadline clock.first lifetime)).OverCapacity
  | .incrBy key delta =>
      match s.counterBase key clock.first with
      | none => False
      | some (s', base) =>
          (s'.setLocked key (formatInt (int64 (base + delta))) 0).OverCapacity
  | _ => False

section StepLemma

variable {missed : Prop} {s r : Shard} {α : Type}

def Outcome.Follows (missed : Prop) (r : Shard) (o : Outcome α) : Prop :=
  o.shard.InStep missed (r.applyEvents o.events)

theorem follows_removeLocked {key : Key} {it : Item} {result : α}
    (hin : s.InStep missed r) (hlookup : s.items.lookup key = some it) :
    (⟨s.removeLocked key it, [.del key], result⟩ : Outcome α).Follows missed r := by
  have happly : r.applyEvents [.del key] = r.removeLocked key it := by
    change r.applyDel key = _
    unfold Shard.applyDel
    rw [hin.items, hlookup]
  unfold Outcome.Follows
  rw [happly]
  exact hin.removeLocked key it

theorem follows_del {key : Key} (hin : s.InStep missed r) :
    (s.del key).Follows missed r := by
  unfold Shard.del
  cases hlookup : s.items.lookup key with
  | none => exact hin
  | some it => exact follows_removeLocked hin hlookup

theorem follows_lookupLive {key : Key} {now : ℤ} {absent gone : α}
    {found : Item → Outcome α} (hin : s.InStep missed r)
    (hfound : ∀ it, s.items.lookup key = some it → ¬ it.expired now →
      (found it).Follows missed r) :
    (s.lookupLive key now absent gone found).Follows missed r := by
  apply Shard.lookupLive_rule (P := fun o : Outcome α => o.Follows missed r)
  · exact fun _ => hin
  · exact fun it hlookup _ => follows_removeLocked hin hlookup
  · exact hfound

theorem follows_expire {key : Key} {expireAt now : ℤ} (hin : s.InStep missed r) :
    (s.expire key expireAt now).Follows missed r := by
  apply follows_lookupLive hin
  intro it hlookup _
  have happly : r.applyEvents [.expire key expireAt] = r.retime key it expireAt := by
    change r.applyExpire key expireAt = _
    unfold Shard.applyExpire
    rw [hin.items, hlookup]
  unfold Outcome.Follows
  rw [happly]
  exact hin.retime key it expireAt

theorem follows_store {base : Shard} {key : Key} {value : Bytes} {expireAt : ℤ}
    (hstored : (base.setLocked key value expireAt).InStep missed
      (r.setLocked key value expireAt))
    (hover : (base.setLocked key value expireAt).OverCapacity → ¬ missed) :
    (base.set key value expireAt).Follows missed r :=
  hstored.enforce_and_apply hover

theorem follows_sweepLoop (now : ℤ) (order : List Key) (hin : s.InStep missed r) :
    (Shard.sweepLoop now order s).1.InStep missed
      (r.applyEvents ((Shard.sweepLoop now order s).2.map .del)) := by
  induction order generalizing s r with
  | nil => exact hin
  | cons key rest ih =>
      simp only [Shard.sweepLoop]
      cases hlookup : s.items.lookup key with
      | none => exact ih hin
      | some it =>
          by_cases hexpired : it.expired now
          · simp only [if_pos hexpired]
            have hhead : (⟨s.removeLocked key it, [.del key], ()⟩ :
                Outcome Unit).Follows missed r := follows_removeLocked hin hlookup
            exact ih hhead
          · simp only [if_neg hexpired]
            exact ih hin

theorem inStep_restored {key : Key} {it : Item} {value : Bytes}
    (hkept : s.Kept) (hin : s.InStep missed r)
    (hlookup : s.items.lookup key = some it) :
    ((s.removeLocked key it).setLocked key value 0).InStep
      (missed ∨ ¬ (s.policy.kind = .lru ∨ s.policy.kind = .noEviction))
      (r.setLocked key value 0) := by
  have hgone : (s.removeLocked key it).items.lookup key = none :=
    AList.lookup_erase key s.items
  have hmem : (s.removeLocked key it).mem =
      AListSum.weight itemSize (s.items.erase key) :=
    Shard.Kept.mem_remove hkept.mem_eq hlookup
  have hsum := AListSum.weight_of_lookup itemSize hlookup
  have hitems : (s.items.erase key).insert key (⟨value, 0⟩ : Item) =
      s.items.insert key ⟨value, 0⟩ := by
    have hkeys : key ∉ (s.items.erase key).entries.keys :=
      List.notMem_keys_kerase key s.items.nodupKeys
    apply AList.ext
    simp only [AList.insert, List.kinsert_def, List.kerase_of_notMem_keys hkeys]
    rfl
  have hleft : (s.removeLocked key it).setLocked key value 0 =
      { s.removeLocked key it with
        items := (s.items.erase key).insert key ⟨value, 0⟩
        mem := (s.removeLocked key it).mem + approxSize key value
        policy := ((s.policy.remove key).add key).note key 0 } := by
    rw [Shard.setLocked, hgone]
    rfl
  have hright : r.setLocked key value 0 =
      { r with
        items := s.items.insert key ⟨value, 0⟩
        mem := s.mem + (value.length - it.value.length)
        policy := (r.policy.access key).note key 0 } := by
    rw [Shard.setLocked, hin.items, hlookup, hin.mem]
  rw [hleft, hright]
  refine ⟨hitems.symm, ?_, hin.maxEntries, hin.maxMemory, ?_⟩
  · simp only [hmem, hkept.mem_eq, hsum, itemSize, approxSize]
    push_cast
    ring
  · intro hnot
    have hheld : s.view key ≠ none := by simp [Shard.view, hlookup]
    have hkind : s.policy.kind = .lru ∨ s.policy.kind = .noEviction := by
      by_contra hother
      exact hnot (Or.inr hother)
    have hsource := Policy.readd_alike_access hkind (hkept.tracked key hheld)
    have hreplica := (hin.policy fun h => hnot (Or.inl h)).access key
    exact (hreplica.trans hsource.symm).note key 0

theorem Policy.access_eq_self {policy : Policy} {key : Key}
    (hkind : ¬ (policy.kind = .lru ∨ policy.kind = .lfu)) :
    policy.access key = policy := by
  cases policy with
  | lru p => exact absurd (Or.inl rfl) hkind
  | lfu p => exact absurd (Or.inr rfl) hkind
  | _ => rfl

theorem KeyOp.follows_get {clock : Clock} {key : Key} (hin : s.InStep missed r) :
    (s.get key clock.first).Follows
      (missed ∨ (KeyOp.get key : KeyOp L).Unrecorded clock s) r := by
  have hweak : s.InStep (missed ∨ (KeyOp.get key : KeyOp L).Unrecorded clock s) r :=
    hin.weaken Or.inl
  apply follows_lookupLive hweak
  intro it hlookup hlive
  refine { hweak with policy := fun hnot => ?_ }
  have hkind : ¬ (s.policy.kind = .lru ∨ s.policy.kind = .lfu) := by
    intro hkind
    apply hnot
    right
    exact ⟨hkind, by simp [hlookup, hlive]⟩
  simp only [Policy.access_eq_self hkind]
  exact hweak.policy hnot

theorem KeyOp.follows_incrBy {clock : Clock} {key : Key} {delta : ℤ}
    (hkept : s.Kept) (hin : s.InStep missed r)
    (hover : (KeyOp.incrBy key delta : KeyOp L).Overflows clock s →
      ¬ (missed ∨ (KeyOp.incrBy key delta : KeyOp L).Unrecorded clock s)) :
    (s.incrBy key delta clock.first).Follows
      (missed ∨ (KeyOp.incrBy key delta : KeyOp L).Unrecorded clock s) r := by
  have hweak : s.InStep
      (missed ∨ (KeyOp.incrBy key delta : KeyOp L).Unrecorded clock s) r :=
    hin.weaken Or.inl
  simp only [KeyOp.Overflows] at hover
  unfold Shard.incrBy
  cases hbase : s.counterBase key clock.first with
  | none => exact hweak
  | some counter =>
      obtain ⟨base, current⟩ := counter
      simp only [hbase] at hover
      have hstore : ∀ {value : Bytes}, (base.setLocked key value 0).InStep
          (missed ∨ (KeyOp.incrBy key delta : KeyOp L).Unrecorded clock s)
          (r.setLocked key value 0) := by
        intro value
        rcases Shard.counterBase_cases hbase with hsame | ⟨it, hlookup, hexpired, hremoved⟩
        · rw [show base = s from hsame]
          exact hweak.setLocked key value 0
        · rw [show base = s.removeLocked key it from hremoved]
          apply (inStep_restored hkept hin hlookup).weaken
          rintro (hmissed | hkind)
          · exact Or.inl hmissed
          · exact Or.inr ⟨hkind, by simp [hlookup, hexpired]⟩
      exact follows_store hstore hover

theorem KeyOp.follows_run {clock : Clock} {op : KeyOp L} (hop : ¬ op.IsFlush)
    (hkept : s.Kept) (hin : s.InStep missed r)
    (hover : op.Overflows clock s → ¬ (missed ∨ op.Unrecorded clock s)) :
    (op.run clock s).Follows (missed ∨ op.Unrecorded clock s) r := by
  have hweak : s.InStep (missed ∨ op.Unrecorded clock s) r := hin.weaken Or.inl
  cases op with
  | setTTL key value lifetime =>
      exact follows_store (hweak.setLocked key value _) hover
  | get key => exact KeyOp.follows_get hin
  | delete key => exact follows_del hweak
  | exists_ key =>
      have hexists : (s.exists_ key clock.first).Follows _ r :=
        follows_lookupLive hweak fun _ _ _ => hweak
      exact hexists
  | expire key lifetime => exact follows_expire hweak
  | ttl key =>
      have httl : (s.ttl key clock.first).Follows _ r :=
        follows_lookupLive hweak fun _ _ _ => hweak
      exact httl
  | incrBy key delta =>
      have hincr := KeyOp.follows_incrBy hkept hin hover
      simp only [KeyOp.run]
      cases hresult : (s.incrBy key delta clock.first).result with
      | error err => exact hincr
      | ok result => exact hincr
  | sweepExpired shard sample order => exact follows_sweepLoop _ _ hweak
  | keys shard => exact hweak
  | len shard => exact hweak
  | flush shard => exact absurd trivial hop

end StepLemma

/-! ## Events of one shard, applied to the whole cache -/

theorem KeyOp.run_events_ne_flush {clock : Clock} {op : KeyOp L} {s : Shard}
    (hop : ¬ op.IsFlush) : ∀ ev ∈ (op.run clock s).events, ev.op ≠ .opFlush := by
  have hdel : ∀ keys : List Key, ∀ ev ∈ keys.map Event.del, ev.op ≠ .opFlush := by
    intro keys ev hmem
    obtain ⟨key, _, rfl⟩ := List.mem_map.mp hmem
    simp [Event.del]
  have hset : ∀ (base : Shard) (key : Key) (value : Bytes) (expireAt : ℤ),
      ∀ ev ∈ (base.set key value expireAt).events, ev.op ≠ .opFlush := by
    intro base key value expireAt ev hmem
    rcases List.mem_cons.mp hmem with rfl | hmem
    · simp [Event.set]
    · exact hdel _ ev hmem
  have hread : ∀ {α : Type} {key : Key} {now : ℤ} {absent gone : α}
      {found : Item → Outcome α},
      (∀ it, ∀ ev ∈ (found it).events, ev.op ≠ .opFlush) →
      ∀ ev ∈ (s.lookupLive key now absent gone found).events, ev.op ≠ .opFlush := by
    intro α key now absent gone found hfound
    apply Shard.lookupLive_rule (P := fun o : Outcome α => ∀ ev ∈ o.events, ev.op ≠ .opFlush)
    · simp
    · simp [Event.del]
    · exact fun it _ _ => hfound it
  cases op with
  | setTTL key value lifetime => exact hset s key value _
  | get key =>
      simp only [KeyOp.run, Shard.get]
      exact hread fun _ => by simp
  | delete key =>
      simp only [KeyOp.run, Shard.del]
      cases s.items.lookup key <;> simp [Event.del]
  | exists_ key =>
      simp only [KeyOp.run, Shard.exists_]
      exact hread fun _ => by simp
  | expire key lifetime =>
      simp only [KeyOp.run, Shard.expire]
      exact hread fun _ => by simp [Event.expire]
  | ttl key =>
      simp only [KeyOp.run, Shard.ttl]
      exact hread fun _ => by simp
  | incrBy key delta =>
      have hincr : ∀ ev ∈ (s.incrBy key delta clock.first).events,
          ev.op ≠ .opFlush := by
        unfold Shard.incrBy
        cases hbase : s.counterBase key clock.first with
        | none => simp
        | some counter => exact hset counter.1 key _ 0
      simp only [KeyOp.run]
      cases hresult : (s.incrBy key delta clock.first).result with
      | error err => exact hincr
      | ok result => exact hincr
  | sweepExpired shard sample order => exact hdel _
  | keys shard => exact fun _ hmem => absurd hmem List.not_mem_nil
  | len shard => exact fun _ hmem => absurd hmem List.not_mem_nil
  | flush shard => exact absurd trivial hop

namespace Cache

theorem applyEvent_keyed {r : Cache L} {ev : Event} {i : Fin L.shards}
    (hflush : ev.op ≠ .opFlush)
    (hkey : ∀ m ∈ mutations [ev], ∀ key, m.Touches key → L.index key = i) :
    (r.applyEvent ev).shards =
      Function.update r.shards i ((r.shards i).applyEvent ev) := by
  obtain ⟨seq, op, key, value, expireAt⟩ := ev
  have hself : ∀ m : Mutation Key Bytes ℤ,
      m ∈ mutations [⟨seq, op, key, value, expireAt⟩] → m.Touches key →
      L.index key = i := fun m hmem htouch => hkey m hmem key htouch
  cases op with
  | opSet =>
      have hindex := hself (.set key ⟨value, expireAt⟩) List.mem_cons_self rfl
      subst hindex
      rfl
  | opDel =>
      have hindex := hself (.del key) List.mem_cons_self rfl
      subst hindex
      rfl
  | opExpire =>
      have hindex := hself (.expire key expireAt) List.mem_cons_self rfl
      subst hindex
      rfl
  | opFlush => exact absurd rfl hflush
  | other code => exact (Function.update_eq_self i r.shards).symm

theorem applyEvents_keyed {r : Cache L} {events : List Event} {i : Fin L.shards}
    (hflush : ∀ ev ∈ events, ev.op ≠ .opFlush)
    (hkey : ∀ m ∈ mutations events, ∀ key, m.Touches key → L.index key = i) :
    (r.applyEvents events).shards =
      Function.update r.shards i ((r.shards i).applyEvents events) := by
  induction events generalizing r with
  | nil => exact (Function.update_eq_self i r.shards).symm
  | cons ev rest ih =>
      have hsplit : mutations (ev :: rest) = mutations [ev] ++ mutations rest :=
        mutations_append [ev] rest
      have hhead := applyEvent_keyed (r := r) (hflush ev List.mem_cons_self)
        fun m hmem => hkey m (by rw [hsplit]; exact List.mem_append_left _ hmem)
      have htail := ih (r := r.applyEvent ev)
        (fun other hmem => hflush other (List.mem_cons_of_mem ev hmem))
        (fun m hmem => hkey m (by rw [hsplit]; exact List.mem_append_right _ hmem))
      have hfold : r.applyEvents (ev :: rest) =
          (r.applyEvent ev).applyEvents rest := rfl
      rw [hfold, htail, hhead]
      simp [Shard.applyEvents]

theorem applyEvents_append (r : Cache L) (first second : List Event) :
    r.applyEvents (first ++ second) = (r.applyEvents first).applyEvents second :=
  List.foldl_append

end Cache

/-! ## The source, watched -/

/-- A cache and the shards on which a step was not recorded. -/
structure Watched (L : Layout) where
  cache : Cache L
  missed : Fin L.shards → Prop

namespace Watched

def next (w : Watched L) (st : Step L) : Watched L where
  cache := (w.cache.exec st).1
  missed := fun i => w.missed i ∨
    i = st.op.shard ∧ st.op.Unrecorded st.clock (w.cache.shards st.op.shard)

def step (w : Watched L) (st : Step L) : Option (Watched L) := some (w.next st)

/-- A step that overflows its shard finds, and makes, nothing missed there. -/
def Covered (w : Watched L) (st : Step L) : Prop :=
  st.op.Overflows st.clock (w.cache.shards st.op.shard) →
    ¬ (w.next st).missed st.op.shard

def steps (w : Watched L) (sts : List (Step L)) : Watched L := sts.foldl next w

theorem run_eq (w : Watched L) (sts : List (Step L)) :
    run step w sts = some (w.steps sts) := by
  induction sts generalizing w with
  | nil => rfl
  | cons st rest ih =>
      rw [run_cons]
      exact ih (w.next st)

theorem cache_steps (w : Watched L) (sts : List (Step L)) :
    (w.steps sts).cache = (w.cache.execAll sts).1 := by
  induction sts generalizing w with
  | nil => rfl
  | cons st rest ih => exact ih (w.next st)

/-- `r` has applied every event of the watched cache. -/
structure Mirrored (w : Watched L) (r : Cache L) : Prop where
  placed : w.cache.Placed
  kept : ∀ i, (w.cache.shards i).Kept
  inStep : ∀ i, (w.cache.shards i).InStep (w.missed i) (r.shards i)

variable {w : Watched L} {r : Cache L}

theorem mirrored_next {st : Step L} (hmirrored : Mirrored w r)
    (hop : ¬ st.op.IsFlush) (hcovered : w.Covered st) :
    Mirrored (w.next st) (r.applyEvents (w.cache.exec st).2.1) := by
  have hkept := hmirrored.kept st.op.shard
  have hevents := KeyOp.explained_run st.clock hop (hmirrored.placed st.op.shard)
  have hshards := Cache.applyEvents_keyed (r := r)
    (KeyOp.run_events_ne_flush hop) hevents.touches
  have hfollows := KeyOp.follows_run hop hkept (hmirrored.inStep st.op.shard)
    fun hover => by
      have hclear := hcovered hover
      simpa [next] using hclear
  refine ⟨Cache.placed_exec hmirrored.placed st, ?_, ?_⟩
  · intro i
    by_cases hi : i = st.op.shard
    · subst hi
      simpa [next, Cache.exec] using hkept.run st.clock st.op
    · simpa [next, Cache.exec, Function.update_of_ne hi] using hmirrored.kept i
  · intro i
    have hnew : (r.applyEvents (w.cache.exec st).2.1).shards =
        Function.update r.shards st.op.shard ((r.shards st.op.shard).applyEvents
          (st.op.run st.clock (w.cache.shards st.op.shard)).events) := hshards
    rw [hnew]
    by_cases hi : i = st.op.shard
    · subst hi
      simpa [next, Cache.exec, Outcome.Follows] using hfollows
    · have hother := (hmirrored.inStep i).weaken (Or.inl (b := i = st.op.shard ∧
        st.op.Unrecorded st.clock (w.cache.shards st.op.shard)))
      simpa [next, Cache.exec, Function.update_of_ne hi] using hother

theorem mirrored_steps {sts : List (Step L)} (hmirrored : Mirrored w r)
    (hops : ∀ st ∈ sts, ¬ st.op.IsFlush) (halong : Along step Covered w sts) :
    Mirrored (w.steps sts) (r.applyEvents (w.cache.execAll sts).2) := by
  induction sts generalizing w r with
  | nil => exact hmirrored
  | cons st rest ih =>
      have hhead := mirrored_next hmirrored (hops st List.mem_cons_self) halong.1
      have htail := ih hhead
        (fun other hmem => hops other (List.mem_cons_of_mem st hmem))
        (halong.2 _ rfl)
      simp only [Cache.execAll, Cache.applyEvents_append]
      exact htail

/-! ## FlushAll, all of it -/

theorem steps_flush (w : Watched L) (shards : List (Fin L.shards)) :
    let w' := w.steps (shards.map fun i => ⟨unread, .flush i⟩)
    (∀ i, w'.cache.shards i =
      if i ∈ shards then (w.cache.shards i).flushSilent else w.cache.shards i) ∧
    ∀ i, w'.missed i ↔ w.missed i := by
  induction shards generalizing w with
  | nil => exact ⟨fun i => by simp [steps], fun i => Iff.rfl⟩
  | cons j rest ih =>
      obtain ⟨hshards, hmissed⟩ := ih (w.next ⟨unread, .flush j⟩)
      constructor
      · intro i
        have hi := hshards i
        simp only [List.map_cons, List.mem_cons]
        refine hi.trans ?_
        by_cases hj : i = j
        · subst hj
          simp [next, Cache.exec, KeyOp.shard, KeyOp.run, Shard.flush]
          exact fun _ => rfl
        · simp [next, Cache.exec, KeyOp.shard, hj]
      · intro i
        refine (hmissed i).trans ?_
        simp [next, KeyOp.Unrecorded]

theorem applyEvents_flushes (r : Cache L) {n : ℕ} (hpos : 0 < n) (i : Fin L.shards) :
    (r.applyEvents (List.replicate n Event.flush)).shards i =
      (r.shards i).flushSilent := by
  induction n generalizing r with
  | zero => omega
  | succ n ih =>
      have hfold : r.applyEvents (List.replicate (n + 1) Event.flush) =
          (r.applyEvent Event.flush).applyEvents (List.replicate n Event.flush) := rfl
      rw [hfold]
      cases n with
      | zero => rfl
      | succ n => exact ih (r.applyEvent Event.flush) (Nat.succ_pos n)

theorem mirrored_flushAll (hmirrored : Mirrored w r) :
    Mirrored (w.steps (flushSteps L))
      (r.applyEvents (w.cache.execAll (flushSteps L)).2) := by
  obtain ⟨hevents, hplaced, _⟩ :=
    Cache.execAll_flushes hmirrored.placed (List.finRange L.shards)
  obtain ⟨hshards, hmissed⟩ := w.steps_flush (List.finRange L.shards)
  have hlog : (w.cache.execAll (flushSteps L)).2 =
      List.replicate L.shards Event.flush := by
    simpa [flushSteps, List.map_const'] using hevents
  have hcleared : ∀ i, (w.steps (flushSteps L)).cache.shards i =
      (w.cache.shards i).flushSilent := by
    intro i
    simpa [flushSteps] using hshards i
  refine ⟨?_, ?_, ?_⟩
  · rw [cache_steps]
    exact hplaced
  · intro i
    rw [hcleared]
    exact Shard.Kept.flushSilent _
  · intro i
    rw [hlog, applyEvents_flushes r L.pos, hcleared]
    exact (hmirrored.inStep i).flushSilent.weaken (hmissed i).mpr

/-! ## Completed operations -/

theorem mirrored_operation {op : Operation L} (hmirrored : Mirrored w r)
    (halong : Along step Covered w op.steps) :
    Mirrored (w.steps op.steps) (r.applyEvents (w.cache.execAll op.steps).2) := by
  by_cases hop : op = .flushAll
  · subst hop
    exact mirrored_flushAll hmirrored
  · exact mirrored_steps hmirrored (op.steps_not_flush hop) halong

theorem mirrored_perform {ops : List (Operation L)} (hmirrored : Mirrored w r)
    (halong : Along step Covered w (ops.flatMap Operation.steps)) :
    Mirrored (w.steps (ops.flatMap Operation.steps))
      (r.applyEvents (w.cache.perform ops).2) := by
  induction ops generalizing w r with
  | nil => exact hmirrored
  | cons op rest ih =>
      rw [List.flatMap_cons] at halong ⊢
      obtain ⟨hfirst, hrest⟩ := (along_append step).mp halong
      have hhead := mirrored_operation hmirrored hfirst
      have htail := ih hhead (hrest _ (w.run_eq op.steps))
      rw [cache_steps] at htail
      simp only [Cache.perform, List.flatMap_cons, Cache.execAll_append,
        Cache.applyEvents_append]
      have hsteps : w.steps (op.steps ++ rest.flatMap Operation.steps) =
          (w.steps op.steps).steps (rest.flatMap Operation.steps) :=
        List.foldl_append
      rw [hsteps]
      exact htail

theorem Mirrored.contents_eq (hmirrored : Mirrored w r) :
    r.contents = w.cache.contents := by
  funext key
  have hitems := (hmirrored.inStep (L.index key)).items
  simp only [Cache.contents, Shard.view, hitems]

end Watched

def Watched.initial (cfg : Config) (hash : Key → ℕ) (rng : ℕ → ℕ → ℕ) :
    Watched (cfg.layout hash) :=
  ⟨Cache.new cfg hash rng, fun _ => False⟩

theorem Watched.mirrored_initial {cfg : Config} (hrandom : cfg.policy ≠ .random)
    (hash : Key → ℕ) (rng rng' : ℕ → ℕ → ℕ) :
    Mirrored (initial cfg hash rng) (Cache.new cfg hash rng') := by
  refine ⟨Cache.placed_new cfg hash rng, fun i => Shard.Kept.new _ _ _, fun i => ?_⟩
  refine ⟨rfl, rfl, rfl, rfl, fun _ => .of_eq ?_⟩
  simp only [initial, Cache.new, Shard.new]
  cases hkind : cfg.policy with
  | random => exact absurd hkind hrandom
  | _ => rfl

namespace Cache

/-- As long as no shard has to evict after a step that the stream does not
record, a cache with the same configuration that applies the stream holds
exactly what the source holds. -/
theorem contents_sameConfig_perform
    (cfg : Config) (hrandom : cfg.policy ≠ .random) (hash : Key → ℕ)
    (rng rng' : ℕ → ℕ → ℕ) (ops : List (Operation (cfg.layout hash)))
    (hcovered : Along Watched.step Watched.Covered (Watched.initial cfg hash rng)
      (ops.flatMap Operation.steps)) :
    ((Cache.new cfg hash rng').applyEvents
        ((Cache.new cfg hash rng).perform ops).2).contents =
      ((Cache.new cfg hash rng).perform ops).1.contents := by
  have hmirrored := Watched.mirrored_perform
    (Watched.mirrored_initial hrandom hash rng rng') hcovered
  have hcontents := hmirrored.contents_eq
  rw [Watched.cache_steps] at hcontents
  exact hcontents

/-! ## A read that the stream does not tell -/

def lruPair : Config := ⟨1, 2, 0, .lru⟩

def hitBeforeEviction : List (Operation (lruPair.layout fun _ => 0)) :=
  [.set [97] [49], .set [98] [50], .get ⟨1, 1⟩ [97], .set [99] [51]]

theorem lru_replica_loses_hit_key :
    ((Cache.new lruPair (fun _ => 0) fun _ _ => 0).perform
        hitBeforeEviction).1.contents [97] = some ⟨[49], 0⟩ ∧
      ((Cache.new lruPair (fun _ => 0) fun _ _ => 0).applyEvents
        ((Cache.new lruPair (fun _ => 0) fun _ _ => 0).perform
          hitBeforeEviction).2).contents [97] = none := by
  decide

theorem contents_sameConfig_perform_lruPair :
    ((Cache.new lruPair (fun _ => 0) fun _ _ => 0).applyEvents
        ((Cache.new lruPair (fun _ => 0) fun _ _ => 0).perform
          [.set [97] [49], .set [98] [50], .set [99] [51],
            .get ⟨1, 1⟩ [98]]).2).contents =
      ((Cache.new lruPair (fun _ => 0) fun _ _ => 0).perform
        [.set [97] [49], .set [98] [50], .set [99] [51],
          .get ⟨1, 1⟩ [98]]).1.contents := by
  apply contents_sameConfig_perform lruPair (by decide) (fun _ => 0)
  simp [Along, Operation.steps, Watched.step, Watched.next, Watched.Covered,
    Watched.initial, KeyOp.Unrecorded, KeyOp.Overflows]

end Cache

end DistCache
