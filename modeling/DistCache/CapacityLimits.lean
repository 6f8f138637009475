import DistCache.ShardAccounts

/-!
# The limits of a shard

After a write the shard asks its policy for victims until it is within its limits, and
stops as soon as the policy proposes the key that has just been written.  The shard ends
within its limits, or with the written key alone, exactly if the keys that stand before
the written one in the order of the policy are enough.
-/

namespace DistCache

open DeadlineStore Eviction

/-! ## The order in which a policy gives up its keys -/

namespace Eviction

def Policy.proposals : ℕ → Policy → List Key
  | 0, _ => []
  | fuel + 1, policy =>
      match policy.evict.1 with
      | none => []
      | some victim => victim :: Policy.proposals fuel policy.evict.2

def Policy.order (policy : Policy) : List Key := policy.proposals policy.supply

theorem Policy.evict_of_supply_eq_zero {policy : Policy} (hsupply : policy.supply = 0) :
    policy.evict.1 = none := by
  cases hevict : policy.evict.1 with
  | none => rfl
  | some victim =>
      have hless := Policy.supply_evict hevict
      omega

theorem Policy.proposals_eq {first second : ℕ} {policy : Policy}
    (hfirst : policy.supply ≤ first) (hsecond : policy.supply ≤ second) :
    policy.proposals first = policy.proposals second := by
  induction first generalizing second policy with
  | zero =>
      have hnone := Policy.evict_of_supply_eq_zero (Nat.le_zero.mp hfirst)
      cases second with
      | zero => rfl
      | succ second => simp only [Policy.proposals, hnone]
  | succ first ih =>
      cases second with
      | zero =>
          have hnone := Policy.evict_of_supply_eq_zero (Nat.le_zero.mp hsecond)
          simp only [Policy.proposals, hnone]
      | succ second =>
          simp only [Policy.proposals]
          cases hevict : policy.evict.1 with
          | none => rfl
          | some victim =>
              have hless := Policy.supply_evict hevict
              have hrest : policy.evict.2.proposals first = policy.evict.2.proposals second :=
                ih (by omega) (by omega)
              simp only [hrest]

theorem Policy.order_of_none {policy : Policy} (hevict : policy.evict.1 = none) :
    policy.order = [] := by
  rw [Policy.order, Policy.proposals_eq le_rfl (Nat.le_succ _)]
  simp only [Policy.proposals, hevict]

theorem Policy.order_of_some {policy : Policy} {victim : Key}
    (hevict : policy.evict.1 = some victim) :
    policy.order = victim :: policy.evict.2.order := by
  have hless := Policy.supply_evict hevict
  rw [Policy.order, Policy.proposals_eq le_rfl (Nat.le_succ _)]
  simp only [Policy.proposals, hevict]
  rw [Policy.order, Policy.proposals_eq hless.le le_rfl]

theorem Policy.eq_lru_of_kind {policy : Policy} (hkind : policy.kind = .lru) :
    ∃ p, policy = .lru p := by
  cases policy with
  | lru p => exact ⟨p, rfl⟩
  | _ => simp [Policy.kind] at hkind

end Eviction

namespace Shard

variable {s : Shard} {key : Key}

/-! ## Dropping keys -/

def dropAll (s : Shard) (victims : List Key) : Shard :=
  victims.foldl (fun s victim =>
    match s.items.lookup victim with
    | none => s
    | some it => s.dropVictim victim it) s

theorem dropAll_cons (s : Shard) (victim : Key) (rest : List Key) :
    s.dropAll (victim :: rest) =
      (match s.items.lookup victim with
        | none => s
        | some it => s.dropVictim victim it).dropAll rest := rfl

theorem dropAll_append (s : Shard) (first second : List Key) :
    s.dropAll (first ++ second) = (s.dropAll first).dropAll second :=
  List.foldl_append

theorem dropAll_policy (s : Shard) (policy : Policy) (victims : List Key) :
    ({ s with policy := policy } : Shard).dropAll victims =
      { s.dropAll victims with policy := policy } := by
  induction victims generalizing s with
  | nil => rfl
  | cons victim rest ih =>
      rw [dropAll_cons, dropAll_cons]
      cases hlookup : s.items.lookup victim with
      | none => exact ih s
      | some it => exact ih (s.dropVictim victim it)

theorem dropAll_of_drop {victim : Key} {it : Item} (hlookup : s.items.lookup victim = some it)
    (policy : Policy) (rest : List Key) :
    (({ s with policy := policy } : Shard).dropVictim victim it).dropAll rest =
      { s.dropAll (victim :: rest) with policy := policy } := by
  rw [dropAll_cons, hlookup]
  exact dropAll_policy (s.dropVictim victim it) policy rest

theorem mem_dropAll (s : Shard) (victims : List Key) (key : Key) :
    key ∈ (s.dropAll victims).items ↔ key ∈ s.items ∧ key ∉ victims := by
  induction victims generalizing s with
  | nil => simp [dropAll]
  | cons victim rest ih =>
      rw [dropAll_cons, ih]
      cases hlookup : s.items.lookup victim with
      | none =>
          have habsent : victim ∉ s.items := AList.lookup_eq_none.mp hlookup
          simp only [List.mem_cons, not_or]
          constructor
          · rintro ⟨hmem, hrest⟩
            refine ⟨hmem, ?_, hrest⟩
            rintro rfl
            exact habsent hmem
          · rintro ⟨hmem, _, hrest⟩
            exact ⟨hmem, hrest⟩
      | some it =>
          simp only [dropVictim, AList.mem_erase, List.mem_cons, not_or]
          tauto

theorem dropAll_limits (s : Shard) (victims : List Key) :
    (s.dropAll victims).maxEntries = s.maxEntries ∧
      (s.dropAll victims).maxMemory = s.maxMemory := by
  induction victims generalizing s with
  | nil => exact ⟨rfl, rfl⟩
  | cons victim rest ih =>
      rw [dropAll_cons]
      cases s.items.lookup victim with
      | none => exact ih s
      | some it => exact ih (s.dropVictim victim it)

theorem not_over_dropVictim {it : Item} (hwithin : ¬ s.OverCapacity) :
    ¬ (s.dropVictim key it).OverCapacity := by
  have hlength : (s.items.erase key).keys.length ≤ s.items.keys.length := by
    have hsubset : (s.items.erase key).keys ⊆ s.items.keys := by
      intro other hother
      exact (AList.mem_erase.mp hother).2
    exact ((s.items.erase key).nodupKeys.subperm hsubset).length_le
  have hsize : 0 ≤ approxSize key it.value := Int.natCast_nonneg _
  unfold OverCapacity at hwithin ⊢
  simp only [dropVictim]
  omega

theorem not_over_dropAll (victims : List Key) (hwithin : ¬ s.OverCapacity) :
    ¬ (s.dropAll victims).OverCapacity := by
  induction victims generalizing s with
  | nil => exact hwithin
  | cons victim rest ih =>
      rw [dropAll_cons]
      cases s.items.lookup victim with
      | none => exact ih hwithin
      | some it => exact ih (not_over_dropVictim hwithin)

/-! ## What the loop achieves -/

def ahead (s : Shard) (key : Key) : List Key := s.policy.order.takeWhile (· ≠ key)

/-- The shard is within its limits, or the key is the only one left in it. -/
def Capped (s : Shard) (key : Key) : Prop :=
  ((s.len : ℤ) ≤ s.maxEntries ∧ (s.maxMemory ≠ 0 → s.mem ≤ s.maxMemory)) ∨
    s.items.keys = [key]

instance (s : Shard) (key : Key) : Decidable (s.Capped key) :=
  inferInstanceAs (Decidable (_ ∨ _))

theorem capped_iff (hentries : 1 ≤ s.maxEntries) (hmemory : 0 ≤ s.maxMemory) :
    s.Capped key ↔ ¬ s.OverCapacity ∨ s.items.keys = [key] := by
  unfold Capped OverCapacity len
  constructor
  · rintro (hwithin | halone)
    · exact Or.inl (by omega)
    · exact Or.inr halone
  · rintro (hwithin | halone)
    · exact Or.inl (by omega)
    · exact Or.inr halone

theorem Exact.lookup_of_evict (hexact : s.Exact) {victim : Key}
    (hevict : s.policy.evict.1 = some victim) : ∃ it, s.items.lookup victim = some it := by
  have hheld : victim ∈ s.items := (hexact.evict hevict).1
  exact Option.isSome_iff_exists.mp (AList.lookup_isSome.mpr hheld)

theorem ahead_of_drop {victim : Key} (hevict : s.policy.evict.1 = some victim)
    (hne : victim ≠ key) (it : Item) :
    s.ahead key = victim ::
      (({ s with policy := s.policy.evict.2 } : Shard).dropVictim victim it).ahead key := by
  rw [ahead, Policy.order_of_some hevict, List.takeWhile_cons_of_pos (by simpa using hne)]
  rfl

/-- The loop drops the first of the keys that stand before the written one, and
stops only when the shard is within its limits or they are used up. -/
theorem enforceLimitsLocked_eq_dropAll (hexact : s.Exact)
    (hkind : s.policy.kind ≠ .noEviction) (hkey : key ∈ s.items.keys) :
    ∃ n policy, (s.enforceLimitsLocked key).1 =
        { s.dropAll ((s.ahead key).take n) with policy := policy } ∧
      (¬ (s.enforceLimitsLocked key).1.OverCapacity ∨ (s.ahead key).length ≤ n) := by
  induction hsupply : s.policy.supply using Nat.strongRecOn generalizing s with
  | ind supply ih =>
      by_cases hover : s.OverCapacity
      · cases hevict : s.policy.evict.1 with
        | none =>
            have hnil := (hexact.follows.evict_none hevict).2 hkind
            rw [hnil] at hkey
            exact absurd hkey List.not_mem_nil
        | some victim =>
            by_cases hvictim : victim = key
            · subst victim
              have hahead : s.ahead key = [] := by
                simp [ahead, Policy.order_of_some hevict]
              rw [enforceLimitsLocked_of_spare hover hevict]
              exact ⟨0, _, rfl, Or.inr (by simp [hahead])⟩
            · obtain ⟨it, hlookup⟩ := hexact.lookup_of_evict hevict
              let after := ({ s with policy := s.policy.evict.2 } : Shard).dropVictim victim it
              have hafter : after.Exact :=
                hexact.update (.drop victim it hevict hlookup trivial)
              have hstill : key ∈ after.items.keys := by
                rw [← AList.mem_keys]
                exact AList.mem_erase.mpr ⟨Ne.symm hvictim, AList.mem_keys.mpr hkey⟩
              have hless : after.policy.supply < supply := by
                rw [← hsupply]
                exact Policy.supply_evict hevict
              have hsame : after.policy.kind ≠ .noEviction := by
                rw [← s.policy.kind_evict] at hkind
                exact hkind
              obtain ⟨n, policy, heq, hstop⟩ := ih _ hless hafter hsame hstill rfl
              rw [enforceLimitsLocked_of_drop hover hevict hvictim hlookup,
                ahead_of_drop hevict hvictim it]
              refine ⟨n + 1, policy, ?_, hstop.imp id Nat.succ_le_succ⟩
              rw [dropAll_of_drop hlookup] at heq
              exact heq
      · rw [enforceLimitsLocked_of_not_over hover]
        exact ⟨0, s.policy, rfl, Or.inl hover⟩

/-- The loop ends within the limits, or with the written key alone, exactly if
the keys that stand before the written one are enough. -/
theorem capped_enforceLimitsLocked (hexact : s.Exact)
    (hkind : s.policy.kind ≠ .noEviction) (hkey : key ∈ s.items.keys) :
    (¬ (s.enforceLimitsLocked key).1.OverCapacity ∨
        (s.enforceLimitsLocked key).1.items.keys = [key]) ↔
      (¬ (s.dropAll (s.ahead key)).OverCapacity ∨
        (s.dropAll (s.ahead key)).items.keys = [key]) := by
  obtain ⟨n, policy, heq, hstop⟩ := enforceLimitsLocked_eq_dropAll hexact hkind hkey
  have hsplit : s.dropAll (s.ahead key) =
      (s.dropAll ((s.ahead key).take n)).dropAll ((s.ahead key).drop n) := by
    rw [← dropAll_append, List.take_append_drop]
  by_cases hall : (s.ahead key).length ≤ n
  · rw [heq, List.take_of_length_le hall]
    rfl
  · have hwithin := hstop.resolve_right hall
    have hdropped : ¬ (s.dropAll (s.ahead key)).OverCapacity := by
      rw [heq] at hwithin
      rw [hsplit]
      exact not_over_dropAll _ hwithin
    exact iff_of_true (Or.inl hwithin) (Or.inl hdropped)

/-! ## A recently used key is given up last -/

theorem lru_setLocked (hexact : s.Exact) {p : Lru} (hpolicy : s.policy = .lru p)
    (key : Key) (value : Bytes) (expireAt : ℤ) :
    ∃ q : Lru, (s.setLocked key value expireAt).policy = .lru q ∧
      q.ll = key :: p.ll.erase key := by
  unfold setLocked
  cases hlookup : s.items.lookup key with
  | none => exact ⟨p.add key, by rw [hpolicy]; rfl, rfl⟩
  | some old =>
      have hheld : key ∈ p.ll := by
        have htracks := hexact.kept.tracked key (by simp [view, hlookup])
        rw [hpolicy] at htracks
        exact htracks
      refine ⟨p.access key, by rw [hpolicy]; rfl, ?_⟩
      simp only [Lru.access, if_pos hheld]

theorem keys_eq_singleton (hkey : key ∈ s.items.keys)
    (honly : ∀ other ∈ s.items.keys, other = key) : s.items.keys = [key] := by
  have hperm : s.items.keys.Perm [key] := by
    rw [List.perm_ext_iff_of_nodup s.items.keys_nodup (List.nodup_singleton key)]
    intro other
    rw [List.mem_singleton]
    constructor
    · exact honly other
    · rintro rfl
      exact hkey
  exact List.perm_singleton.mp hperm

theorem keys_eq_singleton_of_length (hkey : key ∈ s.items.keys)
    (hlength : s.items.keys.length ≤ 1) : s.items.keys = [key] := by
  have hone := le_antisymm hlength (List.length_pos_of_mem hkey)
  obtain ⟨only, honly⟩ := List.length_eq_one_iff.mp hone
  rw [honly, List.mem_singleton] at hkey
  rw [honly, hkey]

/-! ## Operations that do not store -/

structure Settled (s : Shard) : Prop where
  mem_nonneg : 0 ≤ s.mem
  bound : ¬ s.OverCapacity ∨ s.items.keys.length ≤ 1

theorem Exact.mem_nonneg (hexact : s.Exact) : 0 ≤ s.mem := by
  rw [hexact.kept.mem_eq]
  exact AListSum.weight_nonneg itemSize_nonneg s.items

theorem Settled.of_le {next : Shard} (hsettled : s.Settled)
    (hkeys : next.items.keys ⊆ s.items.keys) (hnonneg : 0 ≤ next.mem) (hmem : next.mem ≤ s.mem)
    (hentries : next.maxEntries = s.maxEntries) (hmemory : next.maxMemory = s.maxMemory) :
    next.Settled := by
  have hlength : next.items.keys.length ≤ s.items.keys.length :=
    (next.items.keys_nodup.subperm hkeys).length_le
  refine ⟨hnonneg, ?_⟩
  rcases hsettled.bound with hwithin | hone
  · left
    unfold OverCapacity at hwithin ⊢
    rw [hentries, hmemory]
    omega
  · exact Or.inr (hlength.trans hone)

theorem Settled.removeLocked (hsettled : s.Settled) (key : Key) (it : Item) :
    (s.removeLocked key it).Settled := by
  have hnonneg := hsettled.mem_nonneg
  have hsize : 0 ≤ approxSize key it.value := Int.natCast_nonneg _
  apply hsettled.of_le
  · intro other hother
    exact (AList.mem_erase.mp hother).2
  · exact le_max_right _ _
  · simp only [Shard.removeLocked]
    omega
  · rfl
  · rfl

theorem Settled.retime (hsettled : s.Settled) {it : Item}
    (hlookup : s.items.lookup key = some it) (expireAt : ℤ) :
    (s.retime key it expireAt).Settled := by
  apply hsettled.of_le
  · intro other hother
    rcases AList.mem_insert (s := s.items).mp hother with rfl | hheld
    · exact mem_keys_of_lookup hlookup
    · exact hheld
  · exact hsettled.mem_nonneg
  · exact le_rfl
  · rfl
  · rfl

theorem Settled.access (hsettled : s.Settled) (key : Key) :
    ({ s with policy := s.policy.access key } : Shard).Settled :=
  ⟨hsettled.mem_nonneg, hsettled.bound⟩

theorem Settled.flushSilent (hsettled : s.Settled) : s.flushSilent.Settled :=
  hsettled.of_le (List.nil_subset _) le_rfl hsettled.mem_nonneg rfl rfl

theorem Settled.shrink {next : Shard} (hsettled : s.Settled) (hshrink : s.Shrink next) :
    next.Settled := by
  cases hshrink with
  | remove key it _ => exact hsettled.removeLocked key it
  | retime key it expireAt hlookup => exact hsettled.retime hlookup expireAt
  | flush => exact hsettled.flushSilent

theorem Settled.shrinks {next : Shard} (hsettled : s.Settled) (hshrinks : s.Shrinks next) :
    next.Settled :=
  hshrinks.invariant (fun _ _ hs hshrink => hs.shrink hshrink) hsettled

end Shard

namespace ShardOp

def writes : ShardOp → Option Key
  | .set key _ _ => some key
  | .incrBy key _ _ => some key
  | .applySet key _ _ => some key
  | _ => none

end ShardOp
end DistCache
