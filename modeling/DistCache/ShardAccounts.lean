import DistCache.PolicyBooks

/-!
# The books of a shard are exact

The memory counter of a shard is the sum of the sizes of its entries, and its
policy follows the keys of its map.  Every update keeps this, so that it holds
after every sequence of operations, for every policy and every pair of limits.
It follows that a subtraction from the counter is never cut off at zero: the
size of an entry is part of the sum.
-/

namespace DistCache

open DeadlineStore Eviction

/-! ## The configuration of a shard never changes -/

namespace Eviction

@[simp] theorem Policy.kind_new (rng : ℕ → ℕ) (kind : Kind) : (new rng kind).kind = kind := by
  cases kind <;> rfl

@[simp] theorem Policy.kind_add (policy : Policy) (key : Key) :
    (policy.add key).kind = policy.kind := by
  cases policy <;> rfl

@[simp] theorem Policy.kind_access (policy : Policy) (key : Key) :
    (policy.access key).kind = policy.kind := by
  cases policy <;> rfl

@[simp] theorem Policy.kind_remove (policy : Policy) (key : Key) :
    (policy.remove key).kind = policy.kind := by
  cases policy <;> rfl

@[simp] theorem Policy.kind_note (policy : Policy) (key : Key) (expireAt : ℤ) :
    (policy.note key expireAt).kind = policy.kind := by
  cases policy <;> rfl

@[simp] theorem Policy.kind_evict (policy : Policy) : policy.evict.2.kind = policy.kind := by
  cases policy <;> rfl

theorem Policy.kind_foldl_remove (policy : Policy) (keys : List Key) :
    (keys.foldl Policy.remove policy).kind = policy.kind := by
  induction keys generalizing policy with
  | nil => rfl
  | cons key rest ih => rw [List.foldl_cons, ih, Policy.kind_remove]

theorem Policy.Follows.foldl_remove {policy : Policy} {keys : List Key}
    (hfollows : policy.Follows keys) : (keys.foldl Policy.remove policy).Follows [] := by
  induction keys generalizing policy with
  | nil => exact hfollows
  | cons key rest ih =>
      have hremoved := hfollows.remove List.mem_cons_self
      rw [List.erase_cons_head] at hremoved
      exact ih hremoved

end Eviction

namespace Shard

structure Configured (kind : Kind) (maxEntries maxMemory : ℤ) (s : Shard) : Prop where
  kind_eq : s.policy.kind = kind
  maxEntries_eq : s.maxEntries = maxEntries
  maxMemory_eq : s.maxMemory = maxMemory

theorem configured_new (rng : ℕ → ℕ) (kind : Kind) (maxEntries maxMemory : ℤ) :
    (new (Eviction.new rng kind) maxEntries maxMemory).Configured kind maxEntries maxMemory :=
  ⟨Policy.kind_new rng kind, rfl, rfl⟩

variable {s next : Shard}

theorem Configured.update {kind : Kind} {maxEntries maxMemory : ℤ}
    (hconfigured : s.Configured kind maxEntries maxMemory)
    (hupdate : s.Update AnyEntry next) : next.Configured kind maxEntries maxMemory := by
  obtain ⟨hkind, hentries, hmemory⟩ := hconfigured
  cases hupdate with
  | remove key it hlookup _ => exact ⟨(s.policy.kind_remove key).trans hkind, hentries, hmemory⟩
  | store key value expireAt =>
      unfold setLocked
      cases s.items.lookup key with
      | none =>
          refine ⟨?_, hentries, hmemory⟩
          rw [Policy.kind_note, Policy.kind_add, hkind]
      | some old =>
          refine ⟨?_, hentries, hmemory⟩
          rw [Policy.kind_note, Policy.kind_access, hkind]
  | retime key it expireAt hlookup =>
      exact ⟨(s.policy.kind_note key expireAt).trans hkind, hentries, hmemory⟩
  | access key => exact ⟨(s.policy.kind_access key).trans hkind, hentries, hmemory⟩
  | flush => exact ⟨(s.policy.kind_foldl_remove _).trans hkind, hentries, hmemory⟩
  | giveUp hevict => exact ⟨s.policy.kind_evict.trans hkind, hentries, hmemory⟩
  | spare victim hevict =>
      refine ⟨?_, hentries, hmemory⟩
      rw [Policy.kind_add, Policy.kind_evict, hkind]
  | drop victim it hevict hlookup _ => exact ⟨s.policy.kind_evict.trans hkind, hentries, hmemory⟩
  | skip victim hevict hlookup => exact ⟨s.policy.kind_evict.trans hkind, hentries, hmemory⟩

/-! ## The invariant -/

structure Exact (s : Shard) : Prop where
  kept : s.Kept
  follows : s.policy.Follows s.items.keys

def NotClamped (s : Shard) (key : Key) (it : Item) : Prop :=
  0 ≤ s.mem - approxSize key it.value

theorem mem_keys_of_lookup {key : Key} {it : Item} (hlookup : s.items.lookup key = some it) :
    key ∈ s.items.keys := by
  rw [← AList.mem_keys, ← AList.lookup_isSome, hlookup]
  rfl

theorem exact_new (rng : ℕ → ℕ) (kind : Kind) (maxEntries maxMemory : ℤ) :
    (new (Eviction.new rng kind) maxEntries maxMemory).Exact :=
  ⟨.new _ _ _, Policy.follows_new rng kind⟩

theorem Exact.follows_setLocked (hexact : s.Exact) (key : Key) (value : Bytes)
    (expireAt : ℤ) :
    (s.setLocked key value expireAt).policy.Follows
      (s.setLocked key value expireAt).items.keys := by
  unfold setLocked
  cases hlookup : s.items.lookup key with
  | none =>
      have hnew : key ∉ s.items.keys := by
        rw [← AList.mem_keys]
        exact AList.lookup_eq_none.mp hlookup
      have hadded := (hexact.follows.add hnew).note List.mem_cons_self expireAt
      exact hadded.perm (perm_insert_new (.refl _) hnew _).symm
  | some old =>
      have hkey := mem_keys_of_lookup hlookup
      have hnoted := (hexact.follows.access key).note hkey expireAt
      exact hnoted.perm (perm_insert (.refl _) hkey _).symm

theorem Exact.evict (hexact : s.Exact) {victim : Key}
    (hevict : s.policy.evict.1 = some victim) :
    victim ∈ s.items.keys ∧ s.policy.evict.2.Follows (s.items.erase victim).keys := by
  obtain ⟨hmem, hfollows⟩ := hexact.follows.evict_some hevict
  exact ⟨hmem, hfollows.perm (perm_erase (.refl _) victim).symm⟩

theorem Exact.update (hexact : s.Exact) (hupdate : s.Update AnyEntry next) : next.Exact := by
  refine ⟨hexact.kept.update hupdate, ?_⟩
  cases hupdate with
  | remove key it hlookup _ =>
      have hremoved := hexact.follows.remove (mem_keys_of_lookup hlookup)
      exact hremoved.perm (perm_erase (.refl _) key).symm
  | store key value expireAt => exact hexact.follows_setLocked key value expireAt
  | retime key it expireAt hlookup =>
      have hkey := mem_keys_of_lookup hlookup
      exact (hexact.follows.note hkey expireAt).perm (perm_insert (.refl _) hkey _).symm
  | access key => exact hexact.follows.access key
  | flush => exact hexact.follows.foldl_remove
  | giveUp hevict => exact (hexact.follows.evict_none hevict).1
  | spare victim hevict =>
      obtain ⟨hmem, hfollows⟩ := hexact.follows.evict_some hevict
      have hgone : victim ∉ s.items.keys.erase victim := s.items.keys_nodup.not_mem_erase
      exact (hfollows.add hgone).perm (List.perm_cons_erase hmem).symm
  | drop victim it hevict hlookup _ => exact (hexact.evict hevict).2
  | skip victim hevict hlookup =>
      have hmem := (hexact.evict hevict).1
      rw [← AList.mem_keys] at hmem
      exact absurd hmem (AList.lookup_eq_none.mp hlookup)

theorem Exact.notClamped (hexact : s.Exact) {key : Key} {it : Item}
    (hlookup : s.items.lookup key = some it) : s.NotClamped key it := by
  have hsum := AListSum.weight_of_lookup itemSize hlookup
  have hnonneg := AListSum.weight_nonneg itemSize_nonneg (s.items.erase key)
  have hsize : itemSize key it = approxSize key it.value := rfl
  unfold NotClamped
  rw [hexact.kept.mem_eq, hsum, hsize]
  omega

theorem Exact.runAll (hexact : s.Exact) (ops : List ShardOp) :
    (ShardOp.runAll s ops).Exact :=
  ShardOp.runAll_invariant (fun _ _ hs hupdate => Exact.update hs hupdate) hexact ops

theorem Configured.runAll {kind : Kind} {maxEntries maxMemory : ℤ}
    (hconfigured : s.Configured kind maxEntries maxMemory) (ops : List ShardOp) :
    (ShardOp.runAll s ops).Configured kind maxEntries maxMemory :=
  ShardOp.runAll_invariant (fun _ _ hs hupdate => Configured.update hs hupdate) hconfigured ops

/-- After any operations the memory counter, the length of the policy and the
keys that it tracks are those of the map, and the next operation takes out no
entry at which the counter would have to be cut off. -/
theorem books_exact (kind : Kind) (rng : ℕ → ℕ) (maxEntries maxMemory : ℤ)
    (ops : List ShardOp) :
    let s := ShardOp.runAll (new (Eviction.new rng kind) maxEntries maxMemory) ops
    s.mem = (s.items.entries.map fun entry =>
        ((entry.1.length + entry.2.value.length + 64 : ℕ) : ℤ)).sum ∧
      s.policy.len = s.len ∧
      (kind ≠ .noEviction → ∀ key, s.policy.Tracks key ↔ key ∈ s.items) ∧
      ∀ op, s.Reaches NotClamped (ShardOp.run s op) := by
  intro s
  have hexact : s.Exact := (exact_new rng kind maxEntries maxMemory).runAll ops
  have hconfigured : s.Configured kind maxEntries maxMemory :=
    (configured_new rng kind maxEntries maxMemory).runAll ops
  refine ⟨hexact.kept.mem_eq, hexact.follows.length_eq, ?_, ?_⟩
  · intro hkind key
    have hevicting : s.policy.kind ≠ .noEviction := by
      rw [hconfigured.kind_eq]
      exact hkind
    rw [hexact.follows.tracks_iff hevicting, AList.mem_keys]
  · intro op
    exact (ShardOp.reaches_run s op).strengthen (fun _ _ hs hupdate => Exact.update hs hupdate)
      (fun _ _ _ hs hlookup => Exact.notClamped hs hlookup) hexact

end Shard
end DistCache
