import DistCache.ShardUpdates

/-!
# What a shard keeps about its entries

A shard counts the memory of its entries and tells its policy which keys it
holds.  Both are kept step by step and never recomputed, so that they are exact
only because every operation keeps them so: the memory is the sum of the sizes
of the entries, and the policy knows every key that the shard holds.
-/

namespace DistCache

open DeadlineStore Eviction

/-! ## The keys that a policy knows -/

namespace Eviction

/-- The policy can propose the key for eviction.  `noeviction` keeps a count
only. -/
def Policy.Tracks (policy : Policy) (key : Key) : Prop :=
  match policy with
  | .noEviction _ => True
  | .lru p => key ∈ p.ll
  | .lfu p => key ∈ p.nodes
  | .fifo p => key ∈ p.ll
  | .random p => key ∈ p.idx
  | .ttl p => key ∈ p.eff

theorem mem_toFront {ll : List Key} {key other : Key} (hother : other ∈ ll) :
    other ∈ key :: ll.erase key := by
  by_cases heq : other = key
  · simp [heq]
  · exact List.mem_cons_of_mem key ((List.mem_erase_of_ne heq).mpr hother)

theorem Lfu.mem_nodes_access {p : Lfu} {key other : Key}
    (hother : other ∈ p.nodes) : other ∈ (p.access key).nodes := by
  unfold Lfu.access
  cases hlookup : p.nodes.lookup key with
  | none => exact hother
  | some old =>
      simp only [Lfu.putBucket]
      split_ifs <;> exact (AList.mem_insert _).mpr (Or.inr hother)

theorem Policy.tracks_access {policy : Policy} {key other : Key}
    (hother : policy.Tracks other) : (policy.access key).Tracks other := by
  cases policy with
  | noEviction p => exact hother
  | lru p =>
      simp only [Policy.access, Policy.Tracks, Lru.access]
      split_ifs
      · exact mem_toFront hother
      · exact hother
  | lfu p => exact Lfu.mem_nodes_access hother
  | fifo p => exact hother
  | random p => exact hother
  | ttl p => exact hother

theorem Policy.tracks_note {policy : Policy} {key other : Key} {expireAt : ℤ}
    (hother : policy.Tracks other) : (policy.note key expireAt).Tracks other := by
  cases policy with
  | ttl p => exact (AList.mem_insert _).mpr (Or.inr hother)
  | _ => exact hother

theorem Policy.tracks_add {policy : Policy} {key other : Key}
    (hother : other = key ∨ policy.Tracks other) : (policy.add key).Tracks other := by
  cases policy with
  | noEviction p => trivial
  | lru p =>
      rcases hother with rfl | hother
      · exact List.mem_cons_self
      · exact mem_toFront hother
  | lfu p =>
      simp only [Policy.add, Policy.Tracks, Lfu.add]
      split_ifs with hkey
      · rcases hother with rfl | hother
        · exact Lfu.mem_nodes_access hkey
        · exact Lfu.mem_nodes_access hother
      · exact (AList.mem_insert _).mpr hother
  | fifo p =>
      simp only [Policy.add, Policy.Tracks, Fifo.add]
      split_ifs with hkey
      · rcases hother with rfl | hother
        · exact hkey
        · exact hother
      · rcases hother with rfl | hother
        · simp
        · exact List.mem_append_left _ hother
  | random p =>
      simp only [Policy.add, Policy.Tracks, Random.add]
      split_ifs with hkey
      · rcases hother with rfl | hother
        · exact hkey
        · exact hother
      · exact (AList.mem_insert _).mpr hother
  | ttl p =>
      simp only [Policy.add, Policy.Tracks, Ttl.add]
      split_ifs with hkey
      · rcases hother with rfl | hother
        · exact hkey
        · exact hother
      · exact (AList.mem_insert _).mpr hother

theorem Random.mem_idx_remove {p : Random} {key other : Key}
    (hother : other ∈ p.idx) (hne : other ≠ key) :
    other ∈ (p.remove key).idx := by
  unfold Random.remove
  split
  · exact AList.mem_erase.mpr ⟨hne, (AList.mem_insert _).mpr (Or.inr hother)⟩
  · exact hother

theorem Policy.tracks_remove {policy : Policy} {key other : Key}
    (hother : policy.Tracks other) (hne : other ≠ key) :
    (policy.remove key).Tracks other := by
  cases policy with
  | noEviction p => trivial
  | lru p => exact (List.mem_erase_of_ne hne).mpr hother
  | lfu p =>
      simp only [Policy.remove, Policy.Tracks, Lfu.remove]
      cases hlookup : p.nodes.lookup key with
      | none => exact hother
      | some freq => exact AList.mem_erase.mpr ⟨hne, hother⟩
  | fifo p => exact (List.mem_erase_of_ne hne).mpr hother
  | random p => exact Random.mem_idx_remove hother hne
  | ttl p => exact AList.mem_erase.mpr ⟨hne, hother⟩

theorem Lfu.mem_nodes_evictFront {p : Lfu} {key : Key}
    (hkey : key ∈ p.nodes) (hne : p.evictFront.1 ≠ some key) :
    key ∈ p.evictFront.2.nodes := by
  unfold Lfu.evictFront at hne ⊢
  cases hbucket : p.bucket p.minFreq with
  | nil => exact hkey
  | cons first rest =>
      simp only [hbucket, ne_eq, Option.some.injEq] at hne
      exact AList.mem_erase.mpr ⟨Ne.symm hne, hkey⟩

theorem Ttl.mem_eff_evictLoop {fuel : ℕ} {p : Ttl} {key : Key}
    (hkey : key ∈ p.eff) (hne : (Ttl.evictLoop fuel p).1 ≠ some key) :
    key ∈ (Ttl.evictLoop fuel p).2.eff := by
  induction fuel generalizing p with
  | zero => exact hkey
  | succ fuel ih =>
      simp only [Ttl.evictLoop] at hne ⊢
      cases hpop : SliceHeap.pop TtlItem.less p.h with
      | none => exact hkey
      | some popped =>
          simp only [hpop] at hne ⊢
          split_ifs at hne ⊢ with hcurrent
          · simp only [ne_eq, Option.some.injEq] at hne
            exact AList.mem_erase.mpr ⟨Ne.symm hne, hkey⟩
          · exact ih hkey hne

theorem Policy.tracks_evict {policy : Policy} {key : Key}
    (hkey : policy.Tracks key) (hne : policy.evict.1 ≠ some key) :
    policy.evict.2.Tracks key := by
  cases policy with
  | noEviction p => trivial
  | lru p =>
      simp only [Policy.evict, Policy.Tracks, Lru.evict] at hkey hne ⊢
      cases hlast : p.ll.getLast? with
      | none => exact hkey
      | some last =>
          simp only [hlast, ne_eq, Option.some.injEq] at hne
          have hsplit : p.ll = p.ll.dropLast ++ [last] :=
            (List.dropLast_append_getLast? last hlast).symm
          rw [hsplit, List.mem_append, List.mem_singleton] at hkey
          exact hkey.resolve_right (Ne.symm hne)
  | lfu p =>
      simp only [Policy.evict, Policy.Tracks, Lfu.evict] at hkey hne ⊢
      split_ifs at hne ⊢
      · exact hkey
      · exact Lfu.mem_nodes_evictFront (p := p.recomputeMinFreq) hkey hne
      · exact Lfu.mem_nodes_evictFront hkey hne
  | fifo p =>
      simp only [Policy.evict, Policy.Tracks, Fifo.evict] at hkey hne ⊢
      cases hhead : p.ll.head? with
      | none => exact hkey
      | some first =>
          simp only [hhead, ne_eq, Option.some.injEq] at hne
          have hsplit : p.ll = first :: p.ll.tail :=
            (List.cons_head?_tail hhead).symm
          rw [hsplit, List.mem_cons] at hkey
          exact hkey.resolve_left (Ne.symm hne)
  | random p =>
      simp only [Policy.evict, Policy.Tracks, Random.evict] at hkey hne ⊢
      cases hfound : p.keys[p.rng p.draws % p.keys.length]? with
      | none => exact hkey
      | some found =>
          simp only [hfound, ne_eq, Option.some.injEq] at hne
          exact Random.mem_idx_remove hkey (Ne.symm hne)
  | ttl p => exact Ttl.mem_eff_evictLoop hkey hne

end Eviction

/-! ## Memory and tracked keys of a shard -/

def itemSize (key : Key) (it : Item) : ℤ := approxSize key it.value

theorem itemSize_nonneg (key : Key) (it : Item) : 0 ≤ itemSize key it :=
  Int.natCast_nonneg _

structure Shard.Kept (s : Shard) : Prop where
  mem_eq : s.mem = AListSum.weight itemSize s.items
  tracked : ∀ key, s.view key ≠ none → s.policy.Tracks key

namespace Shard.Kept

variable {s : Shard} {key : Key} {it : Item}

theorem mem_remove (hmem : s.mem = AListSum.weight itemSize s.items)
    (hlookup : s.items.lookup key = some it) :
    max (s.mem - approxSize key it.value) 0 =
      AListSum.weight itemSize (s.items.erase key) := by
  have hsum := AListSum.weight_of_lookup itemSize hlookup
  have hnonneg := AListSum.weight_nonneg itemSize_nonneg (s.items.erase key)
  have hsize : itemSize key it = approxSize key it.value := rfl
  rw [hmem, hsum, hsize, add_sub_cancel_left, max_eq_left hnonneg]

theorem view_erase_ne_none {other : Key}
    (hother : (s.items.erase key).lookup other ≠ none) :
    other ≠ key ∧ s.view other ≠ none := by
  by_cases heq : other = key
  · subst other
    exact absurd (AList.lookup_erase key s.items) hother
  · rw [AList.lookup_erase_ne heq] at hother
    exact ⟨heq, hother⟩

theorem view_insert_ne_none {other : Key}
    (hother : (s.items.insert key it).lookup other ≠ none) :
    other = key ∨ s.view other ≠ none := by
  by_cases heq : other = key
  · exact Or.inl heq
  · rw [AList.lookup_insert_ne heq] at hother
    exact Or.inr hother

theorem removeLocked (hkept : s.Kept) (hlookup : s.items.lookup key = some it) :
    (s.removeLocked key it).Kept := by
  constructor
  · exact mem_remove hkept.mem_eq hlookup
  · intro other hother
    obtain ⟨hne, hheld⟩ := view_erase_ne_none hother
    exact Policy.tracks_remove (hkept.tracked other hheld) hne

theorem setLocked (hkept : s.Kept) (key : Key) (value : Bytes) (expireAt : ℤ) :
    (s.setLocked key value expireAt).Kept := by
  have hinsert := AListSum.weight_insert itemSize key ⟨value, expireAt⟩ s.items
  unfold Shard.setLocked
  cases hlookup : s.items.lookup key with
  | none =>
      constructor
      · have herase := AListSum.weight_erase_of_lookup_none itemSize hlookup
        rw [herase] at hinsert
        simp only [hinsert, hkept.mem_eq, itemSize]
        ring
      · intro other hother
        apply Policy.tracks_note
        apply Policy.tracks_add
        rcases view_insert_ne_none hother with rfl | hheld
        · exact Or.inl rfl
        · exact Or.inr (hkept.tracked other hheld)
  | some old =>
      constructor
      · have hsum := AListSum.weight_of_lookup itemSize hlookup
        simp only [hinsert, hkept.mem_eq, hsum, itemSize, approxSize]
        push_cast
        ring
      · intro other hother
        apply Policy.tracks_note
        apply Policy.tracks_access
        rcases view_insert_ne_none hother with rfl | hheld
        · apply hkept.tracked
          simp [Shard.view, hlookup]
        · exact hkept.tracked other hheld

theorem retime (hkept : s.Kept) (hlookup : s.items.lookup key = some it)
    (expireAt : ℤ) : (s.retime key it expireAt).Kept := by
  constructor
  · have hsum := AListSum.weight_of_lookup itemSize hlookup
    simp only [Shard.retime, AListSum.weight_insert]
    exact hkept.mem_eq.trans hsum
  · intro other hother
    apply Policy.tracks_note
    rcases view_insert_ne_none hother with rfl | hheld
    · apply hkept.tracked
      simp [Shard.view, hlookup]
    · exact hkept.tracked other hheld

theorem access (hkept : s.Kept) (key : Key) :
    ({ s with policy := s.policy.access key } : Shard).Kept :=
  ⟨hkept.mem_eq, fun other hother => Policy.tracks_access (hkept.tracked other hother)⟩

theorem flushSilent (s : Shard) : s.flushSilent.Kept :=
  ⟨rfl, fun other hother => absurd (AList.lookup_empty other) hother⟩

theorem new (policy : Policy) (maxEntries maxMemory : ℤ) :
    (Shard.new policy maxEntries maxMemory).Kept :=
  ⟨rfl, fun other hother => absurd (AList.lookup_empty other) hother⟩

/-! ## Every operation keeps the books -/

theorem dropVictim {victim : Key} (hkept : s.Kept) (hevict : s.policy.evict.1 = some victim)
    (hlookup : s.items.lookup victim = some it) :
    (({ s with policy := s.policy.evict.2 } : Shard).dropVictim victim it).Kept := by
  refine ⟨mem_remove hkept.mem_eq hlookup, fun other hother => ?_⟩
  obtain ⟨hne, hheld⟩ := view_erase_ne_none hother
  apply Policy.tracks_evict (hkept.tracked other hheld)
  rw [hevict]
  simpa using Ne.symm hne

theorem update {next : Shard} (hkept : s.Kept) (hupdate : s.Update AnyEntry next) :
    next.Kept := by
  cases hupdate with
  | remove key it hlookup _ => exact hkept.removeLocked hlookup
  | store key value expireAt => exact hkept.setLocked key value expireAt
  | retime key it expireAt hlookup => exact hkept.retime hlookup expireAt
  | access key => exact hkept.access key
  | flush => exact flushSilent s
  | giveUp hevict =>
      refine ⟨hkept.mem_eq, fun other hother => ?_⟩
      apply Policy.tracks_evict (hkept.tracked other hother)
      rw [hevict]
      exact Option.some_ne_none other ∘ Eq.symm
  | spare victim hevict =>
      refine ⟨hkept.mem_eq, fun other hother => ?_⟩
      apply Policy.tracks_add
      by_cases heq : other = victim
      · exact Or.inl heq
      · right
        apply Policy.tracks_evict (hkept.tracked other hother)
        rw [hevict]
        simpa using Ne.symm heq
  | drop victim it hevict hlookup _ => exact hkept.dropVictim hevict hlookup
  | skip victim hevict hlookup =>
      refine ⟨hkept.mem_eq, fun other hother => ?_⟩
      apply Policy.tracks_evict (hkept.tracked other hother)
      rw [hevict]
      rintro heq
      cases heq
      exact hother hlookup

theorem run {L : Layout} (hkept : s.Kept) (clock : Clock) (op : KeyOp L) :
    (op.run clock s).shard.Kept := by
  rw [KeyOp.shard_run]
  exact ShardOp.runAll_invariant (fun _ _ hs hupdate => hs.update hupdate) hkept _

end Shard.Kept

end DistCache
