import DistCache.TxnCalls
import DistCache.WatchedKeys

/-!
# The maps of the coordinator

What the loops of the coordinator do to its two maps, key by key: `Watch` counts
the keys that are new to a transaction, `release` takes one from every count and
deletes what nobody watches, and an event counts up the versions of the watched
keys that it concerns.  The maps hold no other keys.

The connections of the server are modelled with counters instead of maps; the
maps hold these counters, the versions up to their 64 bits.
-/

namespace DistCache
namespace TxnCalls

open RefCounts

def Concerns (ev : Event) (key : Key) : Prop := ev.op = .opFlush ∨ ev.key ≠ [] ∧ ev.key = key

instance (ev : Event) (key : Key) : Decidable (Concerns ev key) :=
  inferInstanceAs (Decidable (_ ∨ _))

namespace Coordinator

variable {F : Type*} {co : Coordinator} {key other : Key}

structure Tidy (co : Coordinator) : Prop where
  watchers : ∀ key ∈ co.watchers, 0 < co.count key
  versions : ∀ key ∈ co.versions, 0 < co.count key

/-! ## Events -/

theorem version_bump (co : Coordinator) (key other : Key) :
    (co.bump key).version other =
      if other = key then co.version other + 1 else co.version other := by
  by_cases hother : other = key
  · subst hother
    simp [bump, version]
  · simp [bump, version, hother, AList.lookup_insert_ne hother]

theorem watchers_foldl_bump (co : Coordinator) (keys : List Key) :
    (keys.foldl bump co).watchers = co.watchers := by
  induction keys generalizing co with
  | nil => rfl
  | cons first rest ih => rw [List.foldl_cons, ih, bump]

theorem version_foldl_bump {keys : List Key} (hnodup : keys.Nodup) (co : Coordinator)
    (other : Key) : (keys.foldl bump co).version other =
      if other ∈ keys then co.version other + 1 else co.version other := by
  induction keys generalizing co with
  | nil => simp
  | cons first rest ih =>
      obtain ⟨hfirst, hrest⟩ := List.nodup_cons.mp hnodup
      rw [List.foldl_cons, ih hrest, version_bump]
      by_cases hother : other = first
      · subst hother
        simp [hfirst]
      · simp [hother]

theorem mem_versions_foldl_bump {keys : List Key} (co : Coordinator)
    (hmem : other ∈ (keys.foldl bump co).versions) : other ∈ co.versions ∨ other ∈ keys := by
  induction keys generalizing co with
  | nil => exact Or.inl hmem
  | cons first rest ih =>
      rcases ih (co.bump first) hmem with hfirst | hrest
      · rw [bump, AList.mem_insert] at hfirst
        rcases hfirst with rfl | hold
        · exact Or.inr List.mem_cons_self
        · exact Or.inl hold
      · exact Or.inr (List.mem_cons_of_mem first hrest)

theorem watchers_onEvent (co : Coordinator) (ev : Event) :
    (co.onEvent ev).watchers = co.watchers := by
  unfold onEvent
  split_ifs
  · exact watchers_foldl_bump co co.watchers.keys
  · rfl
  · rfl

theorem count_onEvent (co : Coordinator) (ev : Event) (key : Key) :
    (co.onEvent ev).count key = co.count key := by
  rw [count, watchers_onEvent, count]

theorem mem_watchers_of_pos (hpos : 0 < co.count key) : key ∈ co.watchers := by
  rw [← AList.lookup_isSome]
  unfold count at hpos
  cases hlookup : co.watchers.lookup key with
  | none => simp [hlookup] at hpos
  | some n => rfl

theorem Tidy.mem_watchers_iff (htidy : co.Tidy) (key : Key) :
    key ∈ co.watchers ↔ 0 < co.count key :=
  ⟨htidy.watchers key, mem_watchers_of_pos⟩

theorem version_onEvent (htidy : co.Tidy) (ev : Event) (key : Key) :
    (co.onEvent ev).version key =
      if 0 < co.count key ∧ Concerns ev key then co.version key + 1 else co.version key := by
  unfold onEvent
  by_cases hflush : ev.op = .opFlush
  · have hconcerns : Concerns ev key := Or.inl hflush
    have hmem : key ∈ co.watchers.keys ↔ 0 < co.count key := htidy.mem_watchers_iff key
    rw [if_pos hflush, version_foldl_bump co.watchers.keys_nodup]
    simp only [hmem, hconcerns, and_true]
  · rw [if_neg hflush]
    by_cases hkey : ev.key = key
    · subst hkey
      have hconcerns : Concerns ev ev.key ↔ ev.key ≠ [] := by
        simp [Concerns, hflush]
      simp only [hconcerns]
      by_cases hcounted : ev.key ≠ [] ∧ 0 < co.count ev.key
      · rw [if_pos hcounted, if_pos hcounted.symm, version_bump, if_pos rfl]
      · rw [if_neg hcounted, if_neg fun h => hcounted h.symm]
    · have hnot : ¬ Concerns ev key := by
        rintro (hflush' | hkey')
        · exact hflush hflush'
        · exact hkey hkey'.2
      have hkept : ¬ (0 < co.count key ∧ Concerns ev key) := fun h => hnot h.2
      rw [if_neg hkept]
      split_ifs
      · rw [version_bump, if_neg fun h => hkey h.symm]
      · rfl

theorem Tidy.onEvent (htidy : co.Tidy) (ev : Event) : (co.onEvent ev).Tidy := by
  refine ⟨?_, ?_⟩
  · intro key hmem
    rw [watchers_onEvent] at hmem
    rw [count_onEvent]
    exact htidy.watchers key hmem
  · intro key hmem
    rw [count_onEvent]
    unfold Coordinator.onEvent at hmem
    split_ifs at hmem with hflush hkey
    · rcases mem_versions_foldl_bump co hmem with hold | hwatched
      · exact htidy.versions key hold
      · exact htidy.watchers key hwatched
    · rw [bump, AList.mem_insert] at hmem
      rcases hmem with rfl | hold
      · exact hkey.2
      · exact htidy.versions key hold
    · exact htidy.versions key hmem

/-! ## Watching and giving back -/

theorem count_insert (co : Coordinator) (first other : Key) (n : ℕ) :
    count { co with watchers := co.watchers.insert first n } other =
      if other = first then n else co.count other := by
  by_cases hother : other = first
  · subst hother
    simp [count]
  · simp [count, hother, AList.lookup_insert_ne hother]

theorem registers_watchKey (r : Coordinator × Tx F) (first key : Key) :
    Registers (r.1.version key) (r.2.watched.lookup key) ((watchKey r first).2.watched.lookup key)
      (r.1.count key) ((watchKey r first).1.count key) := by
  unfold watchKey
  split_ifs with hmem
  · exact .refl _ _ _
  · by_cases hkey : key = first
    · subst hkey
      refine Or.inr ⟨AList.lookup_eq_none.mpr hmem, by simp, ?_⟩
      rw [count_insert, if_pos rfl]
    · refine Or.inl ⟨AList.lookup_insert_ne hkey, ?_⟩
      rw [count_insert, if_neg hkey]

theorem versions_watchKey (r : Coordinator × Tx F) (first : Key) :
    (watchKey r first).1.versions = r.1.versions := by
  unfold watchKey
  split_ifs <;> rfl

theorem Tidy.watchKey {r : Coordinator × Tx F} (htidy : r.1.Tidy) (first : Key) :
    (watchKey r first).1.Tidy := by
  unfold Coordinator.watchKey
  split_ifs with hmem
  · exact htidy
  · refine ⟨?_, ?_⟩
    · intro key hkey
      rw [count_insert]
      split_ifs with hfirst
      · exact Nat.succ_pos _
      · rw [AList.mem_insert] at hkey
        exact htidy.watchers key (hkey.resolve_left hfirst)
    · intro key hkey
      rw [count_insert]
      split_ifs with hfirst
      · exact Nat.succ_pos _
      · exact htidy.versions key hkey

theorem version_congr {co co' : Coordinator} (hversions : co'.versions = co.versions)
    (key : Key) : co'.version key = co.version key := by
  rw [version, hversions, version]

theorem foldl_watchKey_spec (keys : List Key) (r : Coordinator × Tx F) (htidy : r.1.Tidy) :
    (keys.foldl watchKey r).1.Tidy ∧ (keys.foldl watchKey r).1.versions = r.1.versions ∧
      ∀ key, Registers (r.1.version key) (r.2.watched.lookup key)
        ((keys.foldl watchKey r).2.watched.lookup key) (r.1.count key)
        ((keys.foldl watchKey r).1.count key) := by
  induction keys generalizing r with
  | nil => exact ⟨htidy, rfl, fun key => .refl _ _ _⟩
  | cons first rest ih =>
      obtain ⟨htidy', hversions, hrest⟩ := ih (Coordinator.watchKey r first) (htidy.watchKey first)
      have hfirst := versions_watchKey r first
      refine ⟨htidy', hversions.trans hfirst, ?_⟩
      intro key
      have hlater := hrest key
      rw [version_congr hfirst] at hlater
      exact (registers_watchKey r first key).trans hlater

theorem count_unwatchKey (co : Coordinator) (first other : Key) :
    (co.unwatchKey first).count other =
      if other = first then co.count other - 1 else co.count other := by
  unfold unwatchKey
  by_cases hother : other = first
  · subst hother
    rw [if_pos rfl]
    split_ifs with hpos hone
    · rw [hone]
      simp [count]
    · rw [count_insert, if_pos rfl]
    · omega
  · rw [if_neg hother]
    split_ifs with hpos hone
    · simp [count, AList.lookup_erase_ne hother]
    · rw [count_insert, if_neg hother]
    · rfl

theorem version_unwatchKey (co : Coordinator) (first other : Key) :
    (co.unwatchKey first).version other =
      if other = first ∧ co.count other = 1 then 0 else co.version other := by
  unfold unwatchKey
  by_cases hother : other = first
  · subst hother
    split_ifs with hpos hone hdeleted hdeleted hdeleted
    · simp [version]
    · exact absurd ⟨rfl, hone⟩ hdeleted
    · exact absurd hdeleted.2 hone
    · rfl
    · exact absurd hdeleted.2 (by omega)
    · rfl
  · have hkept : ¬ (other = first ∧ co.count other = 1) := fun h => hother h.1
    rw [if_neg hkept]
    split_ifs
    · simp [version, AList.lookup_erase_ne hother]
    · rfl
    · rfl

theorem Tidy.unwatchKey (htidy : co.Tidy) (first : Key) : (co.unwatchKey first).Tidy := by
  have hgone : ∀ key, key ≠ first → 0 < co.count key → 0 < (co.unwatchKey first).count key := by
    intro key hne hpos
    rwa [count_unwatchKey, if_neg hne]
  unfold Coordinator.unwatchKey at hgone ⊢
  split_ifs at hgone ⊢ with hpos hone
  · refine ⟨fun key hkey => ?_, fun key hkey => ?_⟩
    · rw [AList.mem_erase] at hkey
      exact hgone key hkey.1 (htidy.watchers key hkey.2)
    · rw [AList.mem_erase] at hkey
      exact hgone key hkey.1 (htidy.versions key hkey.2)
  · refine ⟨fun key hkey => ?_, fun key hkey => ?_⟩
    · by_cases hfirst : key = first
      · rw [count_insert, if_pos hfirst]
        omega
      · rw [AList.mem_insert] at hkey
        exact hgone key hfirst (htidy.watchers key (hkey.resolve_left hfirst))
    · by_cases hfirst : key = first
      · rw [count_insert, if_pos hfirst]
        omega
      · exact hgone key hfirst (htidy.versions key hkey)
  · exact htidy

theorem release_spec {keys : List Key} (hnodup : keys.Nodup) (co : Coordinator)
    (htidy : co.Tidy) :
    (keys.foldl unwatchKey co).Tidy ∧
      (∀ key, (keys.foldl unwatchKey co).count key =
        if key ∈ keys then co.count key - 1 else co.count key) ∧
      ∀ key, (keys.foldl unwatchKey co).version key =
        if key ∈ keys ∧ co.count key = 1 then 0 else co.version key := by
  induction keys generalizing co with
  | nil => exact ⟨htidy, fun key => by simp, fun key => by simp⟩
  | cons first rest ih =>
      obtain ⟨hfirst, hrest⟩ := List.nodup_cons.mp hnodup
      obtain ⟨htidy', hcount, hversion⟩ := ih hrest (co.unwatchKey first) (htidy.unwatchKey first)
      rw [List.foldl_cons]
      refine ⟨htidy', ?_, ?_⟩
      · intro key
        rw [hcount, count_unwatchKey]
        by_cases hkey : key = first
        · subst hkey
          simp [hfirst]
        · simp [hkey]
      · intro key
        rw [hversion, version_unwatchKey, count_unwatchKey]
        by_cases hkey : key = first
        · subst hkey
          simp [hfirst]
        · simp [hkey]

end Coordinator

/-! ## The maps and the counters of the server's transactions -/

section Counters

variable {C : Type*} {F : Type*} {L : Layout} {maps : Coordinator} {co : Txn.Coordinator C}
  {tx : Tx F} {tx' : Txn.Tx L}

/-- The maps hold what the counters say, the versions up to their 64 bits. -/
structure Represents (maps : Coordinator) (co : Txn.Coordinator C) : Prop where
  tidy : maps.Tidy
  watchers : ∀ key, maps.count key = co.watchers key
  versions : ∀ key, maps.version key = UInt64.ofNat (co.versions key)

def SameWatched (tx : Tx F) (tx' : Txn.Tx L) : Prop :=
  ∀ key, tx.watched.lookup key = (tx'.watched.lookup key).map UInt64.ofNat

theorem SameWatched.mem_iff (hsame : SameWatched tx tx') (key : Key) :
    key ∈ tx.watched ↔ key ∈ tx'.watched := by
  rw [← AList.lookup_isSome, ← AList.lookup_isSome, hsame, Option.isSome_map]

theorem versions_onEvent (co : Txn.Coordinator C) (ev : Event) (key : Key) :
    (co.onEvent ev).versions key =
      if 0 < co.watchers key ∧ Concerns ev key then co.versions key + 1
      else co.versions key := by
  unfold Txn.Coordinator.onEvent
  by_cases hflush : ev.op = .opFlush
  · have hconcerns : Concerns ev key := Or.inl hflush
    simp only [if_pos hflush, hconcerns, and_true]
  · rw [if_neg hflush]
    by_cases hkey : ev.key = key
    · subst hkey
      have hconcerns : Concerns ev ev.key ↔ ev.key ≠ [] := by
        simp [Concerns, hflush]
      simp only [hconcerns]
      by_cases hcounted : ev.key ≠ [] ∧ 0 < co.watchers ev.key
      · rw [if_pos hcounted, if_pos hcounted.symm]
        simp
      · rw [if_neg hcounted, if_neg fun h => hcounted h.symm]
    · have hnot : ¬ Concerns ev key := by
        rintro (hflush' | hkey')
        · exact hflush hflush'
        · exact hkey hkey'.2
      have hkept : ¬ (0 < co.watchers key ∧ Concerns ev key) := fun h => hnot h.2
      rw [if_neg hkept]
      split_ifs
      · simp [Function.update_of_ne fun h => hkey h.symm]
      · rfl

theorem represents_new : Represents .new (.new : Txn.Coordinator C) where
  tidy := ⟨fun key hmem => absurd hmem (AList.notMem_empty key),
    fun key hmem => absurd hmem (AList.notMem_empty key)⟩
  watchers := fun _ => rfl
  versions := fun _ => rfl

theorem Represents.congr {co' : Txn.Coordinator C} (hrepresents : Represents maps co)
    (hwatchers : co'.watchers = co.watchers) (hversions : co'.versions = co.versions) :
    Represents maps co' where
  tidy := hrepresents.tidy
  watchers := by
    rw [hwatchers]
    exact hrepresents.watchers
  versions := by
    rw [hversions]
    exact hrepresents.versions

theorem alist_eq_empty_iff {β : Key → Type*} {s : AList β} : s = ∅ ↔ ∀ key, key ∉ s := by
  constructor
  · rintro rfl key
    exact AList.notMem_empty key
  · intro habsent
    apply AList.ext
    rw [AList.empty_entries, List.eq_nil_iff_forall_not_mem]
    intro entry hentry
    exact habsent entry.1 (List.mem_map_of_mem hentry)

theorem Represents.empty_iff (hrepresents : Represents maps co) :
    maps.watchers = ∅ ∧ maps.versions = ∅ ↔ ∀ key, co.watchers key = 0 := by
  have hcount : ∀ key, 0 < maps.count key ↔ co.watchers key ≠ 0 := by
    intro key
    rw [hrepresents.watchers, Nat.pos_iff_ne_zero]
  rw [alist_eq_empty_iff, alist_eq_empty_iff]
  constructor
  · rintro ⟨hwatchers, -⟩ key
    by_contra hne
    exact hwatchers key (Coordinator.mem_watchers_of_pos ((hcount key).mpr hne))
  · intro hzero
    constructor
    · intro key hmem
      exact (hcount key).mp (hrepresents.tidy.watchers key hmem) (hzero key)
    · intro key hmem
      exact (hcount key).mp (hrepresents.tidy.versions key hmem) (hzero key)

theorem Represents.onEvent (hrepresents : Represents maps co) (ev : Event) :
    Represents (maps.onEvent ev) (co.onEvent ev) := by
  refine ⟨hrepresents.tidy.onEvent ev, ?_, ?_⟩
  · intro key
    rw [Coordinator.count_onEvent, Txn.Coordinator.watchers_onEvent]
    exact hrepresents.watchers key
  · intro key
    rw [Coordinator.version_onEvent hrepresents.tidy, versions_onEvent,
      hrepresents.watchers, hrepresents.versions]
    split_ifs
    · rw [UInt64.ofNat_add]
      rfl
    · rfl

theorem Represents.watchKey (hrepresents : Represents maps co) (hsame : SameWatched tx tx')
    (first : Key) :
    Represents (Coordinator.watchKey (maps, tx) first).1
        (Txn.Coordinator.watchKey (co, tx') first).1 ∧
      SameWatched (Coordinator.watchKey (maps, tx) first).2
        (Txn.Coordinator.watchKey (co, tx') first).2 := by
  have htidy := hrepresents.tidy.watchKey (r := (maps, tx)) first
  by_cases hmem : first ∈ tx'.watched
  · have hmem' := (hsame.mem_iff first).mpr hmem
    rw [Coordinator.watchKey, Txn.Coordinator.watchKey, if_pos hmem, if_pos hmem']
    exact ⟨hrepresents, hsame⟩
  · have hmem' : first ∉ tx.watched := fun h => hmem ((hsame.mem_iff first).mp h)
    rw [Coordinator.watchKey, if_neg hmem'] at htidy ⊢
    rw [Txn.Coordinator.watchKey, if_neg hmem]
    refine ⟨⟨htidy, ?_, hrepresents.versions⟩, ?_⟩
    · intro key
      rw [Coordinator.count_insert]
      by_cases hkey : key = first
      · subst hkey
        simp [hrepresents.watchers]
      · simp [hkey, hrepresents.watchers]
    · intro key
      by_cases hkey : key = first
      · subst hkey
        simp [hrepresents.versions]
      · simp only [AList.lookup_insert_ne hkey]
        exact hsame key

theorem Represents.watch (hrepresents : Represents maps co) (hsame : SameWatched tx tx')
    (keys : List Key) :
    Represents (maps.watch tx keys).1 (co.watch tx' keys).1 ∧
      SameWatched (maps.watch tx keys).2 (co.watch tx' keys).2 := by
  unfold Coordinator.watch Txn.Coordinator.watch
  induction keys generalizing maps co tx tx' with
  | nil => exact ⟨hrepresents, hsame⟩
  | cons first rest ih =>
      obtain ⟨hfirst, hwatched⟩ := hrepresents.watchKey hsame first
      exact ih hfirst hwatched

theorem Represents.release (hrepresents : Represents maps co) (hsame : SameWatched tx tx') :
    Represents (maps.release tx) (co.release tx') := by
  obtain ⟨htidy, hcount, hversion⟩ :=
    Coordinator.release_spec tx.watched.keys_nodup maps hrepresents.tidy
  have hkeys : ∀ key, key ∈ tx.watched.keys ↔ key ∈ tx'.watched := hsame.mem_iff
  refine ⟨htidy, ?_, ?_⟩
  · intro key
    refine (hcount key).trans ?_
    simp only [hkeys, hrepresents.watchers, Txn.Coordinator.release]
  · intro key
    refine (hversion key).trans ?_
    simp only [hkeys, hrepresents.watchers, hrepresents.versions, Txn.Coordinator.release]
    split_ifs <;> rfl

end Counters

end TxnCalls
end DistCache
