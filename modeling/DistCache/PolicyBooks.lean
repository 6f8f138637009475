import DistCache.ShardBookkeeping

/-!
# The keys that a policy keeps

A policy follows a list of keys when it keeps exactly these keys, each once.  The
operations of the policies are described by the list that is followed after them.

`lfu` has a list of keys for each frequency beside the frequencies of the keys, and
`ttl` has a heap with items that are out of date.  Their structures agree.
-/

namespace DistCache
namespace Eviction

/-! ## Association lists of values of one type -/

section Lookup

variable {α V : Type*} [DecidableEq α] (m : AList fun _ : α => V) (a : α)

theorem lookup_insert_if (v : V) (other : α) :
    (m.insert a v).lookup other = if other = a then some v else m.lookup other := by
  by_cases hother : other = a
  · subst other
    simp
  · simp [hother, AList.lookup_insert_ne hother]

theorem lookup_erase_if (other : α) :
    (m.erase a).lookup other = if other = a then none else m.lookup other := by
  by_cases hother : other = a
  · subst other
    simp
  · simp [hother, AList.lookup_erase_ne hother]

theorem insert_erase (v : V) : (m.erase a).insert a v = m.insert a v := by
  have hgone : a ∉ (m.erase a).entries.keys := by
    have hnot : a ∉ m.erase a := fun hmem => (AList.mem_erase.mp hmem).1 rfl
    exact hnot
  apply AList.ext
  rw [AList.entries_insert, AList.entries_insert, List.kerase_of_notMem_keys hgone]
  rfl

variable {m a} {ρ : Type*} {field : ρ → V} {record : α → Option ρ}

theorem lookup_insert_update (hrecord : ∀ b, m.lookup b = (record b).map field) (a : α) (r : ρ)
    (b : α) :
    (m.insert a (field r)).lookup b = (Function.update record a (some r) b).map field := by
  rw [lookup_insert_if]
  by_cases hb : b = a
  · rw [if_pos hb, hb, Function.update_self]
    rfl
  · rw [if_neg hb, Function.update_of_ne hb, hrecord]

theorem lookup_erase_update (hrecord : ∀ b, m.lookup b = (record b).map field) (a b : α) :
    (m.erase a).lookup b = (Function.update record a none b).map field := by
  rw [lookup_erase_if]
  by_cases hb : b = a
  · rw [if_pos hb, hb, Function.update_self]
    rfl
  · rw [if_neg hb, Function.update_of_ne hb, hrecord]

end Lookup

/-! ## The frequency lists of lfu -/

structure Lists (bucket : ℕ → List Key) (freq : Key → Option ℕ) : Prop where
  mem_iff : ∀ key n, key ∈ bucket n ↔ freq key = some n
  nodup : ∀ n, (bucket n).Nodup

namespace Lists

variable {bucket bucket' : ℕ → List Key} {freq freq' : Key → Option ℕ} {key : Key} {n : ℕ}

theorem takeOut (hlists : Lists bucket freq) (hfreq : freq key = some n)
    (hbucket : ∀ m, bucket' m = if m = n then (bucket n).erase key else bucket m)
    (hfreq' : ∀ other, freq' other = if other = key then none else freq other) :
    Lists bucket' freq' := by
  constructor
  · intro other m
    rw [hbucket, hfreq']
    by_cases hkey : other = key
    · subst other
      rw [if_pos rfl]
      by_cases hm : m = n
      · subst m
        rw [if_pos rfl]
        simp [(hlists.nodup n).not_mem_erase]
      · rw [if_neg hm, hlists.mem_iff, hfreq]
        simpa using Ne.symm hm
    · rw [if_neg hkey, ← hlists.mem_iff]
      by_cases hm : m = n
      · subst m
        rw [if_pos rfl, List.mem_erase_of_ne hkey]
      · rw [if_neg hm]
  · intro m
    rw [hbucket]
    split_ifs
    · exact (hlists.nodup n).erase key
    · exact hlists.nodup m

theorem putIn (hlists : Lists bucket freq) (hfreq : freq key = none)
    (hbucket : ∀ m, bucket' m = if m = n then bucket n ++ [key] else bucket m)
    (hfreq' : ∀ other, freq' other = if other = key then some n else freq other) :
    Lists bucket' freq' := by
  have habsent : ∀ m, key ∉ bucket m := by
    intro m hmem
    rw [hlists.mem_iff, hfreq] at hmem
    contradiction
  constructor
  · intro other m
    rw [hbucket, hfreq']
    by_cases hm : m = n
    · subst m
      rw [if_pos rfl, List.mem_append, List.mem_singleton, hlists.mem_iff]
      by_cases hkey : other = key
      · simp [hkey]
      · simp [hkey]
    · rw [if_neg hm]
      by_cases hkey : other = key
      · subst other
        rw [if_pos rfl, Option.some.injEq]
        exact ⟨fun hmem => absurd hmem (habsent m), fun heq => absurd heq.symm hm⟩
      · rw [if_neg hkey, hlists.mem_iff]
  · intro m
    rw [hbucket]
    split_ifs
    · exact List.nodup_append_comm.mp (List.nodup_cons.mpr ⟨habsent n, hlists.nodup n⟩)
    · exact hlists.nodup m

end Lists

namespace Lfu

structure Wf (p : Lfu) : Prop where
  lists : Lists p.bucket fun key => p.nodes.lookup key
  nonempty : ∀ n ∈ p.freqBuckets, p.bucket n ≠ []

variable {p : Lfu} {key : Key} {n : ℕ}

theorem bucket_putBucket (p : Lfu) (n : ℕ) (b : List Key) (m : ℕ) :
    (p.putBucket n b).bucket m = if m = n then b else p.bucket m := by
  unfold putBucket bucket
  by_cases hb : b = []
  · simp only [if_pos hb, lookup_erase_if]
    by_cases hm : m = n
    · simp [hm, hb]
    · simp [hm]
  · simp only [if_neg hb, lookup_insert_if]
    by_cases hm : m = n
    · simp [hm]
    · simp [hm]

theorem nonempty_putBucket (hwf : p.Wf) (b : List Key) :
    ∀ m ∈ (p.putBucket n b).freqBuckets, (p.putBucket n b).bucket m ≠ [] := by
  intro m hm
  rw [bucket_putBucket]
  simp only [putBucket] at hm
  split_ifs at hm with hb
  · rw [AList.mem_erase] at hm
    rw [if_neg hm.1]
    exact hwf.nonempty m hm.2
  · split_ifs with heq
    · exact hb
    · exact hwf.nonempty m (((AList.mem_insert _).mp hm).resolve_left heq)

theorem bucket_insert (p : Lfu) (nodes : AList fun _ : Key => ℕ) (minFreq m : ℕ) :
    (Lfu.mk nodes (p.freqBuckets.insert n (p.bucket n ++ [key])) minFreq).bucket m =
      if m = n then p.bucket n ++ [key] else p.bucket m := by
  unfold bucket
  simp only [lookup_insert_if]
  by_cases hm : m = n
  · simp [hm]
  · simp [hm]

theorem nonempty_insert (hnonempty : ∀ m ∈ p.freqBuckets, p.bucket m ≠ [])
    (nodes : AList fun _ : Key => ℕ) (minFreq : ℕ) :
    ∀ m ∈ p.freqBuckets.insert n (p.bucket n ++ [key]),
      (Lfu.mk nodes (p.freqBuckets.insert n (p.bucket n ++ [key])) minFreq).bucket m ≠ [] := by
  intro m hm
  rw [bucket_insert]
  split_ifs with heq
  · simp
  · exact hnonempty m (((AList.mem_insert _).mp hm).resolve_left heq)

theorem Wf.takeOut (hwf : p.Wf) (hlookup : p.nodes.lookup key = some n) (minFreq : ℕ) :
    Wf { p.putBucket n ((p.bucket n).erase key) with
      nodes := p.nodes.erase key, minFreq := minFreq } where
  lists := hwf.lists.takeOut hlookup (bucket_putBucket p n _) (lookup_erase_if p.nodes key)
  nonempty := nonempty_putBucket hwf _

theorem Wf.putIn (hwf : p.Wf) (hlookup : p.nodes.lookup key = none) (n minFreq : ℕ) :
    Wf ⟨p.nodes.insert key n, p.freqBuckets.insert n (p.bucket n ++ [key]), minFreq⟩ where
  lists := hwf.lists.putIn hlookup (bucket_insert p _ minFreq) (lookup_insert_if p.nodes key n)
  nonempty := nonempty_insert hwf.nonempty _ minFreq

theorem Wf.remove (hwf : p.Wf) (key : Key) : (p.remove key).Wf := by
  unfold Lfu.remove
  cases hlookup : p.nodes.lookup key with
  | none => exact hwf
  | some n => exact hwf.takeOut hlookup p.minFreq

def moved (p : Lfu) (key : Key) (old minFreq : ℕ) : Lfu :=
  let q := p.putBucket old ((p.bucket old).erase key)
  ⟨p.nodes.insert key (old + 1),
    q.freqBuckets.insert (old + 1) (q.bucket (old + 1) ++ [key]), minFreq⟩

theorem access_eq_moved {old : ℕ} (hlookup : p.nodes.lookup key = some old) :
    p.access key = p.moved key old
      (if (p.bucket old).erase key = [] ∧ p.minFreq = old then old + 1 else p.minFreq) := by
  unfold Lfu.access
  simp only [hlookup]
  split_ifs with hempty
  · rfl
  · rfl

theorem Wf.moved (hwf : p.Wf) {old : ℕ} (hlookup : p.nodes.lookup key = some old)
    (minFreq : ℕ) : (p.moved key old minFreq).Wf := by
  have hout := hwf.takeOut hlookup minFreq
  have hgone : (p.nodes.erase key).lookup key = none := AList.lookup_erase key p.nodes
  have hin := hout.putIn hgone (old + 1) minFreq
  simp only [insert_erase] at hin
  exact hin

theorem Wf.access (hwf : p.Wf) (key : Key) : (p.access key).Wf := by
  cases hlookup : p.nodes.lookup key with
  | none =>
      simp only [Lfu.access, hlookup]
      exact hwf
  | some old =>
      rw [access_eq_moved hlookup]
      exact hwf.moved hlookup _

theorem Wf.add (hwf : p.Wf) (key : Key) : (p.add key).Wf := by
  unfold Lfu.add
  split_ifs with hmem
  · exact hwf.access key
  · exact hwf.putIn (AList.lookup_eq_none.mpr hmem) 1 1

theorem Wf.evictFront_eq (hwf : p.Wf) {victim : Key} (hevict : p.evictFront.1 = some victim) :
    (p.bucket p.minFreq).head? = some victim ∧ p.nodes.lookup victim = some p.minFreq ∧
      p.evictFront.2 = { p.putBucket p.minFreq ((p.bucket p.minFreq).erase victim) with
        nodes := p.nodes.erase victim, minFreq := p.minFreq } := by
  unfold Lfu.evictFront at hevict ⊢
  cases hbucket : p.bucket p.minFreq with
  | nil => simp [hbucket] at hevict
  | cons first rest =>
      simp only [hbucket, Option.some.injEq] at hevict
      subst first
      have hlookup : p.nodes.lookup victim = some p.minFreq := by
        rw [← hwf.lists.mem_iff, hbucket]
        exact List.mem_cons_self
      refine ⟨rfl, hlookup, ?_⟩
      rw [List.erase_cons_head]
      rfl

theorem Wf.evictFront (hwf : p.Wf) {victim : Key} (hevict : p.evictFront.1 = some victim) :
    p.evictFront.2.Wf ∧ victim ∈ p.nodes ∧ p.evictFront.2.nodes = p.nodes.erase victim := by
  obtain ⟨-, hlookup, hafter⟩ := hwf.evictFront_eq hevict
  have hmem : victim ∈ p.nodes := by
    rw [← AList.lookup_isSome, hlookup]
    rfl
  rw [hafter]
  exact ⟨hwf.takeOut hlookup p.minFreq, hmem, rfl⟩

theorem Wf.recomputeMinFreq (hwf : p.Wf) : p.recomputeMinFreq.Wf :=
  ⟨hwf.lists, hwf.nonempty⟩

theorem Wf.mem_freqBuckets (hwf : p.Wf) (hlookup : p.nodes.lookup key = some n) :
    n ∈ p.freqBuckets := by
  have hbucket : key ∈ p.bucket n := (hwf.lists.mem_iff key n).mpr hlookup
  by_contra hnone
  unfold bucket at hbucket
  rw [AList.lookup_eq_none.mpr hnone] at hbucket
  exact List.not_mem_nil hbucket

theorem Wf.evict_recomputed (hwf : p.Wf) (hkey : key ∈ p.nodes) :
    p.recomputeMinFreq.evictFront.1 ≠ none := by
  obtain ⟨n, hn⟩ := Option.isSome_iff_exists.mp (AList.lookup_isSome.mpr hkey)
  have hkept := hwf.mem_freqBuckets hn
  cases hmin : p.freqBuckets.keys.min? with
  | none =>
      rw [List.min?_eq_none_iff] at hmin
      rw [AList.mem_keys, hmin] at hkept
      exact absurd hkept List.not_mem_nil
  | some least =>
      have hleast : least ∈ p.freqBuckets := AList.mem_keys.mpr (List.min?_mem hmin)
      have hfull := hwf.nonempty least hleast
      have hfirst : p.recomputeMinFreq.bucket p.recomputeMinFreq.minFreq = p.bucket least := by
        simp only [Lfu.recomputeMinFreq, hmin]
        rfl
      unfold Lfu.evictFront
      rw [hfirst]
      cases hcase : p.bucket least with
      | nil => exact absurd hcase hfull
      | cons first rest => simp

theorem Wf.evict_some (hwf : p.Wf) {victim : Key} (hevict : p.evict.1 = some victim) :
    p.evict.2.Wf ∧ victim ∈ p.nodes ∧ p.evict.2.nodes = p.nodes.erase victim := by
  unfold Lfu.evict at hevict ⊢
  split_ifs at hevict ⊢
  · exact hwf.recomputeMinFreq.evictFront hevict
  · exact hwf.evictFront hevict

theorem Wf.evict_none (hwf : p.Wf) (hevict : p.evict.1 = none) :
    p.evict.2 = p ∧ p.nodes.keys = [] := by
  unfold Lfu.evict at hevict ⊢
  split_ifs at hevict ⊢ with hempty hbucket
  · have hnil : p.nodes.entries = [] := List.isEmpty_iff.mp hempty
    refine ⟨rfl, ?_⟩
    rw [AList.keys, hnil]
    rfl
  · cases hkeys : p.nodes.keys with
    | nil =>
        have hnil : p.nodes.entries = [] := List.map_eq_nil_iff.mp hkeys
        exact absurd (List.isEmpty_iff.mpr hnil) hempty
    | cons first rest =>
        have hfirst : first ∈ p.nodes := by
          rw [AList.mem_keys, hkeys]
          exact List.mem_cons_self
        exact absurd hevict (hwf.evict_recomputed hfirst)
  · unfold Lfu.evictFront at hevict
    cases hcase : p.bucket p.minFreq with
    | nil => simp [hcase] at hbucket
    | cons first rest => simp [hcase] at hevict

end Lfu

/-! ## The heap of ttl -/

namespace Ttl

/-- The heap has the item of every key with its present deadline. -/
def Wf (p : Ttl) : Prop := ∀ key e, p.eff.lookup key = some e → ⟨key, e⟩ ∈ p.h

variable {p : Ttl}

theorem mem_push (p : Ttl) (item other : TtlItem) :
    other ∈ p.push item ↔ other = item ∨ other ∈ p.h := by
  unfold push
  rw [(SliceHeap.perm_push TtlItem.less p.h item).mem_iff, List.mem_cons]

theorem Wf.enter (hwf : p.Wf) (key : Key) (e : ℤ) :
    Wf ⟨p.eff.insert key e, p.push ⟨key, e⟩⟩ := by
  intro other e' hlookup
  rw [lookup_insert_if] at hlookup
  rw [mem_push]
  split_ifs at hlookup with hother
  · left
    rw [hother, ← Option.some.inj hlookup]
  · exact Or.inr (hwf other e' hlookup)

theorem Wf.note (hwf : p.Wf) (key : Key) (expireAt : ℤ) : (p.note key expireAt).Wf :=
  hwf.enter key _

theorem Wf.add (hwf : p.Wf) (key : Key) : (p.add key).Wf := by
  unfold Ttl.add
  split_ifs
  · exact hwf
  · exact hwf.enter key ttlNever

theorem Wf.remove (hwf : p.Wf) (key : Key) : (p.remove key).Wf := by
  intro other e hlookup
  simp only [Ttl.remove, lookup_erase_if] at hlookup
  split_ifs at hlookup
  exact hwf other e hlookup

theorem Wf.pop {it : TtlItem} {rest : List TtlItem} {eff : AList fun _ : Key => ℤ}
    (hwf : p.Wf) (hpop : SliceHeap.pop TtlItem.less p.h = some (it, rest))
    (hkept : ∀ key e, eff.lookup key = some e → p.eff.lookup key = some e)
    (hgone : eff.lookup it.key ≠ some it.expireAt) : Wf ⟨eff, rest⟩ := by
  intro key e hlookup
  have hmem := hwf key e (hkept key e hlookup)
  rw [(SliceHeap.perm_pop TtlItem.less hpop).mem_iff, List.mem_cons] at hmem
  apply hmem.resolve_left
  rintro rfl
  exact hgone hlookup

theorem Wf.keys_eq_nil (hwf : p.Wf) (hnil : p.h = []) : p.eff.keys = [] := by
  by_contra hkeys
  obtain ⟨key, hkey⟩ := List.exists_mem_of_ne_nil _ hkeys
  obtain ⟨e, he⟩ := Option.isSome_iff_exists.mp
    (AList.lookup_isSome.mpr (AList.mem_keys.mpr hkey))
  have hitem := hwf key e he
  rw [hnil] at hitem
  exact List.not_mem_nil hitem

theorem evictLoop_rule {P : Ttl → Option Key × Ttl → Prop} (hnone : ∀ p, P p (none, p))
    (hcurrent : ∀ p it rest, SliceHeap.pop TtlItem.less p.h = some (it, rest) →
      p.eff.lookup it.key = some it.expireAt → P p (some it.key, ⟨p.eff.erase it.key, rest⟩))
    (hstale : ∀ p it rest result, SliceHeap.pop TtlItem.less p.h = some (it, rest) →
      p.eff.lookup it.key ≠ some it.expireAt → P { p with h := rest } result → P p result)
    (fuel : ℕ) (p : Ttl) : P p (Ttl.evictLoop fuel p) := by
  induction fuel generalizing p with
  | zero => exact hnone p
  | succ fuel ih =>
      simp only [Ttl.evictLoop]
      cases hpop : SliceHeap.pop TtlItem.less p.h with
      | none => exact hnone p
      | some popped =>
          obtain ⟨it, rest⟩ := popped
          dsimp only
          split_ifs with hcase
          · exact hcurrent p it rest hpop hcase
          · exact hstale p it rest _ hpop hcase (ih _)

theorem Wf.evictLoop_some {fuel : ℕ} {victim : Key} (hwf : p.Wf)
    (hevict : (Ttl.evictLoop fuel p).1 = some victim) :
    (Ttl.evictLoop fuel p).2.Wf ∧ victim ∈ p.eff ∧
      (Ttl.evictLoop fuel p).2.eff = p.eff.erase victim := by
  apply evictLoop_rule (P := fun p result => p.Wf → result.1 = some victim →
    result.2.Wf ∧ victim ∈ p.eff ∧ result.2.eff = p.eff.erase victim) ?_ ?_ ?_ fuel p hwf hevict
  · intro p _ hevict
    cases hevict
  · intro p it rest hpop hcurrent hwf hevict
    rw [Option.some.injEq] at hevict
    subst hevict
    refine ⟨hwf.pop hpop ?_ ?_, ?_, rfl⟩
    · intro key e hlookup
      rw [lookup_erase_if] at hlookup
      split_ifs at hlookup
      exact hlookup
    · simp
    · apply AList.lookup_isSome.mp
      rw [hcurrent]
      rfl
  · intro p it rest result hpop hstale ih hwf hevict
    exact ih (hwf.pop hpop (fun _ _ h => h) hstale) hevict

theorem Wf.evictLoop_none {fuel : ℕ} (hwf : p.Wf) (hfuel : p.h.length ≤ fuel)
    (hevict : (Ttl.evictLoop fuel p).1 = none) :
    (Ttl.evictLoop fuel p).2.Wf ∧ (Ttl.evictLoop fuel p).2.eff = p.eff ∧
      p.eff.keys = [] := by
  induction fuel generalizing p with
  | zero =>
      have hnil : p.h = [] := List.eq_nil_of_length_eq_zero (by omega)
      exact ⟨hwf, rfl, hwf.keys_eq_nil hnil⟩
  | succ fuel ih =>
      simp only [Ttl.evictLoop] at hevict ⊢
      cases hpop : SliceHeap.pop TtlItem.less p.h with
      | none => exact ⟨hwf, rfl, hwf.keys_eq_nil (SliceHeap.eq_nil_of_pop_eq_none _ hpop)⟩
      | some popped =>
          obtain ⟨it, rest⟩ := popped
          simp only [hpop] at hevict ⊢
          have hlength := SliceHeap.length_pop _ hpop
          by_cases hcurrent : p.eff.lookup it.key = some it.expireAt
          · simp [if_pos hcurrent] at hevict
          · simp only [if_neg hcurrent] at hevict ⊢
            have hrest : Wf { p with h := rest } := hwf.pop hpop (fun _ _ h => h) hcurrent
            have hshort : rest.length ≤ fuel := by omega
            exact ih hrest hshort hevict

end Ttl

/-! ## The index of random -/

namespace Random

theorem nodup_keys (p : Random) : p.keys.Nodup := by
  rw [List.nodup_iff_getElem?_ne_getElem?]
  intro i j hij hj heq
  have hget : p.keys[j]? = some p.keys[j] := List.getElem?_eq_getElem hj
  have hfirst := (p.idx_iff _ i).mpr (heq.trans hget)
  have hsecond := (p.idx_iff _ j).mpr hget
  rw [hfirst, Option.some.injEq] at hsecond
  omega

theorem mem_keys_iff (p : Random) (key : Key) : key ∈ p.keys ↔ key ∈ p.idx := by
  rw [← AList.lookup_isSome, Option.isSome_iff_exists, List.mem_iff_getElem?]
  simp only [p.idx_iff]

theorem perm_remove (p : Random) {key : Key} (hkey : key ∈ p.keys) :
    (p.remove key).keys.Perm (p.keys.erase key) := by
  have hidx : ∀ other, other ∈ (p.remove key).idx ↔ other ≠ key ∧ other ∈ p.idx := by
    obtain ⟨i, hi⟩ := List.mem_iff_getElem?.mp hkey
    have hlookup := (p.idx_iff key i).mpr hi
    have hlt := (List.getElem?_eq_some_iff.mp hi).1
    have hlast : p.keys[p.keys.length - 1]? = some (p.keys[p.keys.length - 1]) :=
      List.getElem?_eq_getElem (by omega)
    intro other
    unfold remove
    split
    · rename_i j moved _ hmoved
      have hin : moved ∈ p.idx :=
        (p.mem_keys_iff moved).mp (List.mem_of_getElem? hmoved)
      rw [AList.mem_erase, AList.mem_insert]
      constructor
      · rintro ⟨hne, rfl | hmem⟩
        · exact ⟨hne, hin⟩
        · exact ⟨hne, hmem⟩
      · rintro ⟨hne, hmem⟩
        exact ⟨hne, Or.inr hmem⟩
    · rename_i hnone
      exact absurd hlast (hnone _ _ hlookup)
  rw [List.perm_ext_iff_of_nodup (p.remove key).nodup_keys (p.nodup_keys.erase key)]
  intro other
  rw [mem_keys_iff, hidx, p.nodup_keys.mem_erase_iff, mem_keys_iff]

end Random

/-! ## Following a list of keys -/

/-- The policy keeps exactly the keys of the list; `noeviction` counts them. -/
def Policy.Follows : Policy → List Key → Prop
  | .noEviction p, keys => p.n = keys.length
  | .lru p, keys => p.ll.Perm keys
  | .lfu p, keys => p.Wf ∧ p.nodes.keys.Perm keys
  | .fifo p, keys => p.ll.Perm keys
  | .random p, keys => p.keys.Perm keys
  | .ttl p, keys => p.Wf ∧ p.eff.keys.Perm keys

section Keys

variable {V : Type*} {m : AList fun _ : Key => V} {keys : List Key} {key : Key}

theorem perm_of_mem_iff (hnodup : keys.Nodup) (hmem : ∀ other, other ∈ m ↔ other ∈ keys) :
    m.keys.Perm keys := by
  rw [List.perm_ext_iff_of_nodup m.keys_nodup hnodup]
  intro other
  rw [← AList.mem_keys]
  exact hmem other

theorem perm_insert (hperm : m.keys.Perm keys) (hkey : key ∈ keys) (v : V) :
    (m.insert key v).keys.Perm keys := by
  apply perm_of_mem_iff (hperm.nodup_iff.mp m.keys_nodup)
  intro other
  rw [AList.mem_insert, AList.mem_keys, hperm.mem_iff]
  constructor
  · rintro (rfl | hmem)
    · exact hkey
    · exact hmem
  · exact Or.inr

theorem perm_insert_new (hperm : m.keys.Perm keys) (hnew : key ∉ keys) (v : V) :
    (m.insert key v).keys.Perm (key :: keys) := by
  have hnodup := hperm.nodup_iff.mp m.keys_nodup
  apply perm_of_mem_iff (List.nodup_cons.mpr ⟨hnew, hnodup⟩)
  intro other
  rw [AList.mem_insert, AList.mem_keys, hperm.mem_iff, List.mem_cons]

theorem perm_erase (hperm : m.keys.Perm keys) (key : Key) :
    (m.erase key).keys.Perm (keys.erase key) := by
  have hnodup := hperm.nodup_iff.mp m.keys_nodup
  apply perm_of_mem_iff (hnodup.erase key)
  intro other
  rw [AList.mem_erase, AList.mem_keys, hperm.mem_iff, hnodup.mem_erase_iff]

end Keys

theorem Policy.follows_new (rng : ℕ → ℕ) (kind : Kind) : (new rng kind).Follows [] := by
  cases kind with
  | noEviction => rfl
  | lru => exact .refl _
  | lfu =>
      refine ⟨⟨⟨?_, fun n => List.nodup_nil⟩, ?_⟩, .refl _⟩
      · intro key n
        have hempty : (∅ : AList fun _ : Key => ℕ).lookup key = none := AList.lookup_empty key
        simp [Lfu.bucket, hempty]
      · intro n hn
        exact absurd hn (AList.notMem_empty n)
  | fifo => exact .refl _
  | random => exact .refl _
  | ttl =>
      refine ⟨?_, .refl _⟩
      intro key e hlookup
      rw [AList.lookup_empty] at hlookup
      contradiction

namespace Policy.Follows

variable {policy : Policy} {keys : List Key} {key : Key}

theorem perm {other : List Key} (hfollows : policy.Follows keys) (hperm : keys.Perm other) :
    policy.Follows other := by
  cases policy with
  | noEviction p => exact Eq.trans hfollows hperm.length_eq
  | lru p => exact List.Perm.trans hfollows hperm
  | lfu p => exact ⟨hfollows.1, hfollows.2.trans hperm⟩
  | fifo p => exact List.Perm.trans hfollows hperm
  | random p => exact List.Perm.trans hfollows hperm
  | ttl p => exact ⟨hfollows.1, hfollows.2.trans hperm⟩

theorem length_eq (hfollows : policy.Follows keys) : policy.len = keys.length := by
  cases policy with
  | noEviction p => exact hfollows
  | lru p => exact List.Perm.length_eq hfollows
  | lfu p => exact hfollows.2.length_eq
  | fifo p => exact List.Perm.length_eq hfollows
  | random p => exact List.Perm.length_eq hfollows
  | ttl p => exact hfollows.2.length_eq

theorem tracks_iff (hfollows : policy.Follows keys) (hkind : policy.kind ≠ .noEviction) :
    policy.Tracks key ↔ key ∈ keys := by
  cases policy with
  | noEviction p => exact absurd rfl hkind
  | lru p => exact List.Perm.mem_iff hfollows
  | lfu p => exact AList.mem_keys.trans hfollows.2.mem_iff
  | fifo p => exact List.Perm.mem_iff hfollows
  | random p => exact (p.mem_keys_iff key).symm.trans (List.Perm.mem_iff hfollows)
  | ttl p => exact AList.mem_keys.trans hfollows.2.mem_iff

theorem add (hfollows : policy.Follows keys) (hnew : key ∉ keys) :
    (policy.add key).Follows (key :: keys) := by
  cases policy with
  | noEviction p =>
      have hcount : p.n = keys.length := hfollows
      simp [Policy.add, Policy.Follows, NoEviction.add, hcount]
  | lru p =>
      have hnot : key ∉ p.ll := fun hmem => hnew (List.Perm.mem_iff hfollows |>.mp hmem)
      simp only [Policy.add, Policy.Follows, Lru.add, List.erase_of_not_mem hnot]
      exact List.Perm.cons key hfollows
  | lfu p =>
      obtain ⟨hwf, hperm⟩ := hfollows
      have hnot : key ∉ p.nodes := fun hmem => hnew (hperm.mem_iff.mp (AList.mem_keys.mp hmem))
      refine ⟨hwf.add key, ?_⟩
      simp only [Lfu.add, if_neg hnot]
      exact perm_insert_new hperm hnew 1
  | fifo p =>
      have hnot : key ∉ p.ll := fun hmem => hnew (List.Perm.mem_iff hfollows |>.mp hmem)
      simp only [Policy.add, Policy.Follows, Fifo.add, dif_neg hnot]
      exact (List.perm_append_singleton key p.ll).trans (List.Perm.cons key hfollows)
  | random p =>
      have hnot : key ∉ p.idx := fun hmem =>
        hnew (List.Perm.mem_iff hfollows |>.mp ((p.mem_keys_iff key).mpr hmem))
      simp only [Policy.add, Policy.Follows, Random.add, dif_neg hnot]
      exact (List.perm_append_singleton key p.keys).trans (List.Perm.cons key hfollows)
  | ttl p =>
      obtain ⟨hwf, hperm⟩ := hfollows
      have hnot : key ∉ p.eff := fun hmem => hnew (hperm.mem_iff.mp (AList.mem_keys.mp hmem))
      refine ⟨hwf.add key, ?_⟩
      simp only [Ttl.add, if_neg hnot]
      exact perm_insert_new hperm hnew ttlNever

theorem access (hfollows : policy.Follows keys) (key : Key) :
    (policy.access key).Follows keys := by
  cases policy with
  | noEviction p => exact hfollows
  | lru p =>
      simp only [Policy.access, Policy.Follows, Lru.access]
      split_ifs with hmem
      · exact (List.perm_cons_erase hmem).symm.trans hfollows
      · exact hfollows
  | lfu p =>
      obtain ⟨hwf, hperm⟩ := hfollows
      refine ⟨hwf.access key, ?_⟩
      unfold Lfu.access
      cases hlookup : p.nodes.lookup key with
      | none => exact hperm
      | some old =>
          have hmem : key ∈ p.nodes := AList.lookup_isSome.mp (by rw [hlookup]; rfl)
          have hkey := hperm.mem_iff.mp (AList.mem_keys.mp hmem)
          simp only
          split_ifs
          · exact perm_insert hperm hkey _
          · exact perm_insert hperm hkey _
  | fifo p => exact hfollows
  | random p => exact hfollows
  | ttl p => exact hfollows

theorem note (hfollows : policy.Follows keys) (hkey : key ∈ keys) (expireAt : ℤ) :
    (policy.note key expireAt).Follows keys := by
  cases policy with
  | ttl p => exact ⟨hfollows.1.note key expireAt, perm_insert hfollows.2 hkey _⟩
  | _ => exact hfollows

theorem remove (hfollows : policy.Follows keys) (hkey : key ∈ keys) :
    (policy.remove key).Follows (keys.erase key) := by
  cases policy with
  | noEviction p =>
      have hcount : p.n = keys.length := hfollows
      have hpos : 0 < p.n := by
        rw [hcount]
        exact List.length_pos_of_mem hkey
      simp only [Policy.remove, Policy.Follows, NoEviction.remove, if_pos hpos,
        List.length_erase_of_mem hkey]
      omega
  | lru p => exact List.Perm.erase key hfollows
  | lfu p =>
      obtain ⟨hwf, hperm⟩ := hfollows
      refine ⟨hwf.remove key, ?_⟩
      have hmem : key ∈ p.nodes := AList.mem_keys.mpr (hperm.mem_iff.mpr hkey)
      obtain ⟨n, hn⟩ := Option.isSome_iff_exists.mp (AList.lookup_isSome.mpr hmem)
      simp only [Lfu.remove, hn]
      exact perm_erase hperm key
  | fifo p => exact List.Perm.erase key hfollows
  | random p =>
      have hmem : key ∈ p.keys := List.Perm.mem_iff hfollows |>.mpr hkey
      exact (p.perm_remove hmem).trans (List.Perm.erase key hfollows)
  | ttl p => exact ⟨hfollows.1.remove key, perm_erase hfollows.2 key⟩

theorem evict_some (hfollows : policy.Follows keys) {victim : Key}
    (hevict : policy.evict.1 = some victim) :
    victim ∈ keys ∧ policy.evict.2.Follows (keys.erase victim) := by
  cases policy with
  | noEviction p => simp [Policy.evict] at hevict
  | lru p =>
      simp only [Policy.evict, Policy.Follows, Lru.evict] at hevict ⊢
      cases hlast : p.ll.getLast? with
      | none => simp [hlast] at hevict
      | some last =>
          simp only [hlast, Option.some.injEq] at hevict ⊢
          subst last
          have hsplit : p.ll = p.ll.dropLast ++ [victim] :=
            (List.dropLast_append_getLast? victim hlast).symm
          have hperm : p.ll.Perm (victim :: p.ll.dropLast) := by
            nth_rewrite 1 [hsplit]
            exact List.perm_append_singleton victim _
          have hall : (victim :: p.ll.dropLast).Perm keys := hperm.symm.trans hfollows
          refine ⟨hall.mem_iff.mp List.mem_cons_self, ?_⟩
          have herase := hall.erase victim
          rwa [List.erase_cons_head] at herase
  | lfu p =>
      obtain ⟨hwf, hmem, hnodes⟩ := hfollows.1.evict_some hevict
      refine ⟨hfollows.2.mem_iff.mp (AList.mem_keys.mp hmem), hwf, ?_⟩
      rw [hnodes]
      exact perm_erase hfollows.2 victim
  | fifo p =>
      simp only [Policy.evict, Policy.Follows, Fifo.evict] at hevict ⊢
      cases hhead : p.ll.head? with
      | none => simp [hhead] at hevict
      | some first =>
          simp only [hhead, Option.some.injEq] at hevict ⊢
          subst first
          have hsplit : p.ll = victim :: p.ll.tail := (List.cons_head?_tail hhead).symm
          have hall : (victim :: p.ll.tail).Perm keys := by
            rw [← hsplit]
            exact hfollows
          refine ⟨hall.mem_iff.mp List.mem_cons_self, ?_⟩
          have herase := hall.erase victim
          rwa [List.erase_cons_head] at herase
  | random p =>
      simp only [Policy.evict, Policy.Follows, Random.evict] at hevict ⊢
      cases hfound : p.keys[p.rng p.draws % p.keys.length]? with
      | none => simp [hfound] at hevict
      | some found =>
          simp only [hfound, Option.some.injEq] at hevict ⊢
          subst found
          have hmem : victim ∈ p.keys := List.mem_of_getElem? hfound
          exact ⟨List.Perm.mem_iff hfollows |>.mp hmem,
            (p.perm_remove hmem).trans (List.Perm.erase victim hfollows)⟩
  | ttl p =>
      obtain ⟨hwf, hmem, heff⟩ := hfollows.1.evictLoop_some hevict
      refine ⟨hfollows.2.mem_iff.mp (AList.mem_keys.mp hmem), hwf, ?_⟩
      have hsame : p.evict.2.eff = p.eff.erase victim := heff
      rw [hsame]
      exact perm_erase hfollows.2 victim

theorem evict_none (hfollows : policy.Follows keys) (hevict : policy.evict.1 = none) :
    policy.evict.2.Follows keys ∧ (policy.kind ≠ .noEviction → keys = []) := by
  cases policy with
  | noEviction p => exact ⟨hfollows, fun hkind => absurd rfl hkind⟩
  | lru p =>
      simp only [Policy.evict, Policy.Follows, Lru.evict] at hevict ⊢
      cases hlast : p.ll.getLast? with
      | none =>
          have hnil : p.ll = [] := List.getLast?_eq_none_iff.mp hlast
          refine ⟨hfollows, fun _ => ?_⟩
          have hperm : p.ll.Perm keys := hfollows
          rw [hnil] at hperm
          exact hperm.nil_eq.symm
      | some last => simp [hlast] at hevict
  | lfu p =>
      obtain ⟨hsame, hnil⟩ := hfollows.1.evict_none hevict
      have hperm := hfollows.2
      refine ⟨?_, fun _ => ?_⟩
      · simp only [Policy.evict, hsame]
        exact hfollows
      · rw [hnil] at hperm
        exact hperm.nil_eq.symm
  | fifo p =>
      simp only [Policy.evict, Policy.Follows, Fifo.evict] at hevict ⊢
      cases hhead : p.ll.head? with
      | none =>
          have hnil : p.ll = [] := List.head?_eq_none_iff.mp hhead
          refine ⟨hfollows, fun _ => ?_⟩
          have hperm : p.ll.Perm keys := hfollows
          rw [hnil] at hperm
          exact hperm.nil_eq.symm
      | some first => simp [hhead] at hevict
  | random p =>
      simp only [Policy.evict, Policy.Follows, Random.evict] at hevict ⊢
      cases hfound : p.keys[p.rng p.draws % p.keys.length]? with
      | none =>
          have hnil : p.keys = [] := by
            by_contra hne
            have hpos := List.length_pos_of_ne_nil hne
            have hlt := Nat.mod_lt (p.rng p.draws) hpos
            have hbound := List.getElem?_eq_none_iff.mp hfound
            omega
          refine ⟨hfollows, fun _ => ?_⟩
          have hperm : p.keys.Perm keys := hfollows
          rw [hnil] at hperm
          exact hperm.nil_eq.symm
      | some found => simp [hfound] at hevict
  | ttl p =>
      obtain ⟨hwf, hsame, hnil⟩ := hfollows.1.evictLoop_none le_rfl hevict
      have hperm := hfollows.2
      refine ⟨⟨hwf, ?_⟩, fun _ => ?_⟩
      · have heff : p.evict.2.eff = p.eff := hsame
        rw [heff]
        exact hperm
      · rw [hnil] at hperm
        exact hperm.nil_eq.symm

end Policy.Follows
end Eviction
end DistCache
