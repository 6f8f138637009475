import DistCache.AListSum
import DistCache.SliceHeap
import Mathlib.Data.List.AList
import Mathlib.Tactic

/-!
# Eviction policies

The six policies of the `eviction` package.  A policy is told when a key is
added, read or removed, and proposes the key to drop.  A `container/list` with
an index of its elements is a list of keys here, front first.  Maps are
`AList`s, which carry the proof that no key occurs twice.  The source of the
random policy is a stream of numbers and a position in it, so that a statement
about every stream covers every outcome of the generator.
-/

namespace DistCache

abbrev Bytes := List UInt8

/-- A Go string is a byte string. -/
abbrev Key := Bytes

instance : LawfulBEq Bytes := inferInstance

namespace Eviction

structure NoEviction where
  n : ℕ

structure Lru where
  ll : List Key
  nodup : ll.Nodup

structure Fifo where
  ll : List Key
  nodup : ll.Nodup

structure Lfu where
  nodes : AList (fun _ : Key => ℕ)
  freqBuckets : AList (fun _ : ℕ => List Key)
  minFreq : ℕ

/-- `keys` and `idx` are each other's inverse. -/
structure Random where
  keys : List Key
  idx : AList (fun _ : Key => ℕ)
  rng : ℕ → ℕ
  draws : ℕ
  idx_iff : ∀ key i, idx.lookup key = some i ↔ keys[i]? = some key

structure TtlItem where
  key : Key
  expireAt : ℤ
  deriving DecidableEq

structure Ttl where
  eff : AList (fun _ : Key => ℤ)
  h : List TtlItem

/-! ## noeviction -/

def NoEviction.add (p : NoEviction) : NoEviction := ⟨p.n + 1⟩

def NoEviction.remove (p : NoEviction) : NoEviction :=
  if 0 < p.n then ⟨p.n - 1⟩ else p

/-! ## lru and fifo -/

theorem nodup_toFront {ll : List Key} (hll : ll.Nodup) (key : Key) :
    (key :: ll.erase key).Nodup :=
  List.nodup_cons.mpr ⟨hll.not_mem_erase, hll.erase key⟩

def Lru.add (p : Lru) (key : Key) : Lru :=
  ⟨key :: p.ll.erase key, nodup_toFront p.nodup key⟩

def Lru.access (p : Lru) (key : Key) : Lru :=
  if key ∈ p.ll then ⟨key :: p.ll.erase key, nodup_toFront p.nodup key⟩ else p

def Lru.remove (p : Lru) (key : Key) : Lru := ⟨p.ll.erase key, p.nodup.erase key⟩

def Lru.evict (p : Lru) : Option Key × Lru :=
  match p.ll.getLast? with
  | none => (none, p)
  | some key => (some key, ⟨p.ll.dropLast, p.nodup.sublist (List.dropLast_sublist _)⟩)

def Fifo.add (p : Fifo) (key : Key) : Fifo :=
  if h : key ∈ p.ll then p
  else ⟨p.ll ++ [key], List.nodup_append_comm.mp (List.nodup_cons.mpr ⟨h, p.nodup⟩)⟩

def Fifo.remove (p : Fifo) (key : Key) : Fifo := ⟨p.ll.erase key, p.nodup.erase key⟩

def Fifo.evict (p : Fifo) : Option Key × Fifo :=
  match p.ll.head? with
  | none => (none, p)
  | some key => (some key, ⟨p.ll.tail, p.nodup.sublist (List.tail_sublist _)⟩)

/-! ## lfu -/

def Lfu.bucket (p : Lfu) (freq : ℕ) : List Key :=
  (p.freqBuckets.lookup freq).getD []

def Lfu.putBucket (p : Lfu) (freq : ℕ) (b : List Key) : Lfu :=
  { p with freqBuckets :=
      if b = [] then p.freqBuckets.erase freq else p.freqBuckets.insert freq b }

def Lfu.access (p : Lfu) (key : Key) : Lfu :=
  match p.nodes.lookup key with
  | none => p
  | some old =>
      let b := (p.bucket old).erase key
      let q := p.putBucket old b
      let q := if b = [] ∧ p.minFreq = old then { q with minFreq := old + 1 } else q
      { q with
        nodes := q.nodes.insert key (old + 1)
        freqBuckets :=
          q.freqBuckets.insert (old + 1) (q.bucket (old + 1) ++ [key]) }

def Lfu.add (p : Lfu) (key : Key) : Lfu :=
  if key ∈ p.nodes then p.access key
  else
    { nodes := p.nodes.insert key 1
      freqBuckets := p.freqBuckets.insert 1 (p.bucket 1 ++ [key])
      minFreq := 1 }

def Lfu.remove (p : Lfu) (key : Key) : Lfu :=
  match p.nodes.lookup key with
  | none => p
  | some freq =>
      let q := p.putBucket freq ((p.bucket freq).erase key)
      { q with nodes := q.nodes.erase key }

def Lfu.recomputeMinFreq (p : Lfu) : Lfu :=
  { p with minFreq := p.freqBuckets.keys.min?.getD 0 }

def Lfu.evictFront (p : Lfu) : Option Key × Lfu :=
  match p.bucket p.minFreq with
  | [] => (none, p)
  | key :: rest =>
      let q := p.putBucket p.minFreq rest
      (some key, { q with nodes := q.nodes.erase key })

def Lfu.evict (p : Lfu) : Option Key × Lfu :=
  if p.nodes.entries.isEmpty then (none, p)
  else if (p.bucket p.minFreq).isEmpty then p.recomputeMinFreq.evictFront
  else p.evictFront

/-! ## random -/

def Random.add (p : Random) (key : Key) : Random :=
  if h : key ∈ p.idx then p
  else
    { p with
      keys := p.keys ++ [key]
      idx := p.idx.insert key p.keys.length
      idx_iff := by
        have hnone : p.idx.lookup key = none := AList.lookup_eq_none.mpr h
        intro other i
        by_cases heq : other = key
        · subst other
          rw [AList.lookup_insert, Option.some.injEq]
          constructor
          · rintro rfl
            simp
          · intro hget
            rcases Nat.lt_trichotomy i p.keys.length with hlt | rfl | hgt
            · rw [List.getElem?_append_left hlt] at hget
              rw [(p.idx_iff key i).mpr hget] at hnone
              contradiction
            · rfl
            · rw [List.getElem?_eq_none (by simpa using hgt)] at hget
              contradiction
        · rw [AList.lookup_insert_ne heq, p.idx_iff]
          rcases Nat.lt_trichotomy i p.keys.length with hlt | rfl | hgt
          · rw [List.getElem?_append_left hlt]
          · simp [Ne.symm heq]
          · rw [List.getElem?_eq_none (by omega),
              List.getElem?_eq_none (by simpa using hgt)] }

theorem Random.lookup_inj (p : Random) {first second : Key} {i : ℕ}
    (hfirst : p.idx.lookup first = some i)
    (hsecond : p.idx.lookup second = some i) : first = second := by
  rw [p.idx_iff] at hfirst hsecond
  exact Option.some.inj (hfirst.symm.trans hsecond)

theorem Random.lookup_lt (p : Random) {key : Key} {i : ℕ}
    (hkey : p.idx.lookup key = some i) : i < p.keys.length :=
  (List.getElem?_eq_some_iff.mp ((p.idx_iff key i).mp hkey)).1

/-- The last key takes the place of the removed one. -/
def Random.remove (p : Random) (key : Key) : Random :=
  match hkey : p.idx.lookup key, hlast : p.keys[p.keys.length - 1]? with
  | some i, some moved =>
      { p with
        keys := (p.keys.set i moved).take (p.keys.length - 1)
        idx := (p.idx.insert moved i).erase key
        idx_iff := by
          have hi : i < p.keys.length := p.lookup_lt hkey
          have hmoved : p.idx.lookup moved = some (p.keys.length - 1) :=
            (p.idx_iff moved _).mpr hlast
          intro other j
          rw [List.getElem?_take]
          by_cases hother : other = key
          · subst other
            rw [AList.lookup_erase]
            simp only [reduceCtorEq, false_iff]
            split_ifs with hj
            · by_cases hij : i = j
              · subst j
                rw [List.getElem?_set_self hi]
                intro heq
                rw [Option.some.inj heq, hkey] at hmoved
                simp only [Option.some.injEq] at hmoved
                omega
              · rw [List.getElem?_set_ne hij, ← p.idx_iff, hkey]
                simpa using hij
            · simp
          · rw [AList.lookup_erase_ne hother]
            by_cases hmove : other = moved
            · subst other
              rw [AList.lookup_insert, Option.some.injEq]
              have hne : i ≠ p.keys.length - 1 := by
                rintro rfl
                exact hother (p.lookup_inj hmoved hkey)
              constructor
              · rintro rfl
                rw [if_pos (by omega), List.getElem?_set_self hi]
              · intro hget
                split_ifs at hget with hj
                by_contra hij
                rw [List.getElem?_set_ne hij, ← p.idx_iff, hmoved] at hget
                simp only [Option.some.injEq] at hget
                omega
            · rw [AList.lookup_insert_ne hmove, p.idx_iff]
              split_ifs with hj
              · by_cases hij : i = j
                · subst j
                  rw [List.getElem?_set_self hi, ← p.idx_iff]
                  constructor
                  · intro hfound
                    exact absurd (p.lookup_inj hfound hkey) hother
                  · intro heq
                    exact absurd (Option.some.inj heq).symm hmove
                · rw [List.getElem?_set_ne hij]
              · simp only [iff_false]
                intro hget
                have hlt := (List.getElem?_eq_some_iff.mp hget).1
                have hjlast : j = p.keys.length - 1 := by omega
                subst j
                rw [hlast] at hget
                exact hmove (Option.some.inj hget).symm }
  | _, _ => p

def Random.evict (p : Random) : Option Key × Random :=
  match p.keys[p.rng p.draws % p.keys.length]? with
  | none => (none, p)
  | some key => (some key, { p.remove key with draws := p.draws + 1 })

/-! ## ttl -/

/-- `math.MaxInt64`, the effective deadline of a key without one. -/
def ttlNever : ℤ := 2 ^ 63 - 1

def TtlItem.less (first second : TtlItem) : Bool :=
  first.expireAt < second.expireAt

def Ttl.push (p : Ttl) (item : TtlItem) : List TtlItem :=
  SliceHeap.push TtlItem.less p.h item

def Ttl.add (p : Ttl) (key : Key) : Ttl :=
  if key ∈ p.eff then p
  else
    { eff := p.eff.insert key ttlNever
      h := p.push ⟨key, ttlNever⟩ }

def Ttl.note (p : Ttl) (key : Key) (expireAt : ℤ) : Ttl :=
  let e := if expireAt = 0 then ttlNever else expireAt
  { eff := p.eff.insert key e
    h := p.push ⟨key, e⟩ }

def Ttl.remove (p : Ttl) (key : Key) : Ttl :=
  { p with eff := p.eff.erase key }

/-- Pop until an item carries the current deadline of a tracked key. -/
def Ttl.evictLoop : ℕ → Ttl → Option Key × Ttl
  | 0, p => (none, p)
  | fuel + 1, p =>
      match SliceHeap.pop TtlItem.less p.h with
      | none => (none, p)
      | some (it, rest) =>
          if p.eff.lookup it.key = some it.expireAt then
            (some it.key, { eff := p.eff.erase it.key, h := rest })
          else Ttl.evictLoop fuel { p with h := rest }

def Ttl.evict (p : Ttl) : Option Key × Ttl := Ttl.evictLoop p.h.length p

/-! ## The policy of a shard -/

inductive Policy where
  | noEviction (p : NoEviction)
  | lru (p : Lru)
  | lfu (p : Lfu)
  | fifo (p : Fifo)
  | random (p : Random)
  | ttl (p : Ttl)

inductive Kind where
  | noEviction
  | lru
  | lfu
  | fifo
  | random
  | ttl
  deriving DecidableEq, Repr

def new (rng : ℕ → ℕ) : Kind → Policy
  | .noEviction => .noEviction ⟨0⟩
  | .lru => .lru ⟨[], List.nodup_nil⟩
  | .lfu => .lfu ⟨∅, ∅, 0⟩
  | .fifo => .fifo ⟨[], List.nodup_nil⟩
  | .random => .random ⟨[], ∅, rng, 0, by simp⟩
  | .ttl => .ttl ⟨∅, []⟩

def Policy.kind : Policy → Kind
  | .noEviction _ => .noEviction
  | .lru _ => .lru
  | .lfu _ => .lfu
  | .fifo _ => .fifo
  | .random _ => .random
  | .ttl _ => .ttl

def Policy.add (policy : Policy) (key : Key) : Policy :=
  match policy with
  | .noEviction p => .noEviction p.add
  | .lru p => .lru (p.add key)
  | .lfu p => .lfu (p.add key)
  | .fifo p => .fifo (p.add key)
  | .random p => .random (p.add key)
  | .ttl p => .ttl (p.add key)

def Policy.access (policy : Policy) (key : Key) : Policy :=
  match policy with
  | .lru p => .lru (p.access key)
  | .lfu p => .lfu (p.access key)
  | other => other

def Policy.remove (policy : Policy) (key : Key) : Policy :=
  match policy with
  | .noEviction p => .noEviction p.remove
  | .lru p => .lru (p.remove key)
  | .lfu p => .lfu (p.remove key)
  | .fifo p => .fifo (p.remove key)
  | .random p => .random (p.remove key)
  | .ttl p => .ttl (p.remove key)

def Policy.note (policy : Policy) (key : Key) (expireAt : ℤ) : Policy :=
  match policy with
  | .ttl p => .ttl (p.note key expireAt)
  | other => other

def Policy.evict : Policy → Option Key × Policy
  | .noEviction p => (none, .noEviction p)
  | .lru p => (p.evict.1, .lru p.evict.2)
  | .lfu p => (p.evict.1, .lfu p.evict.2)
  | .fifo p => (p.evict.1, .fifo p.evict.2)
  | .random p => (p.evict.1, .random p.evict.2)
  | .ttl p => (p.evict.1, .ttl p.evict.2)

def Policy.len : Policy → ℕ
  | .noEviction p => p.n
  | .lru p => p.ll.length
  | .lfu p => p.nodes.keys.length
  | .fifo p => p.ll.length
  | .random p => p.keys.length
  | .ttl p => p.eff.keys.length

/-! ## Every eviction uses something up -/

def Policy.supply : Policy → ℕ
  | .noEviction _ => 0
  | .lru p => p.ll.length
  | .lfu p => AListSum.weight (fun _ b => b.length) p.freqBuckets
  | .fifo p => p.ll.length
  | .random p => p.keys.length
  | .ttl p => p.h.length

theorem Lru.supply_evict {p : Lru} {key : Key} (hevict : p.evict.1 = some key) :
    p.evict.2.ll.length < p.ll.length := by
  unfold Lru.evict at hevict ⊢
  cases hlast : p.ll.getLast? with
  | none => simp [hlast] at hevict
  | some last =>
      have hne : p.ll ≠ [] := by
        rintro hnil
        simp [hnil] at hlast
      have hpos := List.length_pos_of_ne_nil hne
      simp only [List.length_dropLast]
      omega

theorem Fifo.supply_evict {p : Fifo} {key : Key} (hevict : p.evict.1 = some key) :
    p.evict.2.ll.length < p.ll.length := by
  unfold Fifo.evict at hevict ⊢
  cases hhead : p.ll.head? with
  | none => simp [hhead] at hevict
  | some first =>
      have hne : p.ll ≠ [] := by
        rintro hnil
        simp [hnil] at hhead
      have hpos := List.length_pos_of_ne_nil hne
      simp only [List.length_tail]
      omega

theorem Lfu.supply_evictFront {p : Lfu} {key : Key}
    (hevict : p.evictFront.1 = some key) :
    AListSum.weight (fun _ b => b.length) p.evictFront.2.freqBuckets <
      AListSum.weight (fun _ b => b.length) p.freqBuckets := by
  unfold Lfu.evictFront at hevict ⊢
  cases hbucket : p.bucket p.minFreq with
  | nil => simp [hbucket] at hevict
  | cons first rest =>
      have hlookup : p.freqBuckets.lookup p.minFreq = some (first :: rest) := by
        unfold Lfu.bucket at hbucket
        cases hfound : p.freqBuckets.lookup p.minFreq with
        | none => simp [hfound] at hbucket
        | some b => simpa [hfound] using hbucket
      rw [AListSum.weight_of_lookup _ hlookup]
      simp only [Lfu.putBucket]
      split_ifs with hrest
      · simp [hrest]
      · rw [AListSum.weight_insert]
        simp

theorem Lfu.supply_evict {p : Lfu} {key : Key} (hevict : p.evict.1 = some key) :
    AListSum.weight (fun _ b => b.length) p.evict.2.freqBuckets <
      AListSum.weight (fun _ b => b.length) p.freqBuckets := by
  unfold Lfu.evict at hevict ⊢
  split_ifs at hevict ⊢ with hnodes hbucket
  · exact Lfu.supply_evictFront (p := p.recomputeMinFreq) hevict
  · exact Lfu.supply_evictFront hevict

theorem Random.length_remove {p : Random} {key : Key} {i : ℕ}
    (hkey : p.keys[i]? = some key) :
    (p.remove key).keys.length < p.keys.length := by
  have hlookup := (p.idx_iff key i).mpr hkey
  have hlt := (List.getElem?_eq_some_iff.mp hkey).1
  have hlast : p.keys[p.keys.length - 1]? =
      some (p.keys[p.keys.length - 1]) :=
    List.getElem?_eq_getElem (by omega)
  unfold Random.remove
  split
  · simp only [List.length_take, List.length_set]
    omega
  · rename_i hnone
    exact absurd hlast (hnone _ _ hlookup)

theorem Random.supply_evict {p : Random} {key : Key}
    (hevict : p.evict.1 = some key) :
    p.evict.2.keys.length < p.keys.length := by
  unfold Random.evict at hevict ⊢
  cases hkey : p.keys[p.rng p.draws % p.keys.length]? with
  | none => simp [hkey] at hevict
  | some found => simpa using Random.length_remove hkey

theorem Ttl.supply_evictLoop {fuel : ℕ} {p : Ttl} {key : Key}
    (hevict : (Ttl.evictLoop fuel p).1 = some key) :
    (Ttl.evictLoop fuel p).2.h.length < p.h.length := by
  induction fuel generalizing p with
  | zero => simp [Ttl.evictLoop] at hevict
  | succ fuel ih =>
      simp only [Ttl.evictLoop] at hevict ⊢
      cases hpop : SliceHeap.pop TtlItem.less p.h with
      | none => simp [hpop] at hevict
      | some popped =>
          obtain ⟨it, rest⟩ := popped
          have hlength := SliceHeap.length_pop _ hpop
          simp only [hpop] at hevict ⊢
          split_ifs at hevict ⊢ with hcurrent
          · exact hlength
          · exact (ih hevict).trans hlength

/-- A policy runs dry: no loop that evicts can go on for ever. -/
theorem Policy.supply_evict {policy : Policy} {key : Key}
    (hevict : policy.evict.1 = some key) :
    policy.evict.2.supply < policy.supply := by
  cases policy with
  | noEviction p => simp [Policy.evict] at hevict
  | lru p => exact Lru.supply_evict hevict
  | lfu p => exact Lfu.supply_evict hevict
  | fifo p => exact Fifo.supply_evict hevict
  | random p => exact Random.supply_evict hevict
  | ttl p => exact Ttl.supply_evictLoop hevict

end Eviction
end DistCache
