import DistCache.DeadlineStore
import DistCache.EvictionPolicy
import Mathlib.Data.Nat.Digits.Defs

/-!
# One shard of the cache

A shard holds the entries of the keys that hash to it, an eviction policy and
the approximate memory they use.  Every operation returns the shard after it,
the events it emits in order, and its result.  An operation runs under the
shard's lock, so that it is one step of the cache.
-/

namespace DistCache

open DeadlineStore Eviction

/-- The stored value is a private copy, so that it is nil exactly when empty. -/
abbrev Item := Entry Bytes ℤ

abbrev Contents := Store Key Bytes ℤ

/-- `Op` is a byte; the codes without a name are the ones from four on. -/
inductive Op where
  | opSet
  | opDel
  | opExpire
  | opFlush
  | other (code : Fin 252)
  deriving DecidableEq, Repr

structure Event where
  seq : ℕ
  op : Op
  key : Key
  value : Bytes
  expireAt : ℤ
  deriving DecidableEq, Repr

namespace Event

def set (key : Key) (value : Bytes) (expireAt : ℤ) : Event :=
  ⟨0, .opSet, key, value, expireAt⟩

def del (key : Key) : Event := ⟨0, .opDel, key, [], 0⟩

def expire (key : Key) (expireAt : ℤ) : Event :=
  ⟨0, .opExpire, key, [], expireAt⟩

def flush : Event := ⟨0, .opFlush, [], [], 0⟩

/-- What an event asks of the store that applies it. -/
def mutation? (ev : Event) : Option (Mutation Key Bytes ℤ) :=
  match ev.op with
  | .opSet => some (.set ev.key ⟨ev.value, ev.expireAt⟩)
  | .opDel => some (.del ev.key)
  | .opExpire => some (.expire ev.key ev.expireAt)
  | .opFlush => some .flush
  | .other _ => none

end Event

def mutations (events : List Event) : List (Mutation Key Bytes ℤ) :=
  events.filterMap Event.mutation?

@[simp] theorem mutations_nil : mutations [] = [] := rfl

@[simp] theorem mutations_append (first second : List Event) :
    mutations (first ++ second) = mutations first ++ mutations second := by
  simp [mutations]

@[simp] theorem mutations_set_cons
    (key : Key) (value : Bytes) (expireAt : ℤ) (events : List Event) :
    mutations (Event.set key value expireAt :: events) =
      .set key ⟨value, expireAt⟩ :: mutations events := rfl

@[simp] theorem mutations_del_cons (key : Key) (events : List Event) :
    mutations (Event.del key :: events) = .del key :: mutations events := rfl

@[simp] theorem mutations_expire_cons
    (key : Key) (expireAt : ℤ) (events : List Event) :
    mutations (Event.expire key expireAt :: events) =
      .expire key expireAt :: mutations events := rfl

@[simp] theorem mutations_flush_cons (events : List Event) :
    mutations (Event.flush :: events) = .flush :: mutations events := rfl

@[simp] theorem mutations_map_del (keys : List Key) :
    mutations (keys.map Event.del) = keys.map .del := by
  induction keys with
  | nil => rfl
  | cons key keys ih =>
      rw [List.map_cons, mutations_del_cons, ih, List.map_cons]

/-! ## Integers in decimal -/

def int64 (n : ℤ) : ℤ := n.bmod (2 ^ 64)

def parseDigits : List UInt8 → ℕ → Option ℕ
  | [], n => some n
  | d :: rest, n =>
      if 48 ≤ d ∧ d ≤ 57 then parseDigits rest (10 * n + (d.toNat - 48)) else none

def parseUint (s : Bytes) : Option ℕ :=
  match s with
  | [] => none
  | _ => parseDigits s 0

/-- `strconv.ParseInt` in base ten with 64 bits; `none` is any of its errors. -/
def parseInt (s : Bytes) : Option ℤ :=
  match s with
  | 45 :: rest =>
      (parseUint rest).bind fun n => if n ≤ 2 ^ 63 then some (-(n : ℤ)) else none
  | 43 :: rest =>
      (parseUint rest).bind fun n => if n < 2 ^ 63 then some (n : ℤ) else none
  | _ =>
      (parseUint s).bind fun n => if n < 2 ^ 63 then some (n : ℤ) else none

def formatNat (n : ℕ) : Bytes :=
  if n = 0 then [48]
  else ((Nat.digits 10 n).map fun d => UInt8.ofNat (48 + d)).reverse

def formatInt (n : ℤ) : Bytes :=
  if n < 0 then 45 :: formatNat n.natAbs else formatNat n.natAbs

/-! ## The shard and its operations -/

structure Shard where
  items : AList (fun _ : Key => Item)
  policy : Policy
  mem : ℤ
  maxEntries : ℤ
  maxMemory : ℤ

structure Outcome (α : Type) where
  shard : Shard
  events : List Event
  result : α

inductive CacheError where
  | errNotInteger
  deriving DecidableEq, Repr

def entryOverhead : ℕ := 64

def approxSize (key : Key) (value : Bytes) : ℤ :=
  ((key.length + value.length + entryOverhead : ℕ) : ℤ)

namespace Shard

def new (policy : Policy) (maxEntries maxMemory : ℤ) : Shard :=
  ⟨∅, policy, 0, maxEntries, maxMemory⟩

def view (s : Shard) : Contents := fun key => s.items.lookup key

def removeLocked (s : Shard) (key : Key) (it : Item) : Shard :=
  { s with
    items := s.items.erase key
    policy := s.policy.remove key
    mem := max (s.mem - approxSize key it.value) 0 }

def setLocked (s : Shard) (key : Key) (value : Bytes) (expireAt : ℤ) : Shard :=
  match s.items.lookup key with
  | some old =>
      { s with
        items := s.items.insert key ⟨value, expireAt⟩
        mem := s.mem + (value.length - old.value.length)
        policy := (s.policy.access key).note key expireAt }
  | none =>
      { s with
        items := s.items.insert key ⟨value, expireAt⟩
        mem := s.mem + approxSize key value
        policy := (s.policy.add key).note key expireAt }

def OverCapacity (s : Shard) : Prop :=
  0 < s.maxEntries ∧ s.maxEntries < s.items.keys.length ∨
    0 < s.maxMemory ∧ s.maxMemory < s.mem

instance (s : Shard) : Decidable s.OverCapacity :=
  inferInstanceAs (Decidable (_ ∨ _))

def dropVictim (s : Shard) (victim : Key) (it : Item) : Shard :=
  { s with
    items := s.items.erase victim
    mem := max (s.mem - approxSize victim it.value) 0 }

/-- One turn of the loop in `enforceLimitsLocked`; `again` is the rest of it. -/
def enforceTurn (protectedKey : Key) (again : Shard → Shard × List Key)
    (s : Shard) : Shard × List Key :=
  if s.OverCapacity then
    let s' := { s with policy := s.policy.evict.2 }
    match s.policy.evict.1 with
    | none => (s', [])
    | some victim =>
        if victim = protectedKey then
          ({ s' with policy := s'.policy.add victim }, [])
        else
          match s.items.lookup victim with
          | some it =>
              let r := again (s'.dropVictim victim it)
              (r.1, victim :: r.2)
          | none => again s'
  else (s, [])

def enforceLoop (protectedKey : Key) : ℕ → Shard → Shard × List Key
  | 0 => fun s => (s, [])
  | fuel + 1 => enforceTurn protectedKey (enforceLoop protectedKey fuel)

/-- The policy's supply bounds the number of turns; `enforceLimitsLocked_eq` is
the loop of the source, without a bound. -/
def enforceLimitsLocked (s : Shard) (protectedKey : Key) : Shard × List Key :=
  enforceLoop protectedKey (s.policy.supply + 1) s

/-- The common shape of the reads: an absent key, an entry that has expired and
is removed on the way, and a live entry. -/
def lookupLive {α : Type} (s : Shard) (key : Key) (now : ℤ)
    (absent gone : α) (found : Item → Outcome α) : Outcome α :=
  match s.items.lookup key with
  | none => ⟨s, [], absent⟩
  | some it =>
      if it.expired now then
        ⟨s.removeLocked key it, [.del key], gone⟩
      else found it

def get (s : Shard) (key : Key) (now : ℤ) : Outcome (Bytes × Bool × Key) :=
  s.lookupLive key now ([], false, []) ([], false, key) fun it =>
    ⟨{ s with policy := s.policy.access key }, [], (it.value, true, [])⟩

def set (s : Shard) (key : Key) (value : Bytes) (expireAt : ℤ) :
    Outcome (List Key) :=
  let r := (s.setLocked key value expireAt).enforceLimitsLocked key
  ⟨r.1, .set key value expireAt :: r.2.map .del, r.2⟩

def del (s : Shard) (key : Key) : Outcome Bool :=
  match s.items.lookup key with
  | none => ⟨s, [], false⟩
  | some it => ⟨s.removeLocked key it, [.del key], true⟩

def exists_ (s : Shard) (key : Key) (now : ℤ) : Outcome (Bool × Key) :=
  s.lookupLive key now (false, []) (false, key) fun _ => ⟨s, [], (true, [])⟩

def retime (s : Shard) (key : Key) (it : Item) (expireAt : ℤ) : Shard :=
  { s with
    items := s.items.insert key (it.retime expireAt)
    policy := s.policy.note key expireAt }

def expire (s : Shard) (key : Key) (expireAt now : ℤ) : Outcome (Bool × Key) :=
  s.lookupLive key now (false, []) (false, key) fun it =>
    ⟨s.retime key it expireAt, [.expire key expireAt], (true, [])⟩

def ttl (s : Shard) (key : Key) (now : ℤ) : Outcome (ℤ × Bool × Key) :=
  s.lookupLive key now (0, false, []) (0, false, key) fun it =>
    ⟨s, [], (it.expireAt, true, [])⟩

/-- The counter's current value and the shard to write the new one to: an
expired entry is removed without an event. -/
def counterBase (s : Shard) (key : Key) (now : ℤ) : Option (Shard × ℤ) :=
  match s.items.lookup key with
  | none => some (s, 0)
  | some it =>
      if it.expired now then some (s.removeLocked key it, 0)
      else (parseInt it.value).map fun base => (s, base)

def incrBy (s : Shard) (key : Key) (delta now : ℤ) :
    Outcome (Except CacheError (ℤ × List Key)) :=
  match s.counterBase key now with
  | none => ⟨s, [], .error .errNotInteger⟩
  | some (s', base) =>
      let newVal := int64 (base + delta)
      let r := s'.set key (formatInt newVal) 0
      ⟨r.shard, r.events, .ok (newVal, r.result)⟩

def flushSilent (s : Shard) : Shard :=
  { s with
    items := ∅
    policy := s.items.keys.foldl Policy.remove s.policy
    mem := 0 }

def flush (s : Shard) : Outcome Unit := ⟨s.flushSilent, [.flush], ()⟩

def sweepLoop (now : ℤ) : List Key → Shard → Shard × List Key
  | [], s => (s, [])
  | key :: rest, s =>
      match s.items.lookup key with
      | none => sweepLoop now rest s
      | some it =>
          if it.expired now then
            let r := sweepLoop now rest (s.removeLocked key it)
            (r.1, key :: r.2)
          else sweepLoop now rest s

/-- `order` is the iteration order of the map, which the language leaves
open. -/
def sweepExpired (s : Shard) (now : ℤ) (sample : ℕ) (order : List Key) :
    Outcome (List Key) :=
  let r := sweepLoop now (order.take sample) s
  ⟨r.1, r.2.map .del, r.2⟩

def keys (s : Shard) (now : ℤ) : List Key :=
  (s.items.entries.filter fun entry => ¬ entry.2.expired now).map Sigma.fst

def len (s : Shard) : ℕ := s.items.keys.length

def exportEntries (s : Shard) (now : ℤ) : List (Key × Item) :=
  (s.items.entries.filter fun entry => ¬ entry.2.expired now).map
    fun entry => (entry.1, entry.2)

def applySet (s : Shard) (key : Key) (value : Bytes) (expireAt : ℤ) : Shard :=
  ((s.setLocked key value expireAt).enforceLimitsLocked key).1

def applyDel (s : Shard) (key : Key) : Shard :=
  match s.items.lookup key with
  | none => s
  | some it => s.removeLocked key it

def applyExpire (s : Shard) (key : Key) (expireAt : ℤ) : Shard :=
  match s.items.lookup key with
  | none => s
  | some it => s.retime key it expireAt

/-! ## The ways in which the operations end -/

variable {s : Shard} {key : Key} {now : ℤ}

theorem lookupLive_rule {α : Type} {absent gone : α} {found : Item → Outcome α}
    {P : Outcome α → Prop} (habsent : s.items.lookup key = none → P ⟨s, [], absent⟩)
    (hgone : ∀ it, s.items.lookup key = some it → it.expired now →
      P ⟨s.removeLocked key it, [.del key], gone⟩)
    (hfound : ∀ it, s.items.lookup key = some it → ¬ it.expired now → P (found it)) :
    P (s.lookupLive key now absent gone found) := by
  unfold lookupLive
  cases hlookup : s.items.lookup key with
  | none => exact habsent hlookup
  | some it =>
      by_cases hexpired : it.expired now
      · simp only [if_pos hexpired]
        exact hgone it hlookup hexpired
      · simp only [if_neg hexpired]
        exact hfound it hlookup hexpired

theorem counterBase_cases {base : Shard × ℤ} (hbase : s.counterBase key now = some base) :
    base.1 = s ∨ ∃ it, s.items.lookup key = some it ∧ it.expired now ∧
      base.1 = s.removeLocked key it := by
  unfold counterBase at hbase
  cases hlookup : s.items.lookup key with
  | none =>
      simp only [hlookup, Option.some.injEq] at hbase
      exact Or.inl (by rw [← hbase])
  | some it =>
      simp only [hlookup] at hbase
      by_cases hexpired : it.expired now
      · simp only [if_pos hexpired, Option.some.injEq] at hbase
        exact Or.inr ⟨it, rfl, hexpired, by rw [← hbase]⟩
      · simp only [if_neg hexpired, Option.map_eq_some_iff] at hbase
        obtain ⟨number, _, rfl⟩ := hbase
        exact Or.inl rfl

end Shard

end DistCache
