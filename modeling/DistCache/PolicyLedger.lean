import DistCache.CapacityLimits
import DistCache.RecencyOrder

/-!
# What the callers of a policy know

A ledger is kept beside a policy, from the calls and from the keys that the evictions
have given: for every tracked key the time of its insertion, the time and the number of
its uses, and its deadline.  A policy is recorded by a ledger if it has the keys of the
ledger in the order of the records.  Every call keeps it so, and an eviction gives the
first key in that order.
-/

namespace DistCache
namespace Eviction

open Recency

/-! ## Ledgers -/

structure Record where
  inserted : ℕ
  touched : ℕ
  freq : ℕ
  deadline : ℤ
  deriving DecidableEq

structure Record.MadeBefore (r : Record) (time : ℕ) : Prop where
  inserted : r.inserted < time
  touched : r.touched < time
  freq : 1 ≤ r.freq

theorem Record.MadeBefore.later {r : Record} {time : ℕ} (hbefore : r.MadeBefore time) :
    r.MadeBefore (time + 1) :=
  ⟨Nat.lt_succ_of_lt hbefore.inserted, Nat.lt_succ_of_lt hbefore.touched, hbefore.freq⟩

inductive PolicyCall where
  | add (key : Key)
  | note (key : Key) (expireAt : ℤ)
  | access (key : Key)
  | remove (key : Key)
  | evict
  deriving DecidableEq

structure Ledger where
  calls : ℕ
  record : Key → Option Record

namespace Ledger

def empty : Ledger := ⟨0, fun _ => none⟩

def put (ledger : Ledger) (key : Key) (entry : Option Record) : Ledger :=
  ⟨ledger.calls + 1, Function.update ledger.record key entry⟩

def fresh (ledger : Ledger) : Record := ⟨ledger.calls, ledger.calls, 1, ttlNever⟩

def touch (ledger : Ledger) (r : Record) : Record :=
  { r with touched := ledger.calls, freq := r.freq + 1 }

def add (ledger : Ledger) (key : Key) : Ledger :=
  ledger.put key (some (((ledger.record key).map ledger.touch).getD ledger.fresh))

def access (ledger : Ledger) (key : Key) : Ledger :=
  ledger.put key ((ledger.record key).map ledger.touch)

/-- The deadline `0` stands for no deadline. -/
def note (ledger : Ledger) (key : Key) (expireAt : ℤ) : Ledger :=
  ledger.put key (some
    { (ledger.record key).getD ledger.fresh with
      deadline := if expireAt = 0 then ttlNever else expireAt })

def remove (ledger : Ledger) (key : Key) : Ledger := ledger.put key none

def idle (ledger : Ledger) : Ledger := { ledger with calls := ledger.calls + 1 }

def evicted (ledger : Ledger) : Option Key → Ledger
  | none => ledger.idle
  | some victim => ledger.remove victim

def Timed (ledger : Ledger) : Prop :=
  ∀ key r, ledger.record key = some r → r.MadeBefore ledger.calls

variable {ledger : Ledger}

theorem Timed.put (htimed : ledger.Timed) (key : Key) {entry : Option Record}
    (hentry : ∀ r, entry = some r → r.MadeBefore (ledger.calls + 1)) :
    (ledger.put key entry).Timed := by
  intro other r hrecord
  simp only [Ledger.put] at hrecord ⊢
  by_cases hother : other = key
  · rw [hother, Function.update_self] at hrecord
    exact hentry r hrecord
  · rw [Function.update_of_ne hother] at hrecord
    exact (htimed other r hrecord).later

theorem madeBefore_fresh (ledger : Ledger) : ledger.fresh.MadeBefore (ledger.calls + 1) :=
  ⟨Nat.lt_succ_self _, Nat.lt_succ_self _, le_rfl⟩

theorem Timed.touch (htimed : ledger.Timed) {key : Key} {r : Record}
    (hentry : (ledger.record key).map ledger.touch = some r) :
    r.MadeBefore (ledger.calls + 1) := by
  obtain ⟨old, hold, rfl⟩ := Option.map_eq_some_iff.mp hentry
  have hbefore := htimed key old hold
  exact ⟨Nat.lt_succ_of_lt hbefore.inserted, Nat.lt_succ_self _, Nat.le_succ_of_le hbefore.freq⟩

theorem Timed.add (htimed : ledger.Timed) (key : Key) : (ledger.add key).Timed := by
  apply htimed.put key
  intro r hentry
  cases htouch : (ledger.record key).map ledger.touch with
  | none =>
      rw [htouch, Option.getD_none, Option.some.injEq] at hentry
      rw [← hentry]
      exact ledger.madeBefore_fresh
  | some touched =>
      rw [htouch, Option.getD_some, Option.some.injEq] at hentry
      exact htimed.touch (htouch.trans (congrArg some hentry))

theorem Timed.access (htimed : ledger.Timed) (key : Key) : (ledger.access key).Timed :=
  htimed.put key fun _ hentry => htimed.touch hentry

theorem Timed.note (htimed : ledger.Timed) (key : Key) (expireAt : ℤ) :
    (ledger.note key expireAt).Timed := by
  apply htimed.put key
  intro r hentry
  rw [Option.some.injEq] at hentry
  subst r
  cases hrecord : ledger.record key with
  | none =>
      have hfresh := ledger.madeBefore_fresh
      exact ⟨hfresh.inserted, hfresh.touched, hfresh.freq⟩
  | some old =>
      have hold := (htimed key old hrecord).later
      exact ⟨hold.inserted, hold.touched, hold.freq⟩

theorem Timed.remove (htimed : ledger.Timed) (key : Key) : (ledger.remove key).Timed :=
  htimed.put key fun _ hentry => absurd hentry (Option.some_ne_none _).symm

theorem Timed.idle (htimed : ledger.Timed) : ledger.idle.Timed := fun key r hrecord =>
  (htimed key r hrecord).later

theorem Timed.evicted (htimed : ledger.Timed) (outcome : Option Key) :
    (ledger.evicted outcome).Timed := by
  cases outcome with
  | none => exact htimed.idle
  | some victim => exact htimed.remove victim

theorem Timed.stamp_lt (htimed : ledger.Timed) {stamp : Record → ℕ}
    (hstamp : ∀ r time, r.MadeBefore time → stamp r < time) (key : Key) (n : ℕ)
    (hn : (Option.map stamp ∘ ledger.record) key = some n) : n < ledger.calls := by
  obtain ⟨r, hrecord, rfl⟩ := Option.map_eq_some_iff.mp hn
  exact hstamp r ledger.calls (htimed key r hrecord)

theorem access_of_none {key : Key} (hrecord : ledger.record key = none) :
    (ledger.access key).record = ledger.record := by
  simp only [access, put, hrecord, Option.map_none, Function.update_eq_self_iff]

end Ledger

/-! ## A policy with its ledger -/

structure Watched where
  policy : Policy
  ledger : Ledger

/-- Only `ttl` is told about deadlines. -/
def Watched.call (w : Watched) : PolicyCall → Watched
  | .add key => ⟨w.policy.add key, w.ledger.add key⟩
  | .note key expireAt =>
      ⟨w.policy.note key expireAt,
        if w.policy.kind = .ttl then w.ledger.note key expireAt else w.ledger.idle⟩
  | .access key => ⟨w.policy.access key, w.ledger.access key⟩
  | .remove key => ⟨w.policy.remove key, w.ledger.remove key⟩
  | .evict => ⟨w.policy.evict.2, w.ledger.evicted w.policy.evict.1⟩

def watch (rng : ℕ → ℕ) (kind : Kind) (calls : List PolicyCall) : Watched :=
  calls.foldl Watched.call ⟨new rng kind, .empty⟩

end Eviction
end DistCache
