import Mathlib.Tactic

/-!
# Bounded queues that drop

A queue of bounded size takes an item at its end if there is room, and misses the
item otherwise.  Who has missed it counts that in a step of its own.  The log of a
queue says in which order items were sent to it and received from it; the rules
below say what each entry does to the balance of the queue.
-/

namespace DistCache
namespace DropTail

variable {α : Type*}

inductive Entry (α : Type*) where
  | passed (a : α)
  | missed (a : α)
  | counted
  | received (a : α)
  deriving DecidableEq, Repr

def sent (log : List (Entry α)) : List α :=
  log.filterMap fun
    | .passed a => some a
    | .missed a => some a
    | _ => none

def passed (log : List (Entry α)) : List α :=
  log.filterMap fun
    | .passed a => some a
    | _ => none

def missed (log : List (Entry α)) : List α :=
  log.filterMap fun
    | .missed a => some a
    | _ => none

def received (log : List (Entry α)) : List α :=
  log.filterMap fun
    | .received a => some a
    | _ => none

def counted (log : List (Entry α)) : ℕ :=
  log.countP fun
    | .counted => true
    | _ => false

def completed (log : List (Entry α)) : ℕ := (passed log).length + counted log

structure Conserved (cap : ℕ) (log : List (Entry α)) (queue : List α) (waiting : ℕ) :
    Prop where
  inOrder : received log ++ queue = passed log
  bounded : queue.length ≤ cap
  waiting : (missed log).length = counted log + waiting

variable {cap waiting : ℕ} {log : List (Entry α)} {queue : List α} {a : α}

theorem length_sent (log : List (Entry α)) :
    (sent log).length = (passed log).length + (missed log).length := by
  induction log with
  | nil => rfl
  | cons entry rest ih =>
      cases entry <;> simp [sent, passed, missed] at ih ⊢ <;> omega

theorem passed_append (log more : List (Entry α)) :
    passed (log ++ more) = passed log ++ passed more :=
  List.filterMap_append

theorem missed_append (log more : List (Entry α)) :
    missed (log ++ more) = missed log ++ missed more :=
  List.filterMap_append

theorem received_append (log more : List (Entry α)) :
    received (log ++ more) = received log ++ received more :=
  List.filterMap_append

theorem sent_append (log more : List (Entry α)) : sent (log ++ more) = sent log ++ sent more :=
  List.filterMap_append

theorem counted_append (log more : List (Entry α)) :
    counted (log ++ more) = counted log + counted more :=
  List.countP_append

namespace Conserved

theorem nil (cap : ℕ) : Conserved cap ([] : List (Entry α)) [] 0 :=
  ⟨rfl, Nat.zero_le cap, rfl⟩

theorem aside {entry : Entry α} {more : ℕ} (hconserved : Conserved cap log queue waiting)
    (hpassed : passed [entry] = []) (hreceived : received [entry] = [])
    (hmore : (missed [entry]).length + waiting = counted [entry] + more) :
    Conserved cap (log ++ [entry]) queue more where
  inOrder := by
    rw [received_append, passed_append, hpassed, hreceived, List.append_nil, List.append_nil]
    exact hconserved.inOrder
  bounded := hconserved.bounded
  waiting := by
    have hwaiting := hconserved.waiting
    rw [missed_append, counted_append, List.length_append]
    omega

theorem miss (hconserved : Conserved cap log queue waiting) :
    Conserved cap (log ++ [.missed a]) queue (waiting + 1) :=
  hconserved.aside rfl rfl (Nat.add_comm 1 waiting |>.trans (Nat.zero_add _).symm)

theorem count (hconserved : Conserved cap log queue (waiting + 1)) :
    Conserved cap (log ++ [.counted]) queue waiting :=
  hconserved.aside rfl rfl ((Nat.zero_add _).trans (Nat.add_comm waiting 1))

theorem pass (hconserved : Conserved cap log queue waiting) (hroom : queue.length < cap) :
    Conserved cap (log ++ [.passed a]) (queue ++ [a]) waiting where
  inOrder := by
    rw [received_append, passed_append, ← hconserved.inOrder]
    show (received log ++ []) ++ (queue ++ [a]) = (received log ++ queue) ++ [a]
    rw [List.append_nil, List.append_assoc]
  bounded := by
    rw [List.length_append, List.length_singleton]
    exact hroom
  waiting := by
    rw [missed_append, counted_append, List.length_append, hconserved.waiting]
    rfl

theorem receive (hconserved : Conserved cap log (a :: queue) waiting) :
    Conserved cap (log ++ [.received a]) queue waiting where
  inOrder := by
    rw [received_append, passed_append, ← hconserved.inOrder]
    show (received log ++ [a]) ++ queue = (received log ++ a :: queue) ++ []
    rw [List.append_nil, List.append_assoc, List.singleton_append]
  bounded := (Nat.le_succ _).trans hconserved.bounded
  waiting := by
    rw [missed_append, counted_append, List.length_append, hconserved.waiting]
    rfl

theorem total (hconserved : Conserved cap log queue waiting) :
    (received log).length + queue.length + counted log = completed log := by
  rw [completed, ← hconserved.inOrder, List.length_append]

theorem length_sent_eq (hconserved : Conserved cap log queue waiting) :
    (sent log).length = completed log + waiting := by
  rw [length_sent, hconserved.waiting, completed]
  omega

end Conserved

end DropTail
end DistCache
