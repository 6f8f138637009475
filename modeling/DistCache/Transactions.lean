import DistCache.EventDispatch

/-!
# Connections and their transactions

The connections run beside each other and beside the dispatcher.  A plain command calls
the cache for one key after the other.  `WATCH` waits for a barrier and then takes the
versions of its keys from the coordinator.  `EXEC` takes the lock of the coordinator,
compares the versions, and runs the queued commands; plain commands and the sweeper do
not take that lock.

The numbers of the commands tell them apart; the program does not have them.
-/

namespace DistCache
namespace Txn

open DeadlineStore Eviction Transition

variable {C : Type*} [DecidableEq C] {L : Layout}

/-- What the handler of a command asks of the cache, whatever the answers are. -/
abbrev Command (L : Layout) := List (KeyOp L)

structure Tx (L : Layout) where
  watched : AList fun _ : Key => ℕ
  queued : List (Command L)
  inMulti : Bool

namespace Tx

def new : Tx L := ⟨∅, [], false⟩

end Tx

structure Coordinator (C : Type*) where
  versions : Key → ℕ
  watchers : Key → ℕ
  execMu : Option C

namespace Coordinator

def new : Coordinator C := ⟨fun _ => 0, fun _ => 0, none⟩

def onEvent (co : Coordinator C) (ev : Event) : Coordinator C :=
  if ev.op = .opFlush then
    { co with versions := fun key => if 0 < co.watchers key then co.versions key + 1
        else co.versions key }
  else if ev.key ≠ [] ∧ 0 < co.watchers ev.key then
    { co with versions := Function.update co.versions ev.key (co.versions ev.key + 1) }
  else co

def watchKey (r : Coordinator C × Tx L) (key : Key) : Coordinator C × Tx L :=
  if key ∈ r.2.watched then r
  else
    ({ r.1 with watchers := Function.update r.1.watchers key (r.1.watchers key + 1) },
      { r.2 with watched := r.2.watched.insert key (r.1.versions key) })

def watch (co : Coordinator C) (tx : Tx L) (keys : List Key) : Coordinator C × Tx L :=
  keys.foldl watchKey (co, tx)

def release (co : Coordinator C) (tx : Tx L) : Coordinator C :=
  { co with
    watchers := fun key => if key ∈ tx.watched then co.watchers key - 1 else co.watchers key
    versions := fun key => if key ∈ tx.watched ∧ co.watchers key = 1 then 0
      else co.versions key }

def Unchanged (co : Coordinator C) (tx : Tx L) : Prop :=
  ∀ entry ∈ tx.watched.entries, co.versions entry.1 = entry.2

instance (co : Coordinator C) (tx : Tx L) : Decidable (co.Unchanged tx) :=
  inferInstanceAs (Decidable (∀ entry ∈ tx.watched.entries, co.versions entry.1 = entry.2))

end Coordinator

/-- What a connection is doing.  A command that has begun to call the cache has a
number. -/
inductive Activity (L : Layout) where
  | idle
  | watching (ticket : ℕ) (keys : List Key)
  | plain (number : Option ℕ) (ops : List (KeyOp L))
  | checking
  | aborting
  | exec (number : Option ℕ) (ops : List (KeyOp L))

namespace Activity

def number : Activity L → Option ℕ
  | .plain number _ => number
  | .exec number _ => number
  | _ => none

def ops : Activity L → List (KeyOp L)
  | .plain _ ops => ops
  | .exec _ ops => ops
  | _ => []

def next (number : ℕ) : Activity L → Option (KeyOp L × Activity L)
  | .plain _ (op :: ops) => some (op, .plain (some number) ops)
  | .exec _ (op :: ops) => some (op, .exec (some number) ops)
  | _ => none

end Activity

inductive Stage where
  | before
  | checked
  | started
  deriving DecidableEq

def Activity.stage : Activity L → Stage
  | .exec none _ => .checked
  | .exec (some _) _ => .started
  | _ => .before

theorem Activity.next_eq_some {activity after : Activity L} {number : ℕ} {op : KeyOp L}
    (hnext : activity.next number = some (op, after)) :
    activity.ops = op :: after.ops ∧ after.number = some number ∧
      (after.stage = activity.stage ∨
        activity.stage = .checked ∧ after.stage = .started) := by
  cases activity with
  | plain before ops =>
      cases ops with
      | nil => contradiction
      | cons first rest =>
          cases hnext
          exact ⟨rfl, rfl, Or.inl rfl⟩
  | exec before ops =>
      cases ops with
      | nil => contradiction
      | cons first rest =>
          cases hnext
          cases before with
          | none => exact ⟨rfl, rfl, Or.inr ⟨rfl, rfl⟩⟩
          | some n => exact ⟨rfl, rfl, Or.inl rfl⟩
  | idle => contradiction
  | watching ticket keys => contradiction
  | checking => contradiction
  | aborting => contradiction

structure Conn (L : Layout) where
  tx : Option (Tx L)
  inMulti : Bool
  activity : Activity L

namespace Conn

def new : Conn L := ⟨none, false, .idle⟩

def theTx (c : Conn L) : Tx L := c.tx.getD .new

def watched (c : Conn L) : AList fun _ : Key => ℕ := c.theTx.watched

end Conn

structure Server (C : Type*) (L : Layout) where
  engine : Engine L
  co : Coordinator C
  conns : C → Conn L
  begun : ℕ

inductive Action (C : Type*) (L : Layout) where
  | watch (i : C) (keys : List Key)
  | watched (i : C)
  | multi (i : C)
  | queue (i : C) (cmd : Command L)
  | discard (i : C)
  | unwatch (i : C)
  | plain (i : C) (cmd : Command L)
  | exec (i : C)
  | check (i : C)
  | call (i : C) (clock : Clock)
  | finish (i : C)
  | sweep (clock : Clock) (shard : Fin L.shards) (sample : ℕ) (order : List Key)
  | dequeue
  | onEvent
  | publish

namespace Server

def start (c : Cache L) (clock : ℤ) : Server C L :=
  ⟨Engine.start c clock, .new, fun _ => .new, 0⟩

def setConn (s : Server C L) (i : C) (c : Conn L) : Server C L :=
  { s with conns := Function.update s.conns i c }

/-- `WATCH` inside `MULTI` is answered with an error. -/
def watch (s : Server C L) (i : C) (keys : List Key) : Option (Server C L) :=
  match (s.conns i).activity with
  | .idle =>
      if (s.conns i).inMulti then some s
      else
        some ({ s with engine := s.engine.sync }.setConn i { s.conns i with
          tx := some (s.conns i).theTx
          activity := .watching s.engine.tickets keys })
  | _ => none

def watched (s : Server C L) (i : C) : Option (Server C L) :=
  match (s.conns i).activity with
  | .watching ticket keys =>
      if ticket ∈ s.engine.acked then
        let r := s.co.watch (s.conns i).theTx keys
        some ({ s with co := r.1 }.setConn i { s.conns i with
          tx := some r.2
          activity := .idle })
      else none
  | _ => none

def multi (s : Server C L) (i : C) : Option (Server C L) :=
  match (s.conns i).activity with
  | .idle =>
      if (s.conns i).inMulti then some s
      else
        some (s.setConn i { s.conns i with
          tx := some { (s.conns i).theTx with inMulti := true }
          inMulti := true })
  | _ => none

def queue (s : Server C L) (i : C) (cmd : Command L) : Option (Server C L) :=
  match (s.conns i).activity with
  | .idle =>
      if (s.conns i).inMulti then
        some (s.setConn i { s.conns i with
          tx := some { (s.conns i).theTx with queued := (s.conns i).theTx.queued ++ [cmd] } })
      else none
  | _ => none

def drop (s : Server C L) (i : C) : Server C L :=
  { s with co := s.co.release (s.conns i).theTx }.setConn i .new

def discard (s : Server C L) (i : C) : Option (Server C L) :=
  match (s.conns i).activity with
  | .idle => if (s.conns i).tx.isNone then some s else some (s.drop i)
  | _ => none

def unwatch (s : Server C L) (i : C) : Option (Server C L) :=
  match (s.conns i).activity with
  | .idle =>
      if (s.conns i).tx.isSome ∧ ¬ (s.conns i).inMulti then some (s.drop i) else some s
  | _ => none

def plain (s : Server C L) (i : C) (cmd : Command L) : Option (Server C L) :=
  match (s.conns i).activity with
  | .idle =>
      if (s.conns i).inMulti then none
      else some (s.setConn i { s.conns i with activity := .plain none cmd })
  | _ => none

def exec (s : Server C L) (i : C) : Option (Server C L) :=
  match (s.conns i).activity with
  | .idle =>
      if (s.conns i).inMulti then
        if s.co.execMu.isNone then
          some ({ s with co := { s.co with execMu := some i } }.setConn i { s.conns i with
            inMulti := false
            activity := .checking })
        else none
      else some s
  | _ => none

def check (s : Server C L) (i : C) : Option (Server C L) :=
  match (s.conns i).activity with
  | .checking =>
      some (s.setConn i { s.conns i with
        activity := if s.co.Unchanged (s.conns i).theTx then
            .exec none (s.conns i).theTx.queued.flatten
          else .aborting })
  | _ => none

def number (s : Server C L) (i : C) : ℕ := (s.conns i).activity.number.getD s.begun

def call (s : Server C L) (i : C) (clock : Clock) : Option (Server C L) :=
  ((s.conns i).activity.next (s.number i)).map fun r =>
    { s with
      engine := s.engine.emit (s.engine.cache.exec ⟨clock, r.1⟩)
      begun := max s.begun (s.number i + 1) }.setConn i { s.conns i with activity := r.2 }

def finish (s : Server C L) (i : C) : Option (Server C L) :=
  match (s.conns i).activity with
  | .plain _ [] => some (s.setConn i { s.conns i with activity := .idle })
  | .exec _ [] => some { s.drop i with co := { (s.drop i).co with execMu := none } }
  | .aborting => some { s.drop i with co := { (s.drop i).co with execMu := none } }
  | _ => none

def step (s : Server C L) : Action C L → Option (Server C L)
  | .watch i keys => s.watch i keys
  | .watched i => s.watched i
  | .multi i => s.multi i
  | .queue i cmd => s.queue i cmd
  | .discard i => s.discard i
  | .unwatch i => s.unwatch i
  | .plain i cmd => s.plain i cmd
  | .exec i => s.exec i
  | .check i => s.check i
  | .call i clock => s.call i clock
  | .finish i => s.finish i
  | .sweep clock shard sample order =>
      some { s with
        engine := s.engine.emit
          (s.engine.cache.exec ⟨clock, .sweepExpired shard sample order⟩)
        begun := s.begun + 1 }
  | .dequeue => s.engine.dequeue.map fun e => { s with engine := e }
  | .onEvent => s.engine.deliver.map fun r => { s with engine := r.2, co := s.co.onEvent r.1 }
  | .publish => s.engine.publish.map fun e => { s with engine := e }

/-! ## What a step can do -/

inductive Effect (s next : Server C L) (a : Action C L) : Prop where
  | turns (i : C) (c : Conn L) (hconns : next.conns = Function.update s.conns i c)
      (hwatched : c.watched = (s.conns i).watched) (hnumber : c.activity.number = none)
      (hstage : (s.conns i).activity.stage = .before ∧ c.activity.stage = .before ∨
        a = .check i ∧ (s.conns i).activity.stage = .before ∧
          s.co.Unchanged (s.conns i).theTx)
      (hversions : next.co.versions = s.co.versions)
      (hwatchers : next.co.watchers = s.co.watchers)
      (hengine : next.engine = s.engine ∨ next.engine = s.engine.sync)
      (hbegun : next.begun = s.begun)
  | drops (i : C) (hversions : next.co.versions = (s.co.release (s.conns i).theTx).versions)
      (hwatchers : next.co.watchers = (s.co.release (s.conns i).theTx).watchers)
      (hconns : next.conns = Function.update s.conns i .new)
      (hengine : next.engine = s.engine) (hbegun : next.begun = s.begun)
  | registers (i : C) (keys : List Key)
      (hco : next.co = (s.co.watch (s.conns i).theTx keys).1)
      (hbefore : (s.conns i).activity.stage = .before)
      (hconns : next.conns = Function.update s.conns i { s.conns i with
        tx := some (s.co.watch (s.conns i).theTx keys).2
        activity := .idle })
      (hengine : next.engine = s.engine) (hbegun : next.begun = s.begun)
  | calls (i : C) (clock : Clock) (op : KeyOp L) (activity : Activity L)
      (ha : a = .call i clock) (hops : (s.conns i).activity.ops = op :: activity.ops)
      (hnumber : activity.number = some (s.number i))
      (hstage : activity.stage = (s.conns i).activity.stage ∨
        (s.conns i).activity.stage = .checked ∧ activity.stage = .started)
      (hconns : next.conns = Function.update s.conns i { s.conns i with activity := activity })
      (hco : next.co = s.co)
      (hengine : next.engine = s.engine.emit (s.engine.cache.exec ⟨clock, op⟩))
      (hbegun : next.begun = max s.begun (s.number i + 1))
  | sweeps (clock : Clock) (shard : Fin L.shards) (sample : ℕ) (order : List Key)
      (ha : a = .sweep clock shard sample order) (hconns : next.conns = s.conns)
      (hco : next.co = s.co)
      (hengine : next.engine = s.engine.emit
        (s.engine.cache.exec ⟨clock, .sweepExpired shard sample order⟩))
      (hbegun : next.begun = s.begun + 1)
  | dispatches (hconns : next.conns = s.conns) (hco : next.co = s.co)
      (hcache : next.engine.cache = s.engine.cache)
      (hlog : mutations next.engine.backlog = mutations s.engine.backlog)
      (hbegun : next.begun = s.begun)
  | delivers (ev : Event) (hdeliver : s.engine.deliver = some (ev, next.engine))
      (hco : next.co = s.co.onEvent ev) (hconns : next.conns = s.conns)
      (hbegun : next.begun = s.begun)

section Effect

variable {s next : Server C L} {a : Action C L} {i : C}

theorem effect_idle (hidle : (s.conns i).activity = .idle) {c : Conn L}
    (hconns : next.conns = Function.update s.conns i c)
    (hwatched : c.watched = (s.conns i).watched) (hnumber : c.activity.number = none)
    (hstage : c.activity.stage = .before)
    (hversions : next.co.versions = s.co.versions)
    (hwatchers : next.co.watchers = s.co.watchers)
    (hengine : next.engine = s.engine ∨ next.engine = s.engine.sync)
    (hbegun : next.begun = s.begun) : Effect s next a := by
  refine .turns i c hconns hwatched hnumber (Or.inl ⟨?_, hstage⟩) hversions hwatchers hengine
    hbegun
  rw [hidle]
  rfl

theorem effect_error (hidle : (s.conns i).activity = .idle) : Effect s s a := by
  refine effect_idle hidle (Function.update_eq_self i s.conns).symm rfl ?_ ?_ rfl rfl
    (Or.inl rfl) rfl
  · rw [hidle]
    rfl
  · rw [hidle]
    rfl

theorem effect_drop (hversions : next.co.versions = (s.drop i).co.versions)
    (hwatchers : next.co.watchers = (s.drop i).co.watchers)
    (hconns : next.conns = (s.drop i).conns) (hengine : next.engine = s.engine)
    (hbegun : next.begun = s.begun) : Effect s next a :=
  .drops i hversions hwatchers hconns hengine hbegun

theorem call_eq_some {clock : Clock} (hstep : s.call i clock = some next) :
    ∃ op activity, (s.conns i).activity.ops = op :: activity.ops ∧
      activity.number = some (s.number i) ∧
      (activity.stage = (s.conns i).activity.stage ∨
        (s.conns i).activity.stage = .checked ∧ activity.stage = .started) ∧
      next.conns = Function.update s.conns i { s.conns i with activity := activity } ∧
      next.co = s.co ∧
      next.engine = s.engine.emit (s.engine.cache.exec ⟨clock, op⟩) ∧
      next.begun = max s.begun (s.number i + 1) := by
  obtain ⟨⟨op, activity⟩, hnext, rfl⟩ := Option.map_eq_some_iff.mp hstep
  obtain ⟨hops, hnumber, hstage⟩ := Activity.next_eq_some hnext
  exact ⟨op, activity, hops, hnumber, hstage, rfl, rfl, rfl, rfl⟩

theorem effect_finish (hstep : s.finish i = some next) : Effect s next a := by
  unfold finish at hstep
  split at hstep
  · rename_i number hcase
    cases hstep
    refine .turns i _ rfl rfl rfl (Or.inl ⟨?_, rfl⟩) rfl rfl (Or.inl rfl) rfl
    rw [hcase]
    rfl
  · cases hstep
    exact effect_drop rfl rfl rfl rfl rfl
  · cases hstep
    exact effect_drop rfl rfl rfl rfl rfl
  · contradiction

theorem effect_check (hstep : s.check i = some next) : Effect s next (.check i) := by
  unfold check at hstep
  cases hcase : (s.conns i).activity <;>
    simp only [hcase, reduceCtorEq, Option.some.injEq] at hstep
  subst hstep
  have hbefore : (s.conns i).activity.stage = .before := by
    rw [hcase]
    rfl
  by_cases hunchanged : s.co.Unchanged (s.conns i).theTx
  · refine .turns i _ rfl rfl ?_ (Or.inr ⟨rfl, hbefore, hunchanged⟩) rfl rfl (Or.inl rfl) rfl
    simp only [if_pos hunchanged]
    rfl
  · refine .turns i _ rfl rfl ?_ (Or.inl ⟨hbefore, ?_⟩) rfl rfl (Or.inl rfl) rfl
    · simp only [if_neg hunchanged]
      rfl
    · simp only [if_neg hunchanged]
      rfl

theorem step_effect (hstep : s.step a = some next) : Effect s next a := by
  cases a with
  | watch i keys =>
      simp only [step, watch] at hstep
      cases hcase : (s.conns i).activity <;> simp only [hcase, reduceCtorEq] at hstep
      split_ifs at hstep
      · cases hstep
        exact effect_error hcase
      · cases hstep
        exact effect_idle hcase rfl rfl rfl rfl rfl rfl (Or.inr rfl) rfl
  | watched i =>
      simp only [step, watched] at hstep
      cases hcase : (s.conns i).activity with
      | watching ticket keys =>
          simp only [hcase] at hstep
          split_ifs at hstep
          cases hstep
          refine .registers i keys rfl ?_ rfl rfl rfl
          rw [hcase]
          rfl
      | _ => simp [hcase] at hstep
  | multi i =>
      simp only [step, multi] at hstep
      cases hcase : (s.conns i).activity <;> simp only [hcase, reduceCtorEq] at hstep
      split_ifs at hstep
      · cases hstep
        exact effect_error hcase
      · cases hstep
        exact effect_idle hcase rfl rfl rfl rfl rfl rfl (Or.inl rfl) rfl
  | queue i cmd | plain i cmd =>
      simp only [step, queue, plain] at hstep
      cases hcase : (s.conns i).activity <;> simp only [hcase, reduceCtorEq] at hstep
      split_ifs at hstep
      cases hstep
      exact effect_idle hcase rfl rfl rfl rfl rfl rfl (Or.inl rfl) rfl
  | discard i =>
      simp only [step, discard] at hstep
      cases hcase : (s.conns i).activity <;> simp only [hcase, reduceCtorEq] at hstep
      split_ifs at hstep
      · cases hstep
        exact effect_error hcase
      · cases hstep
        exact effect_drop rfl rfl rfl rfl rfl
  | unwatch i =>
      simp only [step, unwatch] at hstep
      cases hcase : (s.conns i).activity <;> simp only [hcase, reduceCtorEq] at hstep
      split_ifs at hstep
      · cases hstep
        exact effect_drop rfl rfl rfl rfl rfl
      · cases hstep
        exact effect_error hcase
  | exec i =>
      simp only [step, exec] at hstep
      cases hcase : (s.conns i).activity <;> simp only [hcase, reduceCtorEq] at hstep
      split_ifs at hstep
      · cases hstep
        exact effect_idle hcase rfl rfl rfl rfl rfl rfl (Or.inl rfl) rfl
      · cases hstep
        exact effect_error hcase
  | check i => exact effect_check hstep
  | call i clock =>
      obtain ⟨op, activity, hops, hnumber, hstage, hconns, hco, hengine, hbegun⟩ :=
        call_eq_some hstep
      exact .calls i clock op activity rfl hops hnumber hstage hconns hco hengine hbegun
  | finish i => exact effect_finish hstep
  | sweep clock shard sample order =>
      cases hstep
      exact .sweeps clock shard sample order rfl rfl rfl rfl rfl
  | dequeue =>
      obtain ⟨e, hdequeue, rfl⟩ := Option.map_eq_some_iff.mp hstep
      refine .dispatches rfl rfl ?_ (Engine.mutations_backlog_dequeue hdequeue) rfl
      obtain ⟨_, ⟨_, _, _, rfl⟩ | ⟨_, _, _, rfl⟩⟩ := Engine.dequeue_eq_some hdequeue
      · rfl
      · rfl
  | onEvent =>
      obtain ⟨⟨ev, e⟩, hdeliver, rfl⟩ := Option.map_eq_some_iff.mp hstep
      exact .delivers ev hdeliver rfl rfl rfl
  | publish =>
      obtain ⟨e, hpublish, rfl⟩ := Option.map_eq_some_iff.mp hstep
      refine .dispatches rfl rfl ?_ (congrArg mutations (Engine.backlog_publish hpublish)) rfl
      obtain ⟨_, _, rfl⟩ := Engine.publish_eq_some hpublish
      rfl

end Effect

end Server
end Txn
end DistCache
