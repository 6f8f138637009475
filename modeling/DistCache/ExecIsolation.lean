import DistCache.Components
import DistCache.Transactions

/-!
# EXEC beside other commands

A command, and an `EXEC` with its queued commands, calls the cache for one key after
the other, and calls of other connections come in between.  The run is serializable if
its commands can be put in an order in which they give the same replies and leave the
same contents.

The order in which the commands began is such an order if no call goes to a shard for
which a command that began earlier has still a call to make.  Nothing in the program
sees to that.
-/

namespace DistCache
namespace Txn

open DeadlineStore Eviction Transition

variable {C : Type*} {L : Layout}

structure Record (C : Type*) (L : Layout) where
  number : ℕ
  conn : Option C
  exec : Bool
  step : Step L
  reply : Reply

namespace Record

def shard (r : Record C L) : Fin L.shards := r.step.op.shard

end Record

namespace Server

/-- What the step asks of the cache; the sweeper is nobody's connection. -/
def records (s : Server C L) : Action C L → List (Record C L)
  | .call i clock =>
      (s.conns i).activity.ops.head?.toList.map fun op =>
        ⟨s.number i, some i, (s.conns i).activity.stage ≠ .before, ⟨clock, op⟩,
          (s.engine.cache.exec ⟨clock, op⟩).2.2⟩
  | .sweep clock shard sample order =>
      [⟨s.begun, none, false, ⟨clock, .sweepExpired shard sample order⟩,
        (s.engine.cache.exec ⟨clock, .sweepExpired shard sample order⟩).2.2⟩]
  | _ => []

/-- No command that began earlier has still to call the shard. -/
def Uncrossed (s : Server C L) (a : Action C L) : Prop :=
  ∀ r ∈ s.records a, ∀ j, ∀ n ∈ (s.conns j).activity.number, n < r.number →
    ∀ op ∈ (s.conns j).activity.ops, op.shard ≠ r.shard

instance [Fintype C] (s : Server C L) (a : Action C L) : Decidable (s.Uncrossed a) :=
  inferInstanceAs (Decidable (∀ r ∈ s.records a, _))

end Server

/-! ## Serial runs -/

section Serial

variable (Heard : Record C L → Prop)

/-- The calls, made on the cache one after the other, get the recorded replies, as
far as they are heard. -/
def Replays : Cache L → List (Record C L) → Prop
  | _, [] => True
  | c, r :: rest => (Heard r → (c.exec r.step).2.2 = r.reply) ∧
      Replays (c.exec r.step).1 rest

instance decidableReplays [DecidablePred Heard] : (c : Cache L) →
    (records : List (Record C L)) → Decidable (Replays Heard c records)
  | _, [] => isTrue trivial
  | c, r :: rest =>
      have := decidableReplays (c.exec r.step).1 rest
      inferInstanceAs (Decidable ((Heard r → (c.exec r.step).2.2 = r.reply) ∧
        Replays Heard (c.exec r.step).1 rest))

/-- In some order of the commands, run one after the other without a break, the
calls get the same replies and leave the same contents. -/
def Serializable (c : Cache L) (count : ℕ) (records : List (Record C L)) (final : Cache L) :
    Prop :=
  ∃ order : List ℕ, order.Perm (List.range count) ∧
    Replays Heard c (Components.gather Record.number order records) ∧
    (c.execAll ((Components.gather Record.number order records).map Record.step)).1.contents =
      final.contents

end Serial

/-! ## The shards are independent -/

section Components

def onShard (r : Record C L) (s : Shard) : Shard := (r.step.op.run r.step.clock s).shard

def Answered (r : Record C L) (s : Shard) : Prop :=
  (r.step.op.run r.step.clock s).result.1 = r.reply

theorem replays_of_faithful {Heard : Record C L → Prop} {c : Cache L}
    {records : List (Record C L)}
    (hfaithful : Components.Faithful Record.shard onShard Answered c.shards records) :
    Replays Heard c records := by
  induction records generalizing c with
  | nil => trivial
  | cons r rest ih => exact ⟨fun _ => hfaithful.1, ih hfaithful.2⟩

theorem shards_execAll (c : Cache L) (records : List (Record C L)) :
    (c.execAll (records.map Record.step)).1.shards =
      Components.execAll Record.shard onShard c.shards records := by
  induction records generalizing c with
  | nil => rfl
  | cons r rest ih => exact ih (c.exec r.step).1

theorem contents_of_shards {c d : Cache L} (hshards : c.shards = d.shards) :
    c.contents = d.contents := by
  funext key
  rw [Cache.contents, Cache.contents, hshards]

theorem serializable_of_sorted {Heard : Record C L → Prop} {c final : Cache L} {count : ℕ}
    {records : List (Record C L)}
    (hsorted : ∀ i, (Components.on Record.shard i records).Pairwise
      fun r r' => r.number ≤ r'.number)
    (hbound : ∀ r ∈ records, r.number < count)
    (hfaithful : Components.Faithful Record.shard onShard Answered c.shards records)
    (hfinal : final.shards = Components.execAll Record.shard onShard c.shards records) :
    Serializable Heard c count records final := by
  have hsame := Components.on_gather_range hsorted hbound
  refine ⟨List.range count, List.Perm.refl _, ?_, ?_⟩
  · exact replays_of_faithful (hfaithful.of_on_eq hsame)
  · apply contents_of_shards
    rw [hfinal, shards_execAll]
    exact Components.execAll_of_on_eq hsame

end Components

/-! ## The order in which the commands began -/

namespace Server

/-- The state and the calls so far, from the cache at the start. -/
structure Ordered (c : Cache L) (s : Server C L) (records : List (Record C L)) : Prop where
  shards : s.engine.cache.shards =
    Components.execAll Record.shard onShard c.shards records
  faithful : Components.Faithful Record.shard onShard Answered c.shards records
  begun : ∀ j, ∀ n ∈ (s.conns j).activity.number, n < s.begun
  bounded : ∀ r ∈ records, r.number < s.begun
  owned : ∃ owner : ℕ → Option C, (∀ r ∈ records, owner r.number = r.conn) ∧
    ∀ j, ∀ n ∈ (s.conns j).activity.number, owner n = some j
  waiting : ∀ r ∈ records, ∀ j, ∀ n ∈ (s.conns j).activity.number, n < r.number →
    ∀ op ∈ (s.conns j).activity.ops, op.shard ≠ r.shard
  sorted : ∀ i, (Components.on Record.shard i records).Pairwise
    fun r r' => r.number ≤ r'.number

theorem ordered_start (c : Cache L) (clock : ℤ) :
    Ordered c (start c clock : Server C L) [] where
  shards := rfl
  faithful := trivial
  begun := fun _ n hn => by simp [start, Conn.new, Activity.number] at hn
  bounded := fun r hr => absurd hr List.not_mem_nil
  owned := ⟨fun _ => none, fun r hr => absurd hr List.not_mem_nil,
    fun _ n hn => by simp [start, Conn.new, Activity.number] at hn⟩
  waiting := fun r hr => absurd hr List.not_mem_nil
  sorted := fun _ => List.Pairwise.nil

section Steps

variable {c : Cache L} {s next : Server C L} {records : List (Record C L)}

theorem Ordered.quiet (hordered : Ordered c s records)
    (hcache : next.engine.cache = s.engine.cache) (hbegun : next.begun = s.begun)
    (hconns : ∀ j, (next.conns j).activity.number = none ∨
      (next.conns j).activity = (s.conns j).activity) : Ordered c next records := by
  have hactivity : ∀ j, ∀ n ∈ (next.conns j).activity.number,
      (next.conns j).activity = (s.conns j).activity := by
    intro j n hn
    rcases hconns j with hnone | hsame
    · rw [hnone] at hn
      contradiction
    · exact hsame
  obtain ⟨owner, hrecords, howner⟩ := hordered.owned
  refine ⟨?_, hordered.faithful, ?_, ?_, ⟨owner, hrecords, ?_⟩, ?_, hordered.sorted⟩
  · rw [hcache]
    exact hordered.shards
  · intro j n hn
    rw [hactivity j n hn] at hn
    rw [hbegun]
    exact hordered.begun j n hn
  · intro r hr
    rw [hbegun]
    exact hordered.bounded r hr
  · intro j n hn
    rw [hactivity j n hn] at hn
    exact howner j n hn
  · intro r hr j n hn
    have hsame := hactivity j n hn
    rw [hsame] at hn ⊢
    exact hordered.waiting r hr j n hn

theorem Ordered.record (hordered : Ordered c s records) {r : Record C L}
    (hcache : next.engine.cache = (s.engine.cache.exec r.step).1)
    (hreply : (s.engine.cache.exec r.step).2.2 = r.reply)
    (hnumber : r.number < next.begun) (hbegun : s.begun ≤ next.begun)
    (hconns : ∀ j, ∀ n ∈ (next.conns j).activity.number,
      n ∈ (s.conns j).activity.number ∧
          (next.conns j).activity.ops ⊆ (s.conns j).activity.ops ∨
        n = s.begun ∧ r.number = s.begun ∧ r.conn = some j)
    (howner : s.begun ≤ r.number ∨ ∃ j, r.number ∈ (s.conns j).activity.number ∧
      r.conn = some j)
    (hfirst : ∀ r' ∈ records, r'.shard = r.shard → r'.number ≤ r.number)
    (huncrossed : ∀ j, ∀ n ∈ (s.conns j).activity.number, n < r.number →
      ∀ op ∈ (s.conns j).activity.ops, op.shard ≠ r.shard) :
    Ordered c next (records ++ [r]) := by
  obtain ⟨owner, hrecords, hprogress⟩ := hordered.owned
  have howned : ∃ owner : ℕ → Option C, (∀ r' ∈ records ++ [r], owner r'.number = r'.conn) ∧
      ∀ j, ∀ n ∈ (next.conns j).activity.number, owner n = some j := by
    rcases howner with hnew | ⟨i, hi, hconn⟩
    · refine ⟨Function.update owner r.number r.conn, ?_, ?_⟩
      · intro r' hr'
        rcases List.mem_append.mp hr' with hold | hlast
        · have hlt := hordered.bounded r' hold
          rw [Function.update_of_ne (by omega)]
          exact hrecords r' hold
        · rw [List.mem_singleton.mp hlast, Function.update_self]
      · intro j n hn
        rcases hconns j n hn with ⟨hold, _⟩ | ⟨hn', hr, hconn⟩
        · have hlt := hordered.begun j n hold
          rw [Function.update_of_ne (by omega)]
          exact hprogress j n hold
        · rw [hn', ← hr, Function.update_self]
          exact hconn
    · refine ⟨owner, ?_, ?_⟩
      · intro r' hr'
        rcases List.mem_append.mp hr' with hold | hlast
        · exact hrecords r' hold
        · rw [List.mem_singleton.mp hlast, hconn]
          exact hprogress i r.number hi
      · intro j n hn
        rcases hconns j n hn with ⟨hold, _⟩ | ⟨_, hr, _⟩
        · exact hprogress j n hold
        · have hlt := hordered.begun i r.number hi
          omega
  refine ⟨?_, ?_, ?_, ?_, howned, ?_, ?_⟩
  · rw [Components.execAll_snoc, ← hordered.shards, hcache]
    rfl
  · rw [Components.faithful_snoc, ← hordered.shards]
    exact ⟨hordered.faithful, hreply⟩
  · intro j n hn
    rcases hconns j n hn with ⟨hold, _⟩ | ⟨hn', hr, _⟩
    · exact (hordered.begun j n hold).trans_le hbegun
    · omega
  · intro r' hr'
    rcases List.mem_append.mp hr' with hold | hlast
    · exact (hordered.bounded r' hold).trans_le hbegun
    · rw [List.mem_singleton.mp hlast]
      exact hnumber
  · intro r' hr' j n hn hlt
    rcases hconns j n hn with ⟨hold, hops⟩ | ⟨hn', hr, _⟩
    · intro op hop
      rcases List.mem_append.mp hr' with hin | hlast
      · exact hordered.waiting r' hin j n hold hlt op (hops hop)
      · rw [List.mem_singleton.mp hlast] at hlt ⊢
        exact huncrossed j n hold hlt op (hops hop)
    · rcases List.mem_append.mp hr' with hin | hlast
      · have hbound := hordered.bounded r' hin
        omega
      · rw [List.mem_singleton.mp hlast] at hlt
        omega
  · intro i
    exact Components.pairwise_on_snoc (hordered.sorted i) hfirst

variable [DecidableEq C] {a : Action C L}

omit [DecidableEq C] in
theorem records_call {i : C} (clock : Clock) {op : KeyOp L} {rest : List (KeyOp L)}
    (hops : (s.conns i).activity.ops = op :: rest) :
    s.records (.call i clock) = [⟨s.number i, some i, (s.conns i).activity.stage ≠ .before,
      ⟨clock, op⟩, (s.engine.cache.exec ⟨clock, op⟩).2.2⟩] := by
  simp only [Server.records, hops]
  rfl

theorem Ordered.call {i : C} {clock : Clock} (hordered : Ordered c s records)
    (huncrossed : s.Uncrossed (.call i clock)) (hstep : s.call i clock = some next) :
    Ordered c next (records ++ s.records (.call i clock)) := by
  obtain ⟨op, activity, hops, hnumber, _, hconns, _, hengine, hbegun⟩ := call_eq_some hstep
  have hrecords := records_call clock hops
  have hcrossed := huncrossed _ (by rw [hrecords]; exact List.mem_singleton_self _)
  rw [hrecords]
  apply hordered.record
  · rw [hengine]
    rfl
  · rfl
  · rw [hbegun]
    exact lt_max_of_lt_right (Nat.lt_succ_self (s.number i))
  · rw [hbegun]
    exact le_max_left _ _
  · intro j n hn
    rw [hconns] at hn ⊢
    by_cases hj : j = i
    · subst j
      rw [Function.update_self] at hn ⊢
      rw [hnumber] at hn
      have hn' : s.number i = n := Option.some.inj hn
      cases hcase : (s.conns i).activity.number with
      | none =>
          right
          rw [Server.number, hcase] at hn'
          rw [Server.number, hcase]
          exact ⟨hn'.symm, rfl, rfl⟩
      | some m =>
          left
          rw [Server.number, hcase] at hn'
          refine ⟨congrArg some hn', ?_⟩
          rw [hops]
          exact List.subset_cons_self op _
    · rw [Function.update_of_ne hj] at hn ⊢
      exact Or.inl ⟨hn, fun _ hmem => hmem⟩
  · cases hcase : (s.conns i).activity.number with
    | none =>
        left
        rw [Server.number, hcase]
        exact le_rfl
    | some m =>
        right
        refine ⟨i, ?_, rfl⟩
        rw [Server.number, hcase]
        rfl
  · intro r' hr' hshard
    cases hcase : (s.conns i).activity.number with
    | none =>
        have hlt := hordered.bounded r' hr'
        rw [Server.number, hcase]
        exact hlt.le
    | some m =>
        by_contra hlt
        rw [Server.number, hcase, not_le] at hlt
        have hne := hordered.waiting r' hr' i m hcase hlt op
          (by rw [hops]; exact List.mem_cons_self)
        exact hne hshard.symm
  · exact hcrossed

theorem Ordered.sweep {clock : Clock} {shard : Fin L.shards} {sample : ℕ} {order : List Key}
    (hordered : Ordered c s records)
    (huncrossed : s.Uncrossed (.sweep clock shard sample order))
    (hstep : s.step (.sweep clock shard sample order) = some next) :
    Ordered c next (records ++ s.records (.sweep clock shard sample order)) := by
  cases hstep
  refine hordered.record rfl rfl (Nat.lt_succ_self _) (Nat.le_succ _) ?_ (Or.inl le_rfl) ?_
    (huncrossed _ (List.mem_singleton_self _))
  · intro j n hn
    exact Or.inl ⟨hn, fun _ hmem => hmem⟩
  · intro r' hr' _
    exact (hordered.bounded r' hr').le

theorem conns_update_quiet {i : C} {c' : Conn L}
    (hconns : next.conns = Function.update s.conns i c') (hnumber : c'.activity.number = none)
    (j : C) : (next.conns j).activity.number = none ∨
      (next.conns j).activity = (s.conns j).activity := by
  rw [hconns]
  by_cases hj : j = i
  · subst j
    rw [Function.update_self]
    exact Or.inl hnumber
  · rw [Function.update_of_ne hj]
    exact Or.inr rfl

theorem Ordered.step_quiet (hordered : Ordered c s records) (hquiet : s.records a = [])
    (hstep : s.step a = some next) : Ordered c next records := by
  cases step_effect hstep with
  | turns i c' hconns hwatched hnumber hstage hversions hwatchers hengine hbegun =>
      have hcache : next.engine.cache = s.engine.cache := by
        rcases hengine with hengine | hengine <;> rw [hengine]
        rfl
      exact hordered.quiet hcache hbegun (conns_update_quiet hconns hnumber)
  | drops i hversions hwatchers hconns hengine hbegun =>
      exact hordered.quiet (by rw [hengine]) hbegun (conns_update_quiet hconns rfl)
  | registers i keys hco hbefore hconns hengine hbegun =>
      exact hordered.quiet (by rw [hengine]) hbegun (conns_update_quiet hconns rfl)
  | calls i clock op activity ha hops hnumber hstage hconns hco hengine hbegun =>
      rw [ha, records_call clock hops] at hquiet
      contradiction
  | sweeps clock shard sample order ha hconns hco hengine hbegun =>
      rw [ha] at hquiet
      contradiction
  | dispatches hconns hco hcache hlog hbegun =>
      exact hordered.quiet hcache hbegun fun j => Or.inr (by rw [hconns])
  | delivers ev hdeliver hco hconns hbegun =>
      have hcache : next.engine.cache = s.engine.cache := by
        obtain ⟨_, _, hnext⟩ := Engine.backlog_deliver hdeliver
        rw [hnext]
      exact hordered.quiet hcache hbegun fun j => Or.inr (by rw [hconns])

theorem Ordered.step (hordered : Ordered c s records) (huncrossed : s.Uncrossed a)
    (hstep : s.step a = some next) : Ordered c next (records ++ s.records a) := by
  cases a with
  | call i clock => exact hordered.call huncrossed hstep
  | sweep clock shard sample order => exact hordered.sweep huncrossed hstep
  | _ =>
      show Ordered c next (records ++ [])
      rw [List.append_nil]
      exact hordered.step_quiet rfl hstep

end Steps

/-- In every run in which no call goes to a shard for which a command that began
earlier has still a call to make, the commands, every `EXEC` as one of them, give
the replies and leave the contents of a serial run. -/
theorem serializable_of_uncrossed [DecidableEq C]
    {c : Cache L} {clock : ℤ} {actions : List (Action C L)} {final : Server C L}
    (hrun : run step (start c clock) actions = some final)
    (huncrossed : Along step Uncrossed (start c clock) actions)
    (Heard : Record C L → Prop) :
    (∃ owner : ℕ → Option C,
      ∀ r ∈ observe step records (start c clock) actions, owner r.number = r.conn) ∧
    Serializable Heard c final.begun (observe step records (start c clock) actions)
      final.engine.cache := by
  have hordered : Ordered c final ([] ++ observe step records (start c clock) actions) :=
    run_invariant_observe (I := fun s records => Ordered c s records) step records
      (fun _ _ _ _ hordered hcond hstep => hordered.step hcond hstep)
      (ordered_start c clock) huncrossed hrun
  rw [List.nil_append] at hordered
  obtain ⟨owner, hrecords, _⟩ := hordered.owned
  exact ⟨⟨owner, hrecords⟩, serializable_of_sorted hordered.sorted hordered.bounded
    hordered.faithful hordered.shards⟩

def firstByte (key : Key) : ℕ := (key.headD 0).toNat

def twoShards : Cache (Config.layout ⟨2, 0, 0, .noEviction⟩ firstByte) :=
  Cache.unlimited 2 .noEviction firstByte fun _ _ => 0

def getTwice : List (Action Bool (Config.layout ⟨2, 0, 0, .noEviction⟩ firstByte)) :=
  [.multi false, .queue false [.get [97]], .queue false [.get [97]], .exec false, .check false]

def setBetween (key : Key) :
    List (Action Bool (Config.layout ⟨2, 0, 0, .noEviction⟩ firstByte)) :=
  getTwice ++ [.call false unread, .plain true [.setTTL key [49] 0], .call true unread,
    .finish true, .call false unread, .finish false]

/-- The `SET` comes between the two `GET`s of the `EXEC`, which sees the key
absent and then present: no serial run has these replies. -/
theorem exec_not_isolated :
    ∃ final, run step (start twoShards 0) (setBetween [97]) = some final ∧
      ¬ Serializable (fun r => r.exec = true) twoShards final.begun
        (observe step records (start twoShards 0) (setBetween [97])) final.engine.cache := by
  have hrun : ∃ final ∈ run step (start twoShards 0) (setBetween [97]), final.begun = 2 := by
    decide +kernel
  have hreplies : ∀ order ∈ [[0, 1], [1, 0]], ¬ Replays (fun r => r.exec = true) twoShards
      (Components.gather Record.number order
        (observe step records (start twoShards 0) (setBetween [97]))) := by
    decide +kernel
  obtain ⟨final, hfinal, hbegun⟩ := hrun
  refine ⟨final, hfinal, ?_⟩
  rintro ⟨order, hperm, hserial, _⟩
  rw [hbegun] at hperm
  have horder : order = [0, 1] ∨ order = [1, 0] := List.perm_pair.mp hperm
  exact hreplies order (by simpa using horder) hserial

/-- A `SET` of a key in the other shard does no harm. -/
theorem serializable_setBetween_otherShard :
    ∃ final, run step (start twoShards 0) (setBetween [98]) = some final ∧
      Serializable (fun r => r.exec = true) twoShards final.begun
        (observe step records (start twoShards 0) (setBetween [98])) final.engine.cache := by
  have hrun : (run step (start twoShards 0) (setBetween [98])).isSome = true := by
    decide +kernel
  have huncrossed : Along step Uncrossed (start twoShards 0) (setBetween [98]) := by
    decide +kernel
  obtain ⟨final, hfinal⟩ := Option.isSome_iff_exists.mp hrun
  exact ⟨final, hfinal, (serializable_of_uncrossed hfinal huncrossed _).2⟩

end Server

end Txn
end DistCache
