import DistCache.ValueRoundTrip

/-!
# Counters

A counter is an entry whose value is the text of a number.  `IncrBy` reads the
number, adds to it and writes the sum, and the commands `INCR`, `DECR`, `INCRBY`
and `DECRBY` call it.  Every addition and negation is one of 64 bits.  The
operations are exact as long as the sum fits, which includes a sum whose
argument alone does not survive the negation; a sum that does not fit is wrapped
and stored.  A value that is no number is an error, and nothing changes.
-/

namespace DistCache

open DeadlineStore

/-! ## Integers of 64 bits -/

def FitsInt64 (n : ℤ) : Prop := -2 ^ 63 ≤ n ∧ n < 2 ^ 63

instance (n : ℤ) : Decidable (FitsInt64 n) := inferInstanceAs (Decidable (_ ∧ _))

theorem int64_eq_self_iff (n : ℤ) : int64 n = n ↔ FitsInt64 n := by
  rw [FitsInt64, int64, Int.bmod_def]
  omega

theorem int64_add_int64 (a b : ℤ) : int64 (a + int64 b) = int64 (a + b) := by
  simp only [int64, Int.add_bmod_bmod]

theorem int64_int64 (n : ℤ) : int64 (int64 n) = int64 n := by
  rw [int64_eq_self_iff]
  exact Persistence.int64_bounds n

variable {L : Layout}

/-! ## The operation of a shard -/

theorem Shard.incrBy_of_counter {s : Shard} {key : Key} {now number : ℤ} (delta : ℤ)
    (hcounter : ExpiringMap.counter (live now (s.view key)) = some number) :
    (s.incrBy key delta now).shard.view key = some ⟨formatInt (int64 (number + delta)), 0⟩ ∧
      ∃ evicted, (s.incrBy key delta now).result = .ok (int64 (number + delta), evicted) := by
  rcases Shard.counterBase_of_number hcounter with hbase | ⟨it, hbase⟩
  · simp only [Shard.incrBy, hbase]
    exact ⟨Shard.view_set_self _ _ _ _, _, rfl⟩
  · simp only [Shard.incrBy, hbase]
    exact ⟨Shard.view_set_self _ _ _ _, _, rfl⟩

/-! ## The operations of the cache -/

def KeyOp.decrBy (key : Key) (delta : ℤ) : KeyOp L := .incrBy key (int64 (-delta))

namespace Cache

variable (c : Cache L) (clock : Clock) (key : Key)

def currentNumber (now : ℤ) : Option ℤ := ExpiringMap.counter (live now (c.contents key))

theorem exec_incrBy_of_none (delta : ℤ) (hnone : c.currentNumber key clock.first = none) :
    c.exec ⟨clock, .incrBy key delta⟩ = (c, [], .number (.error .errNotInteger)) := by
  have hshard := Shard.incrBy_of_error delta hnone
  simp only [Cache.exec, KeyOp.run, KeyOp.shard, hshard, Function.update_eq_self]
  rfl

theorem exec_incrBy_of_some (delta : ℤ) {number : ℤ}
    (hnumber : c.currentNumber key clock.first = some number) :
    (c.exec ⟨clock, .incrBy key delta⟩).1.contents key =
        some ⟨formatInt (int64 (number + delta)), 0⟩ ∧
      (c.exec ⟨clock, .incrBy key delta⟩).2.2 = .number (.ok (int64 (number + delta))) := by
  obtain ⟨hview, evicted, hresult⟩ := Shard.incrBy_of_counter delta hnumber
  constructor
  · rw [contents_exec_self c rfl]
    simp only [KeyOp.run, KeyOp.shard, hresult]
    exact hview
  · simp only [Cache.exec, KeyOp.run, KeyOp.shard, hresult]

/-- The operation returns the sum of the current number and the amount, and
stores its text; or it returns an error, and the cache and the events are as
before. -/
def Counts (op : KeyOp L) (amount : ℤ) : Prop :=
  (∃ number, c.currentNumber key clock.first = some number ∧
      (c.exec ⟨clock, op⟩).2.2 = .number (.ok (number + amount)) ∧
      (c.exec ⟨clock, op⟩).1.contents key = some ⟨formatInt (number + amount), 0⟩) ∨
    ∃ err, c.exec ⟨clock, op⟩ = (c, [], .number (.error err))

def Roomy (now amount : ℤ) : Prop :=
  ∀ number, c.currentNumber key now = some number → FitsInt64 (number + amount)

theorem counts_iff {delta amount : ℤ}
    (hdelta : ∀ number, int64 (number + delta) = int64 (number + amount)) :
    c.Counts clock key (.incrBy key delta) amount ↔ c.Roomy key clock.first amount := by
  unfold Counts Roomy
  cases hcurrent : c.currentNumber key clock.first with
  | none =>
      have hexec := c.exec_incrBy_of_none clock key delta hcurrent
      simp only [reduceCtorEq, IsEmpty.forall_iff, implies_true, iff_true]
      exact Or.inr ⟨_, hexec⟩
  | some number =>
      obtain ⟨hcontents, hreply⟩ := c.exec_incrBy_of_some clock key delta hcurrent
      rw [hdelta] at hcontents hreply
      constructor
      · rintro (⟨other, hother, hsum, -⟩ | ⟨err, herror⟩) base hbase
        · rw [← Option.some.inj hother, hreply] at hsum
          rw [← Option.some.inj hbase, ← int64_eq_self_iff]
          exact Except.ok.inj (Reply.number.inj hsum)
        · rw [herror] at hreply
          cases hreply
      · intro hroomy
        have hfits := (int64_eq_self_iff _).mpr (hroomy number rfl)
        rw [hfits] at hcontents hreply
        exact Or.inl ⟨number, rfl, hreply, hcontents⟩

end Cache

/-! ## The commands -/

namespace CacheServer

open Resp

def implicitAmount (step : ℤ) : List Bytes → Option (Key × ℤ)
  | [key] => some (key, step)
  | _ => none

def explicitAmount (amount : ℤ → ℤ) : List Bytes → Option (Key × ℤ)
  | [key, arg] => (parseInt arg).map fun n => (key, amount n)
  | _ => none

def Handler.asked (args : List Bytes) : Handler → Option (Key × ℤ)
  | .incr => implicitAmount 1 args
  | .decr => implicitAmount (-1) args
  | .incrBy => explicitAmount (fun n => n) args
  | .decrBy => explicitAmount (fun n => -n) args
  | _ => none

def Handler.IsCounter : Handler → Prop
  | .incr => True
  | .decr => True
  | .incrBy => True
  | .decrBy => True
  | _ => False

def addPlan (key : Key) (delta : ℤ) : Plan L :=
  ⟨[[.incrBy key delta]], fun found => rNumber (found.headD .done)⟩

inductive Counting (plan : Plan L) : Option (Key × ℤ) → Prop where
  | refuse (msg : Bytes) (hplan : plan = .answer (.error msg)) : Counting plan none
  | add (key : Key) (amount delta : ℤ) (hplan : plan = addPlan key delta)
      (hdelta : ∀ number, int64 (number + delta) = int64 (number + amount)) :
      Counting plan (some (key, amount))

theorem counting_implicit (lib : Lib) (step : ℤ) (cmd : Command) :
    Counting (incrBy lib step false cmd : Plan L) (implicitAmount step cmd.args) := by
  obtain ⟨name, args⟩ := cmd
  match args with
  | [] => exact .refuse _ rfl
  | [key] => exact .add key step step rfl fun _ => rfl
  | _ :: _ :: _ => exact .refuse _ rfl

theorem counting_explicit (lib : Lib) (cmd : Command) :
    Counting (incrBy lib 0 true cmd : Plan L)
      (explicitAmount (fun n => if lib.toUpper cmd.name = text "DECRBY" then -n else n)
        cmd.args) := by
  obtain ⟨name, args⟩ := cmd
  match args with
  | [] => exact .refuse _ rfl
  | [key] => exact .refuse _ rfl
  | [key, arg] =>
      simp only [incrBy, if_true, explicitAmount]
      cases parseInt arg with
      | none => exact .refuse _ rfl
      | some n =>
          apply Counting.add key _ _ rfl
          intro number
          split_ifs
          · exact int64_add_int64 number (-n)
          · rfl
  | _ :: _ :: _ :: _ => exact .refuse _ rfl

theorem counting_plan {lib : Lib} {cmd : Command} {h : Handler}
    (hfound : handlers (lib.toUpper cmd.name) = some h) (hcounter : h.IsCounter) :
    Counting (h.plan lib cmd : Plan L) (h.asked cmd.args) := by
  have hname := name_of_handlers hfound
  cases h with
  | incr => exact counting_implicit lib 1 cmd
  | decr => exact counting_implicit lib (-1) cmd
  | incrBy =>
      have hcounting := counting_explicit (L := L) lib cmd
      have hother : ¬ Handler.incrBy.name = text "DECRBY" := by decide
      rw [hname] at hcounting
      simp only [if_neg hother] at hcounting
      exact hcounting
  | decrBy =>
      have hcounting := counting_explicit (L := L) lib cmd
      have hsame : Handler.decrBy.name = text "DECRBY" := rfl
      rw [hname] at hcounting
      simp only [if_pos hsame] at hcounting
      exact hcounting
  | _ => exact absurd hcounter id

/-- The command replies with the sum of the current number and the amount, and
stores its text; or it replies with an error, and nothing has changed. -/
def CountsExactly (plan : Plan L) (asked : Option (Key × ℤ)) (clock : ℕ → Clock) (i : ℕ)
    (e : Engine L) : Prop :=
  (∃ key amount number n, asked = some (key, amount) ∧
      e.cache.currentNumber key (clock i).first = some number ∧
      (plan.run clock i e).2 = .int n ∧ n.toInt = number + amount ∧
      (plan.run clock i e).1.cache.contents key = some ⟨formatInt (number + amount), 0⟩) ∨
    ((∃ msg, (plan.run clock i e).2 = .error msg) ∧ (plan.run clock i e).1 = e)

theorem run_addPlan (key : Key) (delta : ℤ) (clock : ℕ → Clock) (i : ℕ) (e : Engine L) :
    (addPlan key delta : Plan L).run clock i e =
      (e.emit (e.cache.exec ⟨clock i, .incrBy key delta⟩),
        rNumber (e.cache.exec ⟨clock i, .incrBy key delta⟩).2.2) := rfl

theorem emit_nothing (e : Engine L) (reply : DistCache.Reply) :
    e.emit (e.cache, [], reply) = e := by
  simp [Engine.emit]

theorem toInt_ofInt_int64 (n : ℤ) : (Int64.ofInt (int64 n)).toInt = int64 n := by
  rw [Int64.toInt_ofInt]
  exact int64_int64 n

theorem countsExactly_iff {plan : Plan L} {asked : Option (Key × ℤ)}
    (hcounting : Counting plan asked) (clock : ℕ → Clock) (i : ℕ) (e : Engine L) :
    CountsExactly plan asked clock i e ↔
      ∀ key amount, asked = some (key, amount) →
        e.cache.Roomy key (clock i).first amount := by
  cases hcounting with
  | refuse msg hplan =>
      subst hplan
      refine iff_of_true (Or.inr ⟨⟨msg, rfl⟩, rfl⟩) ?_
      intro key amount hasked
      cases hasked
  | add key amount delta hplan hdelta =>
      subst hplan
      have hasked : (∀ key' amount', some (key, amount) = some (key', amount') →
          e.cache.Roomy key' (clock i).first amount') ↔
            e.cache.Roomy key (clock i).first amount := by
        constructor
        · intro hall
          exact hall key amount rfl
        · rintro hroomy key' amount' hsame
          cases hsame
          exact hroomy
      rw [hasked]
      unfold CountsExactly
      rw [run_addPlan]
      cases hcurrent : e.cache.currentNumber key (clock i).first with
      | none =>
          rw [e.cache.exec_incrBy_of_none (clock i) key delta hcurrent, emit_nothing]
          refine iff_of_true (Or.inr ⟨⟨_, rfl⟩, rfl⟩) ?_
          intro number hnumber
          rw [hcurrent] at hnumber
          cases hnumber
      | some number =>
          obtain ⟨hcontents, hreply⟩ :=
            e.cache.exec_incrBy_of_some (clock i) key delta hcurrent
          rw [hdelta] at hcontents hreply
          simp only [hreply, rNumber]
          constructor
          · rintro (⟨key', amount', number', n, hsame, hnumber, hint, hsum, -⟩ | ⟨⟨msg, herror⟩, -⟩)
            · cases hsame
              rw [hcurrent] at hnumber
              cases hnumber
              intro base hbase
              rw [hcurrent] at hbase
              cases hbase
              have hexact := congrArg Int64.toInt (Value.int.inj hint)
              rw [toInt_ofInt_int64, hsum] at hexact
              exact (int64_eq_self_iff _).mp hexact
            · cases herror
          · intro hroomy
            have hfits := (int64_eq_self_iff _).mpr (hroomy number hcurrent)
            left
            refine ⟨key, amount, number, _, rfl, hcurrent, rfl, ?_, ?_⟩
            · rw [toInt_ofInt_int64, hfits]
            · rw [hfits] at hcontents
              exact hcontents

/-- The operations on a counter are exact, or an error without effect, exactly as
long as the sum fits into 64 bits. -/
theorem counters_exact_iff (lib : Lib) (e : Engine L) (clock : ℕ → Clock) (i : ℕ) :
    (∀ key delta, e.cache.Counts (clock i) key (.incrBy key delta) delta ↔
        e.cache.Roomy key (clock i).first delta) ∧
      (∀ key delta, e.cache.Counts (clock i) key (.decrBy key delta) (-delta) ↔
        e.cache.Roomy key (clock i).first (-delta)) ∧
      ∀ (cmd : Command) (h : Handler), handlers (lib.toUpper cmd.name) = some h →
        h.IsCounter →
        (CountsExactly (h.plan lib cmd) (h.asked cmd.args) clock i e ↔
          ∀ key amount, h.asked cmd.args = some (key, amount) →
            e.cache.Roomy key (clock i).first amount) := by
  refine ⟨?_, ?_, ?_⟩
  · intro key delta
    exact e.cache.counts_iff (clock i) key fun _ => rfl
  · intro key delta
    exact e.cache.counts_iff (clock i) key fun number => int64_add_int64 number (-delta)
  · intro cmd h hfound hcounter
    exact countsExactly_iff (counting_plan hfound hcounter) clock i e

/-- `INCR` of the largest number replies with the smallest one and stores it. -/
theorem incr_wraps :
    let e := ((cmdSet asciiOnly ⟨text "SET", [[107], text "9223372036854775807"]⟩ : Plan _).run
      (fun _ => ⟨3, 3⟩) 0 (Engine.start oneShard 0)).1
    let after := (Handler.incr.plan asciiOnly ⟨text "INCR", [[107]]⟩ : Plan _).run
      (fun _ => ⟨3, 3⟩) 0 e
    after.2 = .int (-9223372036854775808) ∧
      after.1.cache.contents [107] = some ⟨text "-9223372036854775808", 0⟩ := by
  intro e after
  have hstored : after.1.cache.contents [107] = some ⟨text "-9223372036854775808", 0⟩ := by
    decide +kernel
  have hresult : (e.cache.exec ⟨⟨3, 3⟩, .incrBy [107] 1⟩).2.2 =
      .number (.ok (-9223372036854775808)) := by
    decide +kernel
  have hreply : after.2 = rNumber (e.cache.exec ⟨⟨3, 3⟩, .incrBy [107] 1⟩).2.2 := rfl
  have hnumber : Int64.ofInt (-9223372036854775808) = -9223372036854775808 := by decide
  rw [hresult] at hreply
  exact ⟨hreply.trans (congrArg Value.int hnumber), hstored⟩

end CacheServer
end DistCache
