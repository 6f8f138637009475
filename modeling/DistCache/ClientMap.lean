import DistCache.ClientCalls
import DistCache.DeadlineCommands

/-!
# The client as a map with deadlines

Behind the methods of the client there is a map from keys to values, in which an entry
is gone from its deadline on.  The methods of any number of clients return what the map
gives in the order in which the server serves the calls.

A value that is empty is not found by `Get`.  A time to live is cut to whole
milliseconds or seconds: `SetEX` fails if nothing is left, and `Expire` takes the
deadline away.  `Del` may count an entry that has expired.
-/

namespace DistCache
namespace Client

open CacheServer DeadlineStore RequestReply Resp Transition

variable {lib : Lib} {cfg : CacheServer.Config} {L : Layout}

/-! ## The map -/

/-- What a call is to return.  `Del` returns a number between two bounds; what is not
about the map is left open. -/
inductive Expected where
  | exactly (result : Except CallError Outcome)
  | atLeast (alive asked : ℕ)
  | anything

def Expected.Meets (result : Except CallError Outcome) : Expected → Prop
  | .exactly expected => result = expected
  | .atLeast alive asked =>
      ∃ n : ℕ, result = .ok (.count (Int64.ofInt n)) ∧ alive ≤ n ∧ n ≤ asked
  | .anything => True

def serverError (msg : String) : Expected := .exactly (.error (.server (text msg)))

def specIncrBy (now : ℤ) (m : Contents) (key : Key) (delta : ℤ) : Contents × Expected :=
  match ExpiringMap.counter (live now (m key)) with
  | none => (m, serverError "ERR value is not an integer or out of range")
  | some base =>
      (ExpiringMap.put m key (formatInt (int64 (base + delta))) 0,
        .exactly (.ok (.count (Int64.ofInt (int64 (base + delta))))))

def specTTL (now : ℤ) : Option Item → ℤ
  | none => -2
  | some it =>
      if it.expireAt = 0 then -1
      else
        let secs := (int64 (it.expireAt - now)).tdiv second
        if secs < 0 then secs else secs * second

/-- What a method does to the map and what it returns, at the two readings of the
clock that its call of the cache makes.  `Del` and `Exists` of several keys are left
aside. -/
def Method.spec (clock : Clock) (m : Contents) : Method → Contents × Expected
  | .ping => (m, .exactly (.ok .done))
  | .set key value => (ExpiringMap.put m key value 0, .exactly (.ok .done))
  | .setEX key value lifetime =>
      let millis := lifetime.toInt.tdiv millisecond
      if 0 < millis then
        (ExpiringMap.put m key value (int64 (clock.first + millis * millisecond)),
          .exactly (.ok .done))
      else (m, serverError "ERR invalid expire time in 'set'")
  | .get key =>
      match live clock.first (m key) with
      | none => (m, .exactly (.ok (.value [] false)))
      | some it => (m, .exactly (.ok (.value it.value (it.value ≠ []))))
  | .del [] => (m, serverError "ERR wrong number of arguments for 'del'")
  | .del [key] => (Function.update m key none, .atLeast (live clock.first (m key)).isSome.toNat 1)
  | .del _ => (m, .anything)
  | .exists_ [] => (m, serverError "ERR wrong number of arguments for 'exists'")
  | .exists_ [key] =>
      (m, .exactly (.ok (.count (Int64.ofInt (live clock.first (m key)).isSome.toNat))))
  | .exists_ _ => (m, .anything)
  | .incr key => specIncrBy clock.first m key 1
  | .incrBy key delta => specIncrBy clock.first m key delta.toInt
  | .expire key lifetime =>
      match live clock.second (m key) with
      | none => (m, .exactly (.ok (.flag false)))
      | some it =>
          (ExpiringMap.put m key it.value
            (deadline clock.first (lifetime.toInt.tdiv second * second)),
            .exactly (.ok (.flag true)))
  | .ttl key => (m, .exactly (.ok (.duration (specTTL clock.first (live clock.first (m key))))))
  | .auth _ => (m, .anything)
  | .publish _ _ => (m, .anything)
  | .lock _ _ _ => (m, .anything)
  | .unlock _ _ => (m, .anything)

/-! ## Numbers -/

theorem fits_toInt (n : Int64) : FitsInt64 n.toInt := ⟨Int64.le_toInt n, Int64.toInt_lt n⟩

theorem tdiv_bounds {n unit : ℤ} (hunit : 0 < unit) :
    (0 ≤ n → 0 ≤ n.tdiv unit ∧ n.tdiv unit ≤ n.tdiv unit * unit ∧ n.tdiv unit * unit ≤ n) ∧
      (n ≤ 0 → n.tdiv unit ≤ 0 ∧ n.tdiv unit * unit ≤ n.tdiv unit ∧
        n ≤ n.tdiv unit * unit) := by
  have hnonneg : ∀ n : ℤ, 0 ≤ n →
      0 ≤ n.tdiv unit ∧ n.tdiv unit ≤ n.tdiv unit * unit ∧ n.tdiv unit * unit ≤ n := by
    intro n hn
    rw [Int.tdiv_eq_ediv_of_nonneg hn]
    have hquotient : 0 ≤ n / unit := Int.ediv_nonneg hn hunit.le
    exact ⟨hquotient, le_mul_of_one_le_right hquotient hunit, Int.ediv_mul_le n hunit.ne'⟩
  refine ⟨hnonneg n, ?_⟩
  intro hn
  obtain ⟨hquotient, hmul, hle⟩ := hnonneg (-n) (by omega)
  rw [Int.neg_tdiv] at hquotient hmul hle
  rw [neg_mul] at hmul hle
  omega

theorem fits_tdiv {n unit : ℤ} (hn : FitsInt64 n) (hunit : 0 < unit) :
    FitsInt64 (n.tdiv unit) ∧ FitsInt64 (n.tdiv unit * unit) := by
  unfold FitsInt64 at hn ⊢
  obtain ⟨hnonneg, hnonpos⟩ := tdiv_bounds (n := n) hunit
  rcases le_total 0 n with hsign | hsign
  · have := hnonneg hsign
    omega
  · have := hnonpos hsign
    omega

theorem second_pos : 0 < second := by decide

theorem millisecond_pos : 0 < millisecond := by decide

theorem parseInt_inUnits (lifetime : Int64) {unit : ℤ} (hunit : 0 < unit) :
    parseInt (inUnits lifetime unit) = some (lifetime.toInt.tdiv unit) := by
  have hfits := (fits_tdiv (fits_toInt lifetime) hunit).1
  exact parseInt_formatInt hfits.1 hfits.2

theorem int64_units (lifetime : Int64) {unit : ℤ} (hunit : 0 < unit) :
    int64 (lifetime.toInt.tdiv unit * unit) = lifetime.toInt.tdiv unit * unit :=
  (int64_eq_self_iff _).mpr (fits_tdiv (fits_toInt lifetime) hunit).2

theorem toInt_ofInt_of_fits {n : ℤ} (hn : FitsInt64 n) : (Int64.ofInt n).toInt = n := by
  rw [← (int64_eq_self_iff n).mpr hn]
  exact toInt_ofInt_int64 n

theorem ttlDuration_ofInt (rem : ℤ) :
    ttlDuration (Int64.ofInt ((int64 rem).tdiv second)) =
      if (int64 rem).tdiv second < 0 then (int64 rem).tdiv second
      else (int64 rem).tdiv second * second := by
  obtain ⟨hsecs, hspan⟩ := fits_tdiv (Persistence.int64_bounds rem) second_pos
  have hvalue := toInt_ofInt_of_fits hsecs
  have hsign : Int64.ofInt ((int64 rem).tdiv second) < 0 ↔ (int64 rem).tdiv second < 0 := by
    rw [Int64.lt_iff_toInt_lt, hvalue]
    rfl
  rw [ttlDuration, hvalue, (int64_eq_self_iff _).mpr hspan]
  by_cases hneg : (int64 rem).tdiv second < 0
  · rw [if_pos (hsign.mpr hneg), if_pos hneg]
  · rw [if_neg (fun h => hneg (hsign.mp h)), if_neg hneg]

/-! ## The commands on the cache -/

section Plans

variable {clock : ℕ → Clock} {e : Engine L} {m : Contents}

theorem run_one (op : KeyOp L) (render : List DistCache.Reply → CacheServer.Reply)
    (clock : ℕ → Clock) (i : ℕ) (e : Engine L) :
    (⟨[[op]], render⟩ : Plan L).run clock i e =
      (e.emit (e.cache.exec ⟨clock i, op⟩), render [(e.cache.exec ⟨clock i, op⟩).2.2]) := rfl

def Readable (store : Contents) : Prop :=
  ∀ key it, store key = some it → it.value.length < maxLen

structure Performs (m : Method) (clock : Clock) (store : Contents)
    (r : Engine L × CacheServer.Reply) : Prop where
  later : ∀ now, clock.second ≤ now → r.1.cache.Implements now (m.spec clock store).1
  meets : (m.spec clock store).2.Meets (m.result r.2)
  fits : Readable store → r.2.Fits

variable {store : Contents}

theorem fits_rBool (found : List DistCache.Reply) : (rBool found).Fits := by
  unfold rBool
  split_ifs <;> trivial

theorem fits_rNumber (r : DistCache.Reply) : (rNumber r).Fits := by
  unfold rNumber
  split <;> trivial

theorem exec_delete_live {c : Cache L} {now : ℤ} (himpl : c.Implements now store) (key : Key)
    (clock : Clock) (hlive : (live now (store key)).isSome) :
    (c.exec ⟨clock, .delete key⟩).2.2 = .bool true := by
  rw [← himpl.live_view key] at hlive
  obtain ⟨it, hit⟩ := Option.isSome_iff_exists.mp hlive
  have hlookup : (c.shards (L.index key)).items.lookup key = some it := (live_eq_some hit).1
  simp only [Cache.exec, KeyOp.run, KeyOp.shard, Shard.del, hlookup]

variable (hordered : (clock 0).first ≤ (clock 0).second)
  (himpl : e.cache.Implements (clock 0).first store)

include hordered himpl

theorem performs_ping :
    Performs .ping (clock 0) store ((cmdPing ⟨text "PING", []⟩ : Plan L).run clock 0 e) where
  later := fun _ hnow => himpl.later (hordered.trans hnow)
  meets := rfl
  fits := fun _ => trivial

theorem performs_set (lib : Lib) (key : Key) (value : Bytes) :
    Performs (.set key value) (clock 0) store
      ((cmdSet lib (Method.set key value).command : Plan L).run clock 0 e) where
  later := by
    intro now hnow
    have hset := himpl.exec_setTTL key value 0
    have hnone : deadline (clock 0).first 0 = 0 := rfl
    rw [hnone] at hset
    exact hset.later (hordered.trans hnow)
  meets := rfl
  fits := fun _ => trivial

theorem performs_setEX (lib : Lib) (key : Key) (value : Bytes) (lifetime : Int64) :
    Performs (.setEX key value lifetime) (clock 0) store
      ((cmdSet lib (Method.setEX key value lifetime).command : Plan L).run clock 0 e) := by
  have hoptions : setOptions lib 0 [text "PX", inUnits lifetime millisecond] =
      if lifetime.toInt.tdiv millisecond ≤ 0 then
        .error (rErr "ERR invalid expire time in 'set'")
      else .ok (lifetime.toInt.tdiv millisecond * millisecond) := by
    rw [← int64_units lifetime millisecond_pos]
    exact setOptions_one (parseInt_inUnits lifetime millisecond_pos) (Or.inr ⟨rfl, rfl⟩)
  by_cases hpos : 0 < lifetime.toInt.tdiv millisecond
  · have hplan : (cmdSet lib (Method.setEX key value lifetime).command : Plan L) =
        ⟨[[.setTTL key value (lifetime.toInt.tdiv millisecond * millisecond)]],
          fun _ => rOK⟩ := by
      simp only [cmdSet, Method.command, Method.args, hoptions, if_neg (not_le.mpr hpos)]
    have hspan : 0 < lifetime.toInt.tdiv millisecond * millisecond :=
      mul_pos hpos millisecond_pos
    have hset := himpl.exec_setTTL key value (lifetime.toInt.tdiv millisecond * millisecond)
    rw [deadline, if_pos hspan] at hset
    rw [hplan]
    refine ⟨?_, ?_, fun _ => trivial⟩
    · intro now hnow
      simp only [Method.spec, if_pos hpos]
      exact hset.later (hordered.trans hnow)
    · simp only [Method.spec, if_pos hpos]
      rfl
  · have hplan : (cmdSet lib (Method.setEX key value lifetime).command : Plan L) =
        .answer (rErr "ERR invalid expire time in 'set'") := by
      simp only [cmdSet, Method.command, Method.args, hoptions, if_pos (not_lt.mp hpos)]
    rw [hplan]
    refine ⟨?_, ?_, fun _ => trivial⟩
    · intro now hnow
      simp only [Method.spec, if_neg hpos]
      exact himpl.later (hordered.trans hnow)
    · simp only [Method.spec, if_neg hpos]
      rfl

theorem performs_get (key : Key) :
    Performs (.get key) (clock 0) store
      ((cmdGet (Method.get key).command : Plan L).run clock 0 e) := by
  obtain ⟨hnext, hreply⟩ := himpl.exec_get key
  have hrun : (cmdGet (Method.get key).command : Plan L).run clock 0 e =
      (e.emit (e.cache.exec ⟨⟨(clock 0).first, (clock 0).first⟩, .get key⟩),
        rFound (.value ((live (clock 0).first (store key)).map Entry.value))) := by
    rw [← hreply]
    rfl
  rw [hrun]
  cases hlive : live (clock 0).first (store key) with
  | none =>
      refine ⟨?_, ?_, fun _ => trivial⟩
      · intro now hnow
        simp only [Method.spec, hlive]
        exact hnext.later (hordered.trans hnow)
      · simp only [Method.spec, hlive]
        rfl
  | some it =>
      refine ⟨?_, ?_, ?_⟩
      · intro now hnow
        simp only [Method.spec, hlive]
        exact hnext.later (hordered.trans hnow)
      · simp only [Method.spec, hlive]
        by_cases hempty : it.value = []
        · simp [hempty, Expected.Meets, Method.result, rFound, stored, rBulk, rNil, doBytes,
            valueType, valueIsNil, Except.map]
        · simp [hempty, Expected.Meets, Method.result, rFound, stored, rBulk, doBytes,
            valueType, valueIsNil, valueBulk, Except.map]
      · intro hreadable
        have hlength : it.value.length < maxLen := hreadable key it (live_eq_some hlive).1
        by_cases hempty : it.value = []
        · simp [hempty, rFound, stored, rBulk, rNil, Value.Fits]
        · simp [hempty, rFound, stored, rBulk, Value.Fits, hlength]

theorem performs_ttl (key : Key) :
    Performs (.ttl key) (clock 0) store
      ((CacheServer.ttl false (Method.ttl key).command : Plan L).run clock 0 e) := by
  obtain ⟨hnext, hreply⟩ := himpl.exec_ttl key
  have hrun : ((CacheServer.ttl false (Method.ttl key).command : Plan L).run clock 0 e).2 =
      (CacheServer.ttl false (Method.ttl key).command : Plan L).render
        [ExpiringMap.remaining (clock 0).first (live (clock 0).first (store key))] := by
    rw [← hreply]
    rfl
  refine ⟨fun now hnow => hnext.later (hordered.trans hnow), ?_, ?_⟩
  · rw [hrun]
    cases hlive : live (clock 0).first (store key) with
    | none =>
        simp only [Method.spec, hlive]
        rfl
    | some it =>
        simp only [Method.spec, hlive, ExpiringMap.remaining, specTTL]
        by_cases hpersists : it.expireAt = 0
        · simp only [if_pos hpersists]
          rfl
        · simp only [if_neg hpersists, CacheServer.ttl, Method.command]
          have hduration := ttlDuration_ofInt (it.expireAt - (clock 0).first)
          simp only [Expected.Meets, Method.result, intCmd, doBytes, rInt, valueType, valueInt,
            Except.map, ← hduration]
          rfl
  · intro _
    rw [hrun]
    cases live (clock 0).first (store key) with
    | none => trivial
    | some it =>
        simp only [ExpiringMap.remaining]
        by_cases hpersists : it.expireAt = 0
        · simp only [if_pos hpersists]
          trivial
        · simp only [if_neg hpersists]
          trivial

theorem performs_expire (key : Key) (lifetime : Int64) :
    Performs (.expire key lifetime) (clock 0) store
      ((CacheServer.expire second (Method.expire key lifetime).command : Plan L).run
        clock 0 e) := by
  have hplan : (CacheServer.expire second (Method.expire key lifetime).command : Plan L) =
      ⟨[[.expire key (lifetime.toInt.tdiv second * second)]], rBool⟩ := by
    simp only [CacheServer.expire, Method.command, Method.args,
      parseInt_inUnits lifetime second_pos, int64_units lifetime second_pos]
  have hspec := Cache.Implements.exec_expire (clock 0) (himpl.later hordered) key
    (lifetime.toInt.tdiv second * second)
  rw [hplan, run_one]
  cases hlive : live (clock 0).second (store key) with
  | none | some it =>
      rw [hlive] at hspec
      refine ⟨?_, ?_, fun _ => fits_rBool _⟩
      · intro now hnow
        simp only [Method.spec, hlive]
        exact hspec.1.later hnow
      · simp only [Method.spec, hlive, hspec.2]
        rfl

theorem performs_add {method : Method} {key : Key} {delta : ℤ}
    (hmethod : method.spec (clock 0) store = specIncrBy (clock 0).first store key delta)
    (hresult : ∀ v, method.result v = (intCmd v).map .count) :
    Performs method (clock 0) store ((addPlan key delta : Plan L).run clock 0 e) := by
  have hspec := himpl.exec_incrBy key delta
  rw [run_addPlan]
  cases hcounter : ExpiringMap.counter (live (clock 0).first (store key)) with
  | none | some base =>
      rw [hcounter] at hspec
      refine ⟨?_, ?_, fun _ => fits_rNumber _⟩
      · intro now hnow
        simp only [hmethod, specIncrBy, hcounter]
        exact hspec.1.later (hordered.trans hnow)
      · simp only [hmethod, specIncrBy, hcounter, hresult]
        exact congrArg (fun r => (intCmd (rNumber r)).map Outcome.count) hspec.2

theorem performs_incr (lib : Lib) (key : Key) :
    Performs (.incr key) (clock 0) store
      ((CacheServer.incrBy lib 1 false (Method.incr key).command : Plan L).run clock 0 e) :=
  performs_add hordered himpl rfl fun _ => rfl

theorem performs_incrBy (lib : Lib) (key : Key) (delta : Int64) :
    Performs (.incrBy key delta) (clock 0) store
      ((CacheServer.incrBy lib 0 true (Method.incrBy key delta).command : Plan L).run
        clock 0 e) := by
  have hparse := parseInt_formatInt (fits_toInt delta).1 (fits_toInt delta).2
  have hplan : (CacheServer.incrBy lib 0 true (Method.incrBy key delta).command : Plan L) =
      addPlan key delta.toInt := by
    simp only [CacheServer.incrBy, Method.command, Method.args, hparse, if_true]
    rfl
  rw [hplan]
  exact performs_add hordered himpl rfl fun _ => rfl

theorem performs_exists {keys : List Key} (hsingle : keys.length ≤ 1) :
    Performs (.exists_ keys) (clock 0) store
      ((cmdExists (Method.exists_ keys).command : Plan L).run clock 0 e) := by
  rcases eq_nil_or_singleton hsingle with rfl | ⟨key, rfl⟩
  · exact ⟨fun _ hnow => himpl.later (hordered.trans hnow), rfl, fun _ => trivial⟩
  · obtain ⟨hnext, hreply⟩ := himpl.exec_exists key
    have hrun : (cmdExists (Method.exists_ [key]).command : Plan L).run clock 0 e =
        (e.emit (e.cache.exec ⟨⟨(clock 0).first, (clock 0).first⟩, .exists_ key⟩),
          countTrue [.bool (live (clock 0).first (store key)).isSome]) := by
      rw [← hreply]
      rfl
    rw [hrun]
    refine ⟨fun now hnow => hnext.later (hordered.trans hnow), ?_, fun _ => trivial⟩
    simp only [Method.spec]
    cases (live (clock 0).first (store key)).isSome <;> rfl

/-- `Delete` does not read the clock.  A key that is live is counted, and so may be one
that has expired. -/
theorem performs_del {keys : List Key} (hsingle : keys.length ≤ 1) :
    Performs (.del keys) (clock 0) store
      ((cmdDel (Method.del keys).command : Plan L).run clock 0 e) := by
  rcases eq_nil_or_singleton hsingle with rfl | ⟨key, rfl⟩
  · exact ⟨fun _ hnow => himpl.later (hordered.trans hnow), rfl, fun _ => trivial⟩
  · have hdelete := himpl.exec_delete key
    refine ⟨fun now hnow => hdelete.later (hordered.trans hnow), ?_, fun _ => trivial⟩
    refine ⟨[(e.cache.exec ⟨clock 0, .delete key⟩).2.2].countP fun r => r = .bool true, rfl,
      ?_, List.countP_le_length⟩
    cases hlive : (live (clock 0).first (store key)).isSome with
    | false => exact Nat.zero_le _
    | true => simp [exec_delete_live himpl key (clock 0) hlive]

theorem performs_plan (lib : Lib) {h : Handler} {m : Method} (hrole : m.role = .inl h)
    (hsingle : m.Single) :
    Performs m (clock 0) store ((h.plan lib m.command).run clock 0 e) := by
  cases m with
  | ping =>
      cases hrole
      exact performs_ping hordered himpl
  | set key value =>
      cases hrole
      exact performs_set hordered himpl lib key value
  | setEX key value lifetime =>
      cases hrole
      exact performs_setEX hordered himpl lib key value lifetime
  | get key =>
      cases hrole
      exact performs_get hordered himpl key
  | del keys =>
      cases hrole
      exact performs_del hordered himpl hsingle
  | exists_ keys =>
      cases hrole
      exact performs_exists hordered himpl hsingle
  | incr key =>
      cases hrole
      exact performs_incr hordered himpl lib key
  | incrBy key delta =>
      cases hrole
      exact performs_incrBy hordered himpl lib key delta
  | expire key lifetime =>
      cases hrole
      exact performs_expire hordered himpl key lifetime
  | ttl key =>
      cases hrole
      exact performs_ttl hordered himpl key
  | auth password => cases hrole
  | publish topic msg => cases hrole
  | lock key lifetime owner => cases hrole
  | unlock key token => cases hrole

end Plans

/-! ## The calls -/

def LetIn (cfg : CacheServer.Config) (c : Conn lib) : Prop := cfg.password = [] ∨ c.authed = true

theorem LetIn.handle {s : Clients lib L} (hready : ∀ i, Ready (s.conns i)) {j : ℕ}
    (hletIn : LetIn cfg (s.conns j)) (env : Env L) (i : ℕ) (m : Method) :
    LetIn cfg ((handle lib cfg s env i m.command).1.conns j) := by
  by_cases hj : j = i
  · subst hj
    simp only [Client.handle, Function.update_self]
    have hconn : (serve lib cfg ⟨s.conns j, s.server⟩ m.command env).conn = s.conns j ∨
        (serve lib cfg ⟨s.conns j, s.server⟩ m.command env).conn =
          { s.conns j with authed := true } := conn_serve (hready j) s.server m env
    rcases hconn with hconn | hconn
    · rw [hconn]
      exact hletIn
    · rw [hconn]
      exact Or.inr rfl
  · simp only [Client.handle, Function.update_of_ne hj]
    exact hletIn

theorem engine_run {v : Verb} {m : Method} (hrole : m.role = .inr v) (env : Env L) (c : Conn lib)
    (s : Server L) : (v.run lib cfg env c s m.command).server.engine = s.engine := by
  cases m with
  | auth password =>
      cases hrole
      rfl
  | publish topic msg =>
      cases hrole
      rfl
  | lock key lifetime owner =>
      cases hrole
      simp only [Verb.run, cmdLock, Method.command, Method.args,
        parseInt_inUnits lifetime second_pos]
      split_ifs <;> rfl
  | unlock key token =>
      cases hrole
      rfl
  | _ => cases hrole

theorem spec_of_verb {v : Verb} {m : Method} (hrole : m.role = .inr v) (clock : Clock)
    (store : Contents) : m.spec clock store = (store, .anything) := by
  cases m <;> cases hrole <;> rfl

theorem implements_handle {s : Clients lib L} {store : Contents} {env : Env L} {i : ℕ}
    (hordered : (env.clock 0).first ≤ (env.clock 0).second) (hready : Ready (s.conns i))
    (hletIn : LetIn cfg (s.conns i))
    (himpl : s.server.engine.cache.Implements (env.clock 0).first store) {m : Method}
    (hsingle : m.Single) :
    (∀ now, (env.clock 0).second ≤ now →
        (handle lib cfg s env i m.command).1.server.engine.cache.Implements now
          (m.spec (env.clock 0) store).1) ∧
      ∃ r, (handle lib cfg s env i m.command).2 = [r] ∧
        (m.spec (env.clock 0) store).2.Meets (m.result r) ∧
        (m.role.isLeft → Readable store → r.Fits) := by
  have hallowed : ¬ (cfg.password ≠ [] ∧ ¬ (s.conns i).authed ∧ m.name ∉ beforeAuth) := by
    rcases hletIn with hnone | hauthed
    · simp [hnone]
    · simp [hauthed]
  have hserve : serve lib cfg ⟨s.conns i, s.server⟩ m.command env =
      execute lib cfg env (s.conns i) s.server.incCommands m.command := by
    rw [serve_ready hready, if_neg hallowed]
  have hname : lib.toUpper m.command.name = m.name := m.toUpper_name lib
  cases hrole : m.role with
  | inl h =>
      have hperforms := performs_plan hordered himpl lib hrole hsingle
      simp only [handle]
      rw [hserve, execute, hname, m.verbs_name, m.handlers_name, hrole]
      exact ⟨hperforms.later, _, rfl, hperforms.meets, fun _ => hperforms.fits⟩
  | inr v =>
      obtain ⟨r, hwritten, _⟩ := written_ready cfg hready s.server m env
      rw [spec_of_verb hrole]
      refine ⟨?_, r, hwritten, trivial, fun hleft => absurd hleft Bool.false_ne_true⟩
      intro now hnow
      simp only [handle]
      rw [hserve, execute, hname, m.verbs_name, hrole]
      simp only [Sum.elim_inr, engine_run hrole]
      exact himpl.later (hordered.trans hnow)

/-! ## Runs -/

structure Holds (cfg : CacheServer.Config) (now : ℤ) (s : Clients lib L) (m : Contents) :
    Prop where
  ready : ∀ i, Ready (s.conns i)
  letIn : ∀ i, LetIn cfg (s.conns i)
  implements : s.server.engine.cache.Implements now m

theorem Holds.later {now later : ℤ} {s : Clients lib L} {m : Contents} (hle : now ≤ later)
    (hholds : Holds cfg now s m) : Holds cfg later s m :=
  ⟨hholds.ready, hholds.letIn, hholds.implements.later hle⟩

/-- What happens on the server beside the calls: the dispatcher works, and expired
entries are swept. -/
inductive Background (L : Layout) where
  | dispatcher
  | sweep (now : ℤ) (shard : Fin L.shards) (sample : ℕ) (order : List Key)

namespace Background

def run (s : Clients lib L) : Background L → Clients lib L
  | .dispatcher => { s with server := (s.server.dispatcher).getD s.server }
  | .sweep now shard sample order =>
      let swept := s.server.engine.cache.exec ⟨⟨now, now⟩, .sweepExpired shard sample order⟩
      { s with server := { s.server with engine := s.server.engine.emit swept } }

def At (now : ℤ) : Background L → Prop
  | .dispatcher => True
  | .sweep at_ _ _ _ => at_ = now

theorem implements_run {now : ℤ} {s : Clients lib L} {store : Contents} {b : Background L}
    (hat : b.At now) (himpl : s.server.engine.cache.Implements now store) :
    (b.run s).server.engine.cache.Implements now store := by
  cases b with
  | dispatcher =>
      cases hstep : s.server.dispatcher with
      | none =>
          simp only [run, hstep, Option.getD_none]
          exact himpl
      | some next =>
          simp only [run, hstep, Option.getD_some, (Server.quiet_dispatcher hstep).1.cache]
          exact himpl
  | sweep at_ shard sample order =>
      cases hat
      exact himpl.exec_sweepExpired shard sample order

theorem conns_run (b : Background L) (s : Clients lib L) : (b.run s).conns = s.conns := by
  cases b <;> rfl

end Background

def Timely (now : ℤ) : List (Move (Clients lib L) (Env L) Method) → Prop
  | [] => True
  | .serve _ env :: rest =>
      now ≤ (env.clock 0).first ∧ (env.clock 0).first ≤ (env.clock 0).second ∧
        Timely (env.clock 0).second rest
  | .background f :: rest =>
      ∃ later, now ≤ later ∧ (∃ b : Background L, f = b.run ∧ b.At later) ∧ Timely later rest
  | .call _ _ :: rest => Timely now rest
  | .ret _ :: rest => Timely now rest

theorem Timely.earlier {now later : ℤ} {moves : List (Move (Clients lib L) (Env L) Method)}
    (hle : now ≤ later) (htimely : Timely later moves) : Timely now moves := by
  induction moves with
  | nil => trivial
  | cons move rest ih =>
      cases move with
      | serve i env => exact ⟨hle.trans htimely.1, htimely.2⟩
      | background f =>
          obtain ⟨end_, hend, hrest⟩ := htimely
          exact ⟨end_, hle.trans hend, hrest⟩
      | call i m => exact ih htimely
      | ret i => exact ih htimely

theorem Timely.of_cons {now : ℤ} {move : Move (Clients lib L) (Env L) Method}
    {rest : List (Move (Clients lib L) (Env L) Method)} (htimely : Timely now (move :: rest)) :
    Timely now rest := by
  cases move with
  | serve i env =>
      obtain ⟨hle, hordered, hrest⟩ := htimely
      exact hrest.earlier (hle.trans hordered)
  | background f =>
      obtain ⟨later, hle, _, hrest⟩ := htimely
      exact hrest.earlier hle
  | call i m => exact htimely
  | ret i => exact htimely

theorem Timely.sublist {now : ℤ} {fewer moves : List (Move (Clients lib L) (Env L) Method)}
    (hsublist : fewer.Sublist moves) (htimely : Timely now moves) : Timely now fewer := by
  induction hsublist generalizing now with
  | slnil => trivial
  | cons move _ ih => exact ih htimely.of_cons
  | cons_cons move _ ih =>
      cases move with
      | serve i env =>
          obtain ⟨hle, hordered, hrest⟩ := htimely
          exact ⟨hle, hordered, ih hrest⟩
      | background f =>
          obtain ⟨later, hle, hbackground, hrest⟩ := htimely
          exact ⟨later, hle, hbackground, ih hrest⟩
      | call i m => exact ih htimely
      | ret i => exact ih htimely

/-- The map after the calls, and what they are to return, one after the other. -/
def expected {σ : Type*} : Contents → List (Effect σ (Env L) Method) →
    Contents × List (Answer Method Expected)
  | m, [] => (m, [])
  | m, .call i method env :: rest =>
      let after := expected (method.spec (env.clock 0) m).1 rest
      (after.1, ⟨i, method, (method.spec (env.clock 0) m).2⟩ :: after.2)
  | m, .background _ :: rest => expected m rest

theorem expected_append {σ : Type*} (m : Contents)
    (first second : List (Effect σ (Env L) Method)) :
    expected m (first ++ second) =
      ((expected (expected m first).1 second).1,
        (expected m first).2 ++ (expected (expected m first).1 second).2) := by
  induction first generalizing m with
  | nil => rfl
  | cons action rest ih =>
      cases action with
      | call i method env => simp only [List.cons_append, expected, ih]
      | background f => simp only [List.cons_append, expected, ih]

def Agrees (a : Answer Method CacheServer.Reply) (e : Answer Method Expected) : Prop :=
  a.client = e.client ∧ a.call = e.call ∧ e.reply.Meets (a.call.result a.reply)

theorem sequential_agrees {now : ℤ} {s : Clients lib L} {store : Contents}
    {actions : List (Effect (Clients lib L) (Env L) Method)}
    (hsingle : ∀ i m env, .call i m env ∈ actions → m.Single)
    (htimely : Timely now (actions.map Effect.move)) (hholds : Holds cfg now s store) :
    List.Forall₂ Agrees ((wire lib cfg L).sequential s actions).2
      (expected store actions).2 := by
  induction actions generalizing now s store with
  | nil => exact .nil
  | cons action rest ih =>
      have hothers : ∀ i m env, .call i m env ∈ rest → m.Single :=
        fun i m env hmem => hsingle i m env (List.mem_cons_of_mem _ hmem)
      cases action with
      | call i m env =>
          obtain ⟨hle, hordered, hrest⟩ := htimely
          obtain ⟨himpl, r, hreply, hmeets, _⟩ := implements_handle hordered (hholds.ready i)
            (hholds.letIn i) (hholds.later hle).implements
            (hsingle i m env List.mem_cons_self)
          have hnext : Holds cfg (env.clock 0).second ((wire lib cfg L).apply s (.call i m env)).1
              (m.spec (env.clock 0) store).1 :=
            ⟨ready_handle hholds.ready env i m,
              fun j => (hholds.letIn j).handle hholds.ready env i m, himpl _ (le_refl _)⟩
          have happly : ((wire lib cfg L).apply s (.call i m env)).2 = [⟨i, m, r⟩] := by
            have hserve : ((wire lib cfg L).serve s env i ((wire lib cfg L).request m)).2 = [r] :=
              hreply
            rw [Service.apply, hserve]
            rfl
          rw [Service.sequential, expected, happly]
          exact .cons ⟨rfl, rfl, hmeets⟩ (ih hothers hrest hnext)
      | background f =>
          obtain ⟨later, hle, ⟨b, rfl, hat⟩, hrest⟩ := htimely
          have hnext : Holds cfg later (b.run s) store := by
            refine ⟨?_, ?_, b.implements_run hat (hholds.later hle).implements⟩
            · rw [b.conns_run]
              exact hholds.ready
            · rw [b.conns_run]
              exact hholds.letIn
          exact ih hothers hrest hnext

def expiring : List (Move (Clients asciiOnly oneShard) (Env oneShard) Method) :=
  [.call 0 (.setEX [97] [49] 1999998), .call 1 (.get [97]), .serve 0 atOne, .serve 1 atOne,
    .ret 0, .background (Background.sweep 1000001 ⟨0, by decide⟩ 32 [[97]]).run, .ret 1,
    .call 1 (.get [97]), .serve 1 ⟨fun _ => ⟨1000001, 1000001⟩, 1, [], fun _ => 1, id⟩, .ret 1]

end Client
end DistCache
