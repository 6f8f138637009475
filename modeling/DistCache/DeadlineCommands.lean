import DistCache.CounterCommands

/-!
# Times to live

`SET` with an option, `EXPIRE`, `PEXPIRE`, `LOCK` and `RENEWLOCK` are given a number of
seconds or milliseconds.  It becomes a deadline by one multiplication and one addition
of 64 bits, and nothing is checked but the sign.  If the result does not fit, the command
succeeds with another deadline.  For `Expire` a time to live that is not positive takes
the deadline away.
-/

namespace DistCache

open DeadlineStore

/-! ## Deadlines in 64 bits -/

theorem deadline_of_fits {now ttl : ℤ} (hpos : 0 < ttl) (hfits : FitsInt64 (now + ttl)) :
    deadline now ttl = now + ttl := by
  rw [deadline, if_pos hpos, (int64_eq_self_iff _).mpr hfits]

theorem deadline_lt (now ttl : ℤ) : deadline now ttl < 2 ^ 63 := by
  unfold deadline
  split_ifs
  · exact (Persistence.int64_bounds _).2
  · decide

theorem deadline_eq_iff {now span : ℤ} (hnow : 0 < now) (hspan : 0 < span) :
    deadline now (int64 span) = now + span ↔ now + span < 2 ^ 63 := by
  constructor
  · intro hexact
    rw [← hexact]
    exact deadline_lt now _
  · intro hlt
    have hsame : int64 span = span := (int64_eq_self_iff span).mpr ⟨by omega, by omega⟩
    rw [hsame]
    exact deadline_of_fits hspan ⟨by omega, hlt⟩

theorem lease_eq_iff {now span : ℤ} (hnow : 0 < now) (hspan : 0 < span) :
    int64 (now + int64 span) = now + span ↔ now + span < 2 ^ 63 := by
  rw [int64_add_int64, int64_eq_self_iff, FitsInt64]
  omega

/-! ## Entries and leases that run out at a time -/

variable {L : Layout}

theorem isSome_live_iff (value : Bytes) (d t : ℤ) :
    (live t (some (⟨value, d⟩ : Item))).isSome ↔ d = 0 ∨ t < d := by
  by_cases hd : d = 0
  · simp [live, Entry.expired, hd]
  · simp [live, Entry.expired, hd]

/-- The key has this deadline, and is there exactly before it. -/
def Cache.LivesUntil (c : Cache L) (key : Key) (d : ℤ) : Prop :=
  (c.contents key).map Entry.expireAt = some d ∧
    ∀ t, (live t (c.contents key)).isSome ↔ t < d

theorem Cache.livesUntil_iff {c : Cache L} {key : Key} {value : Bytes} {stored d : ℤ}
    (hcontents : c.contents key = some ⟨value, stored⟩) (hd : d ≠ 0) :
    c.LivesUntil key d ↔ stored = d := by
  unfold LivesUntil
  rw [hcontents]
  constructor
  · intro hlives
    exact Option.some.inj hlives.1
  · rintro rfl
    refine ⟨rfl, fun t => ?_⟩
    rw [isSome_live_iff]
    exact or_iff_right hd

/-- The lease has this deadline, and the key is locked exactly before it. -/
def Locks.Manager.HeldUntil (m : Locks.Manager) (key : Key) (d : ℤ) : Prop :=
  (m.locks.lookup key).map Locks.Lease.expireAt = some d ∧
    ∀ t, m.isLocked t key = true ↔ t < d

theorem Locks.Manager.heldUntil_insert_iff {m : Locks.Manager} {key : Key} {l : Locks.Lease}
    {d : ℤ} : HeldUntil ⟨m.locks.insert key l⟩ key d ↔ l.expireAt = d := by
  simp only [HeldUntil, isLocked, AList.lookup_insert, Option.map_some, Option.some.injEq,
    decide_eq_true_eq]
  constructor
  · exact And.left
  · rintro rfl
    exact ⟨rfl, fun _ => Iff.rfl⟩

theorem Locks.isSome_acquire_iff (m : Locks.Manager) (now : ℤ) (key : Key) (owner : Bytes)
    (ttl : ℤ) (tok : Bytes) :
    (m.acquire now key owner ttl tok).2.isSome ↔
      ∀ l, m.locks.lookup key = some l → l.expireAt ≤ now ∨ l.owner = owner := by
  unfold Manager.acquire
  cases m.locks.lookup key with
  | none => simp
  | some l =>
      by_cases hheld : now < l.expireAt ∧ l.owner ≠ owner
      · simp [hheld]
      · simp only [if_neg hheld, Option.isSome_some, Option.some.injEq, forall_eq', true_iff]
        rwa [not_and_or, not_lt, not_not] at hheld

/-! ## The steps of the cache -/

namespace Cache

theorem contents_exec_setTTL (c : Cache L) (clock : Clock) (key : Key) (value : Bytes)
    (ttl : ℤ) :
    (c.exec ⟨clock, .setTTL key value ttl⟩).1.contents key =
      some ⟨value, deadline clock.first ttl⟩ := by
  rw [contents_exec_self c rfl]
  exact Shard.view_set_self _ key value _

theorem exec_expire_of_live {c : Cache L} {clock : Clock} {key : Key} {it : Item}
    (hlive : live clock.second (c.contents key) = some it) (ttl : ℤ) :
    (c.exec ⟨clock, .expire key ttl⟩).1.contents key =
        some ⟨it.value, deadline clock.first ttl⟩ ∧
      (c.exec ⟨clock, .expire key ttl⟩).2.2 = .bool true := by
  have hspec := (c.shards (L.index key)).expire_spec key (deadline clock.first ttl) clock.second
  have hheld : live clock.second ((c.shards (L.index key)).view key) = some it := hlive
  rw [hheld] at hspec
  constructor
  · rw [contents_exec_self c rfl]
    have hview := congrFun hspec.1 key
    rw [Function.update_self] at hview
    exact hview
  · exact congrArg Reply.bool hspec.2

end Cache

namespace CacheServer

/-! ## The commands that are given a time to live -/

def Spelled (lib : Lib) (word : String) : Type :=
  { given : Bytes // lib.toUpper given = text word }

inductive TimedCommand (lib : Lib) where
  | setEX (name : Spelled lib "SET") (opt : Spelled lib "EX") (key : Key) (value : Bytes)
  | setPX (name : Spelled lib "SET") (opt : Spelled lib "PX") (key : Key) (value : Bytes)
  | expire (name : Spelled lib "EXPIRE") (key : Key)
  | pexpire (name : Spelled lib "PEXPIRE") (key : Key)
  | lock (name : Spelled lib "LOCK") (key : Key) (owner : List Bytes)
  | renewLock (name : Spelled lib "RENEWLOCK") (key : Key) (token : Bytes)

namespace TimedCommand

variable {lib : Lib}

def command (arg : Bytes) : TimedCommand lib → Command
  | .setEX name opt key value => ⟨name.val, [key, value, opt.val, arg]⟩
  | .setPX name opt key value => ⟨name.val, [key, value, opt.val, arg]⟩
  | .expire name key => ⟨name.val, [key, arg]⟩
  | .pexpire name key => ⟨name.val, [key, arg]⟩
  | .lock name key owner => ⟨name.val, key :: arg :: owner⟩
  | .renewLock name key token => ⟨name.val, [key, token, arg]⟩

def unit : TimedCommand lib → ℤ
  | .setPX .. => millisecond
  | .pexpire .. => millisecond
  | _ => second

theorem unit_pos (t : TimedCommand lib) : 0 < t.unit := by
  have hmillisecond : 0 < millisecond := by decide
  have hsecond : 0 < second := by decide
  cases t <;> assumption

def now (env : Env L) : TimedCommand lib → ℤ
  | .lock .. => env.now
  | .renewLock .. => env.now
  | _ => (env.clock 0).first

/-- `EXPIRE` and `PEXPIRE` are for a key that is there, and do not check the sign. -/
def Applies (env : Env L) (s : Server L) (n : ℤ) : TimedCommand lib → Prop
  | .expire _ key => 0 < n ∧ (live (env.clock 0).second (s.engine.cache.contents key)).isSome
  | .pexpire _ key => 0 < n ∧ (live (env.clock 0).second (s.engine.cache.contents key)).isSome
  | _ => True

/-- A lock has to be free for the owner, and a lease that is renewed has to be there with
the token. -/
def Takes (env : Env L) (c : Conn lib) (s : Server L) (n : ℤ) : TimedCommand lib → Prop
  | .lock _ key owner => 0 < n ∧ ∀ l, s.locks.locks.lookup key = some l →
      l.expireAt ≤ env.now ∨ l.owner = owner.headD c.remoteAddr
  | .renewLock _ key token => 0 < n ∧ ∃ l, s.locks.locks.lookup key = some l ∧
      l.token = token ∧ env.now < l.expireAt
  | _ => 0 < n

def EndsAt (s : Server L) (d : ℤ) : TimedCommand lib → Prop
  | .setEX _ _ key _ => s.engine.cache.LivesUntil key d
  | .setPX _ _ key _ => s.engine.cache.LivesUntil key d
  | .expire _ key => s.engine.cache.LivesUntil key d
  | .pexpire _ key => s.engine.cache.LivesUntil key d
  | .lock _ key _ => s.locks.HeldUntil key d
  | .renewLock _ key _ => s.locks.HeldUntil key d

end TimedCommand

def Success : Reply → Prop
  | .error _ => False
  | .nil => False
  | .int n => n ≠ 0
  | _ => True

theorem success_one : Success (rInt 1) := by
  change Int64.ofInt 1 ≠ 0
  decide

def Turn.Succeeds {lib : Lib} (turn : Turn lib L) : Prop :=
  ∃ r, turn.written = [r] ∧ Success r

/-- The command reports success and what it was given ends at this time, or it
reports none and the server is as it was. -/
def Turn.Times {lib : Lib} (turn : Turn lib L) (s : Server L) (t : TimedCommand lib) (d : ℤ) :
    Prop :=
  (turn.Succeeds ∧ t.EndsAt turn.server d) ∨ (¬ turn.Succeeds ∧ turn.server = s)

section Turns

variable {lib : Lib} {turn : Turn lib L} {s : Server L} {t : TimedCommand lib} {d : ℤ}
  {r : Reply} {takes exact : Prop}

theorem succeeds_iff (hwritten : turn.written = [r]) : turn.Succeeds ↔ Success r := by
  simp [Turn.Succeeds, hwritten]

theorem times_of_refused (htakes : ¬ takes) (hwritten : turn.written = [r])
    (hrefused : ¬ Success r) (hserver : turn.server = s) :
    (turn.Succeeds ↔ takes) ∧ (turn.Times s t d ↔ (turn.Succeeds → exact)) := by
  have hfails : ¬ turn.Succeeds := by
    rw [succeeds_iff hwritten]
    exact hrefused
  exact ⟨iff_of_false hfails htakes,
    iff_of_true (Or.inr ⟨hfails, hserver⟩) fun hsucceeds => absurd hsucceeds hfails⟩

theorem times_of_granted (htakes : takes) (hwritten : turn.written = [r]) (hgranted : Success r)
    (hends : t.EndsAt turn.server d ↔ exact) :
    (turn.Succeeds ↔ takes) ∧ (turn.Times s t d ↔ (turn.Succeeds → exact)) := by
  have hsucceeds : turn.Succeeds := (succeeds_iff hwritten).mpr hgranted
  exact ⟨iff_of_true hsucceeds htakes, by simp [Turn.Times, hsucceeds, hends]⟩

end Turns

/-! ## The six commands -/

section Execute

variable {lib : Lib} {cfg : Config} {env : Env L} {c : Conn lib} {s : Server L}

theorem setOptions_one {opt arg : Bytes} {n unit : ℤ} (hparse : parseInt arg = some n)
    (hopt : lib.toUpper opt = text "EX" ∧ unit = second ∨
      lib.toUpper opt = text "PX" ∧ unit = millisecond) :
    setOptions lib 0 [opt, arg] =
      if n ≤ 0 then .error (rErr "ERR invalid expire time in 'set'")
      else .ok (int64 (n * unit)) := by
  have hother : text "PX" ≠ text "EX" := by decide
  rcases hopt with ⟨hopt, rfl⟩ | ⟨hopt, rfl⟩
  · simp [setOptions, hopt, hparse]
  · simp [setOptions, hopt, hparse, hother]

theorem times_set {t : TimedCommand lib} {name opt arg value : Bytes} {key : Key} {n : ℤ}
    (hparse : parseInt arg = some n) (hname : lib.toUpper name = text "SET")
    (hopt : lib.toUpper opt = text "EX" ∧ t.unit = second ∨
      lib.toUpper opt = text "PX" ∧ t.unit = millisecond)
    (hnow : 0 < (env.clock 0).first)
    (hends : ∀ (s : Server L) d, t.EndsAt s d ↔ s.engine.cache.LivesUntil key d) :
    let turn := execute lib cfg env c s ⟨name, [key, value, opt, arg]⟩
    (turn.Succeeds ↔ 0 < n) ∧ (turn.Times s t ((env.clock 0).first + n * t.unit) ↔
      (turn.Succeeds → (env.clock 0).first + n * t.unit < 2 ^ 63)) := by
  intro turn
  have hverb : verbs (text "SET") = none := by decide
  have hhandler : handlers (text "SET") = some .set := by decide
  simp only [turn]
  rw [execute_of_handler hname hverb hhandler]
  by_cases hsign : n ≤ 0
  · have hplan : (Handler.set.plan lib ⟨name, [key, value, opt, arg]⟩ : Plan L) =
        .answer (rErr "ERR invalid expire time in 'set'") := by
      simp only [Handler.plan, cmdSet, setOptions_one hparse hopt, if_pos hsign]
    rw [hplan]
    exact times_of_refused (not_lt.mpr hsign) rfl id rfl
  · have hspan : 0 < n * t.unit := mul_pos (not_le.mp hsign) t.unit_pos
    have hplan : (Handler.set.plan lib ⟨name, [key, value, opt, arg]⟩ : Plan L) =
        ⟨[[.setTTL key value (int64 (n * t.unit))]], fun _ => rOK⟩ := by
      simp only [Handler.plan, cmdSet, setOptions_one hparse hopt, if_neg hsign]
    rw [hplan]
    have hgranted : Success rOK := trivial
    apply times_of_granted (not_le.mp hsign) rfl hgranted
    rw [hends]
    have hcontents := s.engine.cache.contents_exec_setTTL (env.clock 0) key value
      (int64 (n * t.unit))
    exact (Cache.livesUntil_iff hcontents (by omega)).trans (deadline_eq_iff hnow hspan)

theorem times_expire {t : TimedCommand lib} {cmd : Command} {h : Handler} {word : String}
    {arg : Bytes} {key : Key} {n : ℤ} (hparse : parseInt arg = some n)
    (hname : lib.toUpper cmd.name = text word) (hverb : verbs (text word) = none)
    (hhandler : handlers (text word) = some h) (hargs : cmd.args = [key, arg])
    (hplan : (h.plan lib cmd : Plan L) = expire t.unit cmd)
    (happlies : 0 < n ∧ (live (env.clock 0).second (s.engine.cache.contents key)).isSome)
    (hnow : 0 < (env.clock 0).first)
    (hends : ∀ (s : Server L) d, t.EndsAt s d ↔ s.engine.cache.LivesUntil key d) :
    let turn := execute lib cfg env c s cmd
    (turn.Succeeds ↔ 0 < n) ∧ (turn.Times s t ((env.clock 0).first + n * t.unit) ↔
      (turn.Succeeds → (env.clock 0).first + n * t.unit < 2 ^ 63)) := by
  intro turn
  obtain ⟨it, hlive⟩ := Option.isSome_iff_exists.mp happlies.2
  have hspan : 0 < n * t.unit := mul_pos happlies.1 t.unit_pos
  have hcall : (h.plan lib cmd : Plan L) = ⟨[[.expire key (int64 (n * t.unit))]], rBool⟩ := by
    simp only [hplan, expire, hargs, hparse]
  obtain ⟨hcontents, hreply⟩ := Cache.exec_expire_of_live hlive (int64 (n * t.unit))
  have hone : rBool [(s.engine.cache.exec
      ⟨env.clock 0, .expire key (int64 (n * t.unit))⟩).2.2] = rInt 1 := by
    simp [rBool, hreply]
  simp only [turn]
  rw [execute_of_handler hname hverb hhandler, hcall]
  apply times_of_granted happlies.1 (congrArg (fun r => [r]) hone) success_one
  rw [hends]
  exact (Cache.livesUntil_iff hcontents (by omega)).trans (deadline_eq_iff hnow hspan)

theorem times_lock {t : TimedCommand lib} {name arg : Bytes} {key : Key} {owner : List Bytes}
    {n : ℤ} (hparse : parseInt arg = some n) (hname : lib.toUpper name = text "LOCK")
    (hnow : 0 < env.now)
    (hends : ∀ (s : Server L) d, t.EndsAt s d ↔ s.locks.HeldUntil key d) :
    let turn := execute lib cfg env c s ⟨name, key :: arg :: owner⟩
    (turn.Succeeds ↔ 0 < n ∧ ∀ l, s.locks.locks.lookup key = some l →
        l.expireAt ≤ env.now ∨ l.owner = owner.headD c.remoteAddr) ∧
      (turn.Times s t (env.now + n * second) ↔
        (turn.Succeeds → env.now + n * second < 2 ^ 63)) := by
  intro turn
  have hverb : verbs (text "LOCK") = some .lock := by decide
  rw [← Locks.isSome_acquire_iff s.locks env.now key _ (int64 (n * second)) env.token]
  simp only [turn, execute, hname, hverb, Verb.run, cmdLock, hparse]
  by_cases hsign : n ≤ 0
  · rw [if_pos hsign]
    exact times_of_refused (fun htakes => htakes.1.not_ge hsign) rfl id rfl
  · rw [if_neg hsign]
    rcases Locks.acquire_cases s.locks env.now key (owner.headD c.remoteAddr)
      (int64 (n * second)) env.token with hheld | htaken
    · rw [hheld]
      exact times_of_refused (fun htakes => Bool.false_ne_true htakes.2) rfl id rfl
    · have hspan : 0 < n * second := mul_pos (not_le.mp hsign) (by decide)
      have hgranted : Success (rBulkStr env.token) := trivial
      rw [htaken]
      apply times_of_granted ⟨not_le.mp hsign, rfl⟩ rfl hgranted
      rw [hends, Locks.Manager.heldUntil_insert_iff]
      exact lease_eq_iff hnow hspan

theorem times_renewLock {t : TimedCommand lib} {name arg token : Bytes} {key : Key} {n : ℤ}
    (hparse : parseInt arg = some n) (hname : lib.toUpper name = text "RENEWLOCK")
    (hnow : 0 < env.now)
    (hends : ∀ (s : Server L) d, t.EndsAt s d ↔ s.locks.HeldUntil key d) :
    let turn := execute lib cfg env c s ⟨name, [key, token, arg]⟩
    (turn.Succeeds ↔ 0 < n ∧ ∃ l, s.locks.locks.lookup key = some l ∧ l.token = token ∧
        env.now < l.expireAt) ∧
      (turn.Times s t (env.now + n * second) ↔
        (turn.Succeeds → env.now + n * second < 2 ^ 63)) := by
  intro turn
  have hverb : verbs (text "RENEWLOCK") = some .renewLock := by decide
  have hrefused : ¬ Success (rInt 0) := fun hsuccess => hsuccess rfl
  rw [← Locks.renew_iff s.locks env.now key token (int64 (n * second))]
  simp only [turn, execute, hname, hverb, Verb.run, cmdRenewLock, hparse]
  by_cases hsign : n ≤ 0
  · rw [if_pos hsign]
    exact times_of_refused (fun htakes => htakes.1.not_ge hsign) rfl id rfl
  · rw [if_neg hsign]
    rcases Locks.renew_cases s.locks env.now key token (int64 (n * second)) with
      hkept | ⟨l, -, hrenewed⟩
    · rw [hkept]
      exact times_of_refused (fun htakes => Bool.false_ne_true htakes.2) rfl hrefused rfl
    · have hspan : 0 < n * second := mul_pos (not_le.mp hsign) (by decide)
      rw [hrenewed]
      apply times_of_granted ⟨not_le.mp hsign, rfl⟩ rfl success_one
      rw [hends, Locks.Manager.heldUntil_insert_iff]
      exact lease_eq_iff hnow hspan

end Execute

/-- A command that is given a time to live is exact, or has no effect, unless it
succeeds with a deadline that does not fit into 64 bits.  It succeeds if the number is
positive and, for the two on locks, if the state of the lock admits it. -/
theorem deadlines_exact_iff {lib : Lib} (cfg : Config) (env : Env L) (c : Conn lib)
    (s : Server L) (t : TimedCommand lib) (arg : Bytes) (n : ℤ)
    (hparse : parseInt arg = some n) (hnow : 0 < t.now env) (happlies : t.Applies env s n) :
    ((execute lib cfg env c s (t.command arg)).Succeeds ↔ t.Takes env c s n) ∧
      ((execute lib cfg env c s (t.command arg)).Times s t (t.now env + n * t.unit) ↔
        ((execute lib cfg env c s (t.command arg)).Succeeds →
          t.now env + n * t.unit < 2 ^ 63)) := by
  cases t with
  | setEX name opt key value =>
      exact times_set hparse name.property (Or.inl ⟨opt.property, rfl⟩) hnow
        fun _ _ => Iff.rfl
  | setPX name opt key value =>
      exact times_set hparse name.property (Or.inr ⟨opt.property, rfl⟩) hnow
        fun _ _ => Iff.rfl
  | expire name key =>
      exact times_expire hparse name.property (by decide) (by decide : _ = some .expire) rfl rfl
        happlies hnow fun _ _ => Iff.rfl
  | pexpire name key =>
      exact times_expire hparse name.property (by decide) (by decide : _ = some .pexpire) rfl rfl
        happlies hnow fun _ _ => Iff.rfl
  | lock name key owner =>
      exact times_lock hparse name.property hnow fun _ _ => Iff.rfl
  | renewLock name key token =>
      exact times_renewLock hparse name.property hnow fun _ _ => Iff.rfl

def Env.still (now : ℤ) : Env L := ⟨fun _ => ⟨now, now⟩, now, text "token", fun _ => now, id⟩

def setEXCommand : TimedCommand asciiOnly :=
  .setEX ⟨text "set", rfl⟩ ⟨text "ex", rfl⟩ [107] [118]

theorem deadlines_exact_iff_ten_seconds :
    (execute asciiOnly (Config.new [] []) (Env.still 3) (.new [] []) (Server.new oneShard 0)
      (setEXCommand.command (text "10"))).Times (Server.new oneShard 0) setEXCommand
        (3 + 10 * second) := by
  have hexact := deadlines_exact_iff (Config.new [] []) (Env.still 3) (.new [] [])
    (Server.new oneShard 0) setEXCommand (text "10") 10 (by decide) (by decide) trivial
  exact hexact.2.mpr fun _ => by decide

/-- `SET` with a time to live of 292 years, in the year 2023, succeeds with a deadline
before 1970, and the key is not there. -/
theorem set_deadline_wraps :
    let turn := execute asciiOnly (Config.new [] []) (Env.still 1700000000000000000)
      (.new [] []) (Server.new oneShard 0) (setEXCommand.command (text "9223372036"))
    turn.written = [rOK] ∧
      turn.server.engine.cache.contents [107] = some ⟨[118], -7523372037709551616⟩ ∧
      live 1700000000000000000 (turn.server.engine.cache.contents [107]) = none := by
  intro turn
  have hcontents : turn.server.engine.cache.contents [107] =
      some ⟨[118], -7523372037709551616⟩ := by
    decide +kernel
  refine ⟨rfl, hcontents, ?_⟩
  rw [hcontents]
  decide

/-! ## A shorter time to live -/

/-- The ways of asking for a time to live: the call of the cache, the two commands,
and the client, which sends whole seconds. -/
inductive ExpireWay where
  | cache
  | expire
  | pexpire
  | client

/-- What the client sends for a duration. -/
def clientExpire (key : Key) (ttl : ℤ) : Command :=
  ⟨text "EXPIRE", [key, formatInt (ttl.tdiv second)]⟩

namespace ExpireWay

def span (given : ℤ) : ExpireWay → ℤ
  | .cache => given
  | .expire => given * second
  | .pexpire => given * millisecond
  | .client => given.tdiv second * second

def run (lib : Lib) (clock : ℕ → Clock) (i : ℕ) (e : Engine L) (key : Key) (given : ℤ) :
    ExpireWay → Engine L
  | .cache => e.emit (e.cache.exec ⟨clock i, .expire key given⟩)
  | .expire =>
      ((Handler.expire.plan lib ⟨text "EXPIRE", [key, formatInt given]⟩).run clock i e).1
  | .pexpire =>
      ((Handler.pexpire.plan lib ⟨text "PEXPIRE", [key, formatInt given]⟩).run clock i e).1
  | .client => ((Handler.expire.plan lib (clientExpire key given)).run clock i e).1

/-- The number and the time to live fit into 64 bits, and so does the deadline. -/
def Fits (now given : ℤ) (way : ExpireWay) : Prop :=
  FitsInt64 given ∧ FitsInt64 (way.span given) ∧ FitsInt64 (now + way.span given)

end ExpireWay

theorem run_expire {unit n : ℤ} (name : Bytes) (hn : FitsInt64 n)
    (hspan : FitsInt64 (n * unit)) (clock : ℕ → Clock) (i : ℕ) (e : Engine L) (key : Key) :
    ((expire unit ⟨name, [key, formatInt n]⟩ : Plan L).run clock i e).1.cache =
      (e.cache.exec ⟨clock i, .expire key (n * unit)⟩).1 := by
  have hplan : (expire unit ⟨name, [key, formatInt n]⟩ : Plan L) =
      ⟨[[.expire key (n * unit)]], rBool⟩ := by
    simp only [expire, parseInt_formatInt hn.1 hn.2, (int64_eq_self_iff _).mpr hspan]
  rw [hplan]
  rfl

theorem fitsInt64_tdiv_second {n : ℤ} (hn : FitsInt64 n) : FitsInt64 (n.tdiv second) := by
  have hsecond : 0 < second := by decide
  constructor
  · exact le_trans (by decide) (Int.tdiv_le_tdiv hsecond hn.1)
  · exact lt_of_le_of_lt (Int.tdiv_le_tdiv hsecond hn.2.le) (by decide)

theorem ExpireWay.cache_run {way : ExpireWay} {now given : ℤ} (hfits : way.Fits now given)
    (lib : Lib) (clock : ℕ → Clock) (i : ℕ) (e : Engine L) (key : Key) :
    (way.run lib clock i e key given).cache =
      (e.cache.exec ⟨clock i, .expire key (way.span given)⟩).1 := by
  obtain ⟨hgiven, hspan, hdeadline⟩ := hfits
  cases way with
  | cache => rfl
  | expire => exact run_expire (text "EXPIRE") hgiven hspan clock i e key
  | pexpire => exact run_expire (text "PEXPIRE") hgiven hspan clock i e key
  | client =>
      exact run_expire (text "EXPIRE") (fitsInt64_tdiv_second hgiven) hspan clock i e key

theorem ExpireWay.span_mono (way : ExpireWay) {a b : ℤ} (hab : a ≤ b) :
    way.span a ≤ way.span b := by
  have hsecond : 0 ≤ second := by decide
  have hmillisecond : 0 ≤ millisecond := by decide
  cases way with
  | cache => exact hab
  | expire => exact mul_le_mul_of_nonneg_right hab hsecond
  | pexpire => exact mul_le_mul_of_nonneg_right hab hmillisecond
  | client => exact mul_le_mul_of_nonneg_right (Int.tdiv_le_tdiv (by decide) hab) hsecond

def Outlived (first second : Cache L) (key : Key) (start : ℤ) : Prop :=
  ∀ t, start ≤ t → (live t (first.contents key)).isSome → (live t (second.contents key)).isSome

theorem deadline_eq_zero_iff {now ttl : ℤ} (hnow : 0 < now) (hfits : FitsInt64 (now + ttl)) :
    deadline now ttl = 0 ↔ ttl ≤ 0 := by
  by_cases hpos : 0 < ttl
  · rw [deadline_of_fits hpos hfits]
    omega
  · rw [deadline, if_neg hpos]
    exact iff_of_true rfl (not_lt.mp hpos)

theorem deadline_mono {now a b : ℤ} (hab : a ≤ b) (hfirst : FitsInt64 (now + a))
    (hsecond : FitsInt64 (now + b)) (hdeadline : deadline now a ≠ 0) :
    deadline now a ≤ deadline now b := by
  have hpos : 0 < a := by
    by_contra hsign
    exact hdeadline (if_neg hsign)
  rw [deadline_of_fits hpos hfirst, deadline_of_fits (lt_of_lt_of_le hpos hab) hsecond]
  exact Int.add_le_add_left hab now

theorem outlived_iff {first second : Cache L} {key : Key} {value : Bytes} {early late : ℤ}
    (hfirst : first.contents key = some ⟨value, early⟩)
    (hsecond : second.contents key = some ⟨value, late⟩) (hle : early ≠ 0 → early ≤ late)
    (start : ℤ) : Outlived first second key start ↔ (early = 0 → late = 0) := by
  unfold Outlived
  simp only [hfirst, hsecond, isSome_live_iff]
  constructor
  · intro houtlived hzero
    have hlate := houtlived (max start late) (le_max_left _ _) (Or.inl hzero)
    rcases hlate with hnone | hbefore
    · exact hnone
    · exact absurd hbefore (not_lt.mpr (le_max_right _ _))
  · intro hzero t _ hlive
    by_cases hearly : early = 0
    · exact Or.inl (hzero hearly)
    · have hbefore := hlive.resolve_left hearly
      exact Or.inr (lt_of_lt_of_le hbefore (hle hearly))

/-- A shorter time to live is the shorter one unless it is the one that takes the
deadline away, which every time to live that is not positive does. -/
theorem shorter_expire_iff (way : ExpireWay) (lib : Lib) (clock : ℕ → Clock) (i : ℕ)
    (e : Engine L) (key : Key) (hlive : (live (clock i).second (e.cache.contents key)).isSome)
    (a b : ℤ) (hab : a ≤ b) (hfirst : way.Fits (clock i).first a)
    (hsecond : way.Fits (clock i).first b) :
    (Outlived (way.run lib clock i e key a).cache (way.run lib clock i e key b).cache key
        (clock i).second ↔
      (deadline (clock i).first (way.span a) = 0 → deadline (clock i).first (way.span b) = 0)) ∧
    (0 < (clock i).first →
      (Outlived (way.run lib clock i e key a).cache (way.run lib clock i e key b).cache key
          (clock i).second ↔
        ¬ (way.span a ≤ 0 ∧ 0 < way.span b))) := by
  obtain ⟨it, hit⟩ := Option.isSome_iff_exists.mp hlive
  have hstored : Outlived (way.run lib clock i e key a).cache
      (way.run lib clock i e key b).cache key (clock i).second ↔
        (deadline (clock i).first (way.span a) = 0 →
          deadline (clock i).first (way.span b) = 0) := by
    rw [ExpireWay.cache_run hfirst, ExpireWay.cache_run hsecond]
    exact outlived_iff (Cache.exec_expire_of_live hit _).1 (Cache.exec_expire_of_live hit _).1
      (deadline_mono (way.span_mono hab) hfirst.2.2 hsecond.2.2) _
  refine ⟨hstored, fun hnow => ?_⟩
  rw [hstored, deadline_eq_zero_iff hnow hfirst.2.2, deadline_eq_zero_iff hnow hsecond.2.2,
    not_and, not_lt]

/-- The client asks for half a second or for two, and the key with half a second is
there after both. -/
theorem half_second_outlives_two :
    let e := ((cmdSet asciiOnly ⟨text "SET", [[107], [118]]⟩ : Plan _).run
      (fun _ => ⟨3, 3⟩) 0 (Engine.start oneShard 0)).1
    let half := ExpireWay.client.run asciiOnly (fun _ => ⟨3, 3⟩) 0 e [107] 500000000
    let two := ExpireWay.client.run asciiOnly (fun _ => ⟨3, 3⟩) 0 e [107] 2000000000
    live 2000000003 (half.cache.contents [107]) = some ⟨[118], 0⟩ ∧
      live 2000000003 (two.cache.contents [107]) = none := by
  decide +kernel

theorem shorter_expire_iff_one_second :
    let e := ((cmdSet asciiOnly ⟨text "SET", [[107], [118]]⟩ : Plan _).run
      (fun _ => ⟨3, 3⟩) 0 (Engine.start oneShard 0)).1
    Outlived (ExpireWay.client.run asciiOnly (fun _ => ⟨3, 3⟩) 0 e [107] 1500000000).cache
      (ExpireWay.client.run asciiOnly (fun _ => ⟨3, 3⟩) 0 e [107] 2000000000).cache [107] 3 := by
  intro e
  have hlive : (live 3 (e.cache.contents [107])).isSome := by decide +kernel
  have hfirst : ExpireWay.client.Fits 3 1500000000 := by
    unfold ExpireWay.Fits FitsInt64
    decide
  have hsecond : ExpireWay.client.Fits 3 2000000000 := by
    unfold ExpireWay.Fits FitsInt64
    decide
  have hiff := shorter_expire_iff .client asciiOnly (fun _ => ⟨3, 3⟩) 0 e [107] hlive
    1500000000 2000000000 (by decide) hfirst hsecond
  exact (hiff.2 (by decide)).mpr (by decide)

end CacheServer
end DistCache
