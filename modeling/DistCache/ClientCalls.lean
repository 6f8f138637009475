import DistCache.ManyClients
import DistCache.ReplyFraming
import DistCache.RequestReply
import DistCache.RespCommands

/-!
# The methods of the client

A method of the client writes its command, reads one reply and makes of it what it
returns.  A lock keeps the calls of one client apart; different clients call the server
at the same time.

A reply that is an error is returned as an error.  The methods that return a number check
the type of the reply, while `Get` and `Lock` check only whether it is nil.
-/

namespace DistCache
namespace Client

open CacheServer RequestReply Resp Transition

variable {lib : Lib} {cfg : CacheServer.Config} {L : Layout}

/-! ## The fields of a value -/

def valueType : Value → UInt8
  | .simple _ => 43
  | .error _ => 45
  | .int _ => 58
  | .bulk _ => 36
  | .nil => 36
  | .array _ => 42
  | .nilArray => 42

def valueStr : Value → Bytes
  | .simple s => s
  | .error s => s
  | _ => []

def valueInt : Value → Int64
  | .int n => n
  | _ => 0

def valueBulk : Value → Bytes
  | .bulk b => b
  | _ => []

def valueIsNil : Value → Bool
  | .nil => true
  | .nilArray => true
  | _ => false

/-! ## The methods -/

inductive Method where
  | auth (password : Bytes)
  | ping
  | set (key value : Bytes)
  | setEX (key value : Bytes) (ttl : Int64)
  | get (key : Bytes)
  | del (keys : List Bytes)
  | exists_ (keys : List Bytes)
  | incr (key : Bytes)
  | incrBy (key : Bytes) (delta : Int64)
  | expire (key : Bytes) (ttl : Int64)
  | ttl (key : Bytes)
  | publish (topic msg : Bytes)
  | lock (key : Bytes) (ttl : Int64) (owner : Bytes)
  | unlock (key token : Bytes)
  deriving DecidableEq

inductive Outcome where
  | done
  | value (v : Bytes) (ok : Bool)
  | count (n : Int64)
  | flag (ok : Bool)
  | duration (d : ℤ)
  | token (tok : Bytes) (ok : Bool)
  deriving DecidableEq

inductive CallError where
  | server (msg : Bytes)
  | expectedInteger (typ : UInt8)
  deriving DecidableEq

def inUnits (ttl : Int64) (unit : ℤ) : Bytes := formatInt (ttl.toInt.tdiv unit)

namespace Method

def name : Method → Bytes
  | .auth _ => text "AUTH"
  | .ping => text "PING"
  | .set _ _ => text "SET"
  | .setEX _ _ _ => text "SET"
  | .get _ => text "GET"
  | .del _ => text "DEL"
  | .exists_ _ => text "EXISTS"
  | .incr _ => text "INCR"
  | .incrBy _ _ => text "INCRBY"
  | .expire _ _ => text "EXPIRE"
  | .ttl _ => text "TTL"
  | .publish _ _ => text "PUBLISH"
  | .lock _ _ _ => text "LOCK"
  | .unlock _ _ => text "UNLOCK"

def args : Method → List Bytes
  | .auth password => [password]
  | .ping => []
  | .set key value => [key, value]
  | .setEX key value lifetime => [key, value, text "PX", inUnits lifetime millisecond]
  | .get key => [key]
  | .del keys => keys
  | .exists_ keys => keys
  | .incr key => [key]
  | .incrBy key delta => [key, formatInt delta.toInt]
  | .expire key lifetime => [key, inUnits lifetime second]
  | .ttl key => [key]
  | .publish topic msg => [topic, msg]
  | .lock key lifetime owner => [key, inUnits lifetime second, owner]
  | .unlock key token => [key, token]

def command (m : Method) : Command := ⟨m.name, m.args⟩

/-- `Del` and `Exists` take the lock of a shard for each key anew.  The other methods
that reach the cache make one call of it. -/
def Single : Method → Prop
  | .del keys => keys.length ≤ 1
  | .exists_ keys => keys.length ≤ 1
  | _ => True

end Method

def doBytes (v : Value) : Except CallError Value :=
  if valueType v = 45 then .error (.server (valueStr v)) else .ok v

def intCmd (v : Value) : Except CallError Int64 :=
  match doBytes v with
  | .error err => .error err
  | .ok v => if valueType v ≠ 58 then .error (.expectedInteger (valueType v)) else .ok (valueInt v)

def ttlDuration (n : Int64) : ℤ := if n < 0 then n.toInt else int64 (n.toInt * second)

def Method.result (v : Value) : Method → Except CallError Outcome
  | .auth _ => (doBytes v).map fun _ => .done
  | .ping => (doBytes v).map fun _ => .done
  | .set _ _ => (doBytes v).map fun _ => .done
  | .setEX _ _ _ => (doBytes v).map fun _ => .done
  | .get _ => (doBytes v).map fun v =>
      if valueIsNil v then .value [] false else .value (valueBulk v) true
  | .del _ => (intCmd v).map .count
  | .exists_ _ => (intCmd v).map .count
  | .incr _ => (intCmd v).map .count
  | .incrBy _ _ => (intCmd v).map .count
  | .expire _ _ => (intCmd v).map fun n => .flag (n = 1)
  | .ttl _ => (intCmd v).map fun n => .duration (ttlDuration n)
  | .publish _ _ => (doBytes v).map fun v => .count (valueInt v)
  | .lock _ _ _ => (doBytes v).map fun v =>
      if valueIsNil v then .token [] false else .token (valueBulk v) true
  | .unlock _ _ => (intCmd v).map fun n => .flag (n = 1)

/-! ## The wire -/

/-- The loop of `serve` up to the next command: commands without arguments are
skipped.  An error of the reader ends the connection. -/
def nextCommand : ℕ → Bytes → Option (Command × Bytes)
  | 0, _ => none
  | fuel + 1, input =>
      match readCommand input with
      | .ok ([], rest) => nextCommand fuel rest
      | .ok (name :: args, rest) => some (⟨name, args⟩, rest)
      | .error _ => none

/-- The server hands a command of the connection `i` to `dispatch`. -/
def handle (lib : Lib) (cfg : CacheServer.Config) (s : Clients lib L) (env : Env L) (i : ℕ)
    (cmd : Command) : Clients lib L × List CacheServer.Reply :=
  let t := serve lib cfg ⟨s.conns i, s.server⟩ cmd env
  (⟨Function.update s.conns i t.conn, t.server⟩, t.written)

/-- The clients and the server with the streams between them. -/
def wire (lib : Lib) (cfg : CacheServer.Config) (L : Layout) :
    Service (Clients lib L) (Env L) Method Command CacheServer.Reply UInt8 where
  request := Method.command
  writeRequest := fun m => writeCommand (m.name :: m.args)
  readRequest := fun input => nextCommand (input.length + 1) input
  serve := handle lib cfg
  writeReply := writeReply
  readReply := fun input => (readReply input).toOption

theorem readRequest_nil : (wire lib cfg L).readRequest [] = none := rfl

theorem readReply_nil : (wire lib cfg L).readReply [] = none := rfl

theorem readRequest_write {m : Method} (hadmitted : Admitted (m.name :: m.args)) :
    (wire lib cfg L).readRequest ((wire lib cfg L).writeRequest m) = some (m.command, []) := by
  have hread := readCommand_writeCommand hadmitted []
  rw [List.append_nil] at hread
  simp only [wire, nextCommand, hread, Method.command]

theorem readReply_write {v : Value} (hplain : v.Plain) (hfits : v.Fits) :
    (wire lib cfg L).readReply ((wire lib cfg L).writeReply v) = some (v, []) := by
  have hread := readReply_writeReply hplain hfits []
  rw [List.append_nil] at hread
  simp only [wire, hread, Except.toOption]

/-! ## The commands of the methods -/

def Method.role : Method → Handler ⊕ Verb
  | .auth _ => .inr .auth
  | .ping => .inl .ping
  | .set _ _ => .inl .set
  | .setEX _ _ _ => .inl .set
  | .get _ => .inl .get
  | .del _ => .inl .del
  | .exists_ _ => .inl .exists_
  | .incr _ => .inl .incr
  | .incrBy _ _ => .inl .incrBy
  | .expire _ _ => .inl .expire
  | .ttl _ => .inl .ttl
  | .publish _ _ => .inr .publish
  | .lock _ _ _ => .inr .lock
  | .unlock _ _ => .inr .unlock

theorem Method.toUpper_name (lib : Lib) (m : Method) : lib.toUpper m.name = m.name := by
  cases m <;> rfl

theorem Method.verbs_name (m : Method) : verbs m.name = m.role.elim (fun _ => none) some := by
  cases m <;> rfl

theorem Method.handlers_name (m : Method) :
    handlers m.name = m.role.elim some fun _ => none := by
  cases m <;> rfl

structure Ready (c : Conn lib) : Prop where
  open_ : c.closed = false
  plain : c.inMulti = false
  unsubscribed : c.subs = ∅

theorem ready_new (remoteAddr localAddr : Bytes) :
    Ready (.new remoteAddr localAddr : Conn lib) := ⟨rfl, rfl, rfl⟩

theorem serve_ready {c : Conn lib} (hready : Ready c) (s : Server L) (m : Method) (env : Env L) :
    serve lib cfg ⟨c, s⟩ m.command env =
      if cfg.password ≠ [] ∧ ¬ c.authed ∧ m.name ∉ beforeAuth then
        ⟨c, s.incCommands, [rErr "NOAUTH Authentication required."]⟩
      else execute lib cfg env c s.incCommands m.command := by
  have hname : lib.toUpper m.command.name = m.name := m.toUpper_name lib
  rw [serve, if_neg (by simp [hready.open_]), dispatch, hname]
  simp only [hready.plain, Bool.false_eq_true, false_and, if_false]

theorem conn_execute (cfg : CacheServer.Config) (c : Conn lib) (s : Server L) (m : Method)
    (env : Env L) :
    (execute lib cfg env c s m.command).conn = c ∨
      (execute lib cfg env c s m.command).conn = { c with authed := true } := by
  have hname : lib.toUpper m.command.name = m.name := m.toUpper_name lib
  rw [execute, hname, m.verbs_name, m.handlers_name]
  cases m with
  | auth password =>
      simp only [Method.role, Sum.elim_inr, Verb.run, cmdAuth, Method.command, Method.args]
      by_cases hnone : cfg.password = []
      · exact Or.inl (by rw [if_pos hnone])
      · by_cases hsame : password = cfg.password
        · exact Or.inr (by rw [if_neg hnone, if_neg (not_not.mpr hsame)])
        · exact Or.inl (by rw [if_neg hnone, if_pos hsame])
  | _ => exact Or.inl rfl

theorem conn_serve {c : Conn lib} (hready : Ready c) (s : Server L) (m : Method) (env : Env L) :
    (serve lib cfg ⟨c, s⟩ m.command env).conn = c ∨
      (serve lib cfg ⟨c, s⟩ m.command env).conn = { c with authed := true } := by
  rw [serve_ready hready]
  split_ifs
  · exact Or.inl rfl
  · exact conn_execute cfg c s.incCommands m env

theorem Ready.serve {c : Conn lib} (hready : Ready c) (s : Server L) (m : Method) (env : Env L) :
    Ready (serve lib cfg ⟨c, s⟩ m.command env).conn := by
  have hconn : (CacheServer.serve lib cfg ⟨c, s⟩ m.command env).conn = c ∨
      (CacheServer.serve lib cfg ⟨c, s⟩ m.command env).conn = { c with authed := true } :=
    conn_serve hready s m env
  rcases hconn with hconn | hconn
  · rw [hconn]
    exact hready
  · rw [hconn]
    exact ⟨hready.open_, hready.plain, hready.unsubscribed⟩

theorem written_ready (cfg : CacheServer.Config) {c : Conn lib} (hready : Ready c) (s : Server L)
    (m : Method) (env : Env L) :
    ∃ r, (serve lib cfg ⟨c, s⟩ m.command env).written = [r] ∧ r.Plain := by
  have hname : lib.toUpper m.command.name = m.name := m.toUpper_name lib
  have hsingle : ¬ m.command.Subscribes lib := by
    rw [Command.Subscribes, hname, m.verbs_name]
    cases m <;> simp [Method.role]
  have hknown : unknown lib m.command = none := by
    rw [unknown, hname, m.verbs_name, m.handlers_name]
    cases m <;> rfl
  rw [serve_ready hready]
  split_ifs
  · exact ⟨_, rfl, (by decide : OneLine (text "NOAUTH Authentication required."))⟩
  · have hexecuted : ∃ r, (execute lib cfg env c s.incCommands m.command).written = [r] ∧
        Answers (unknown lib m.command) r := written_execute env c s.incCommands hsingle
    rw [hknown] at hexecuted
    exact hexecuted

/-! ## Calls that overlap -/

theorem eq_nil_or_singleton {keys : List Key} (hsingle : keys.length ≤ 1) :
    keys = [] ∨ ∃ key, keys = [key] :=
  (Nat.le_one_iff_eq_zero_or_eq_one.mp hsingle).imp List.eq_nil_of_length_eq_zero
    List.length_eq_one_iff.mp

theorem ops_of_single (lib : Lib) {h : Handler} {m : Method} (hrole : m.role = .inl h)
    (hsingle : m.Single) : (h.plan lib m.command : Plan L).ops.length ≤ 1 := by
  cases m with
  | del keys | exists_ keys =>
      cases hrole
      rcases eq_nil_or_singleton hsingle with rfl | ⟨key, rfl⟩
      · exact Nat.zero_le 1
      · exact le_refl 1
  | ping =>
      cases hrole
      exact Nat.zero_le 1
  | set key value | get key | incr key | ttl key =>
      cases hrole
      exact le_refl 1
  | setEX key value lifetime | incrBy key delta | expire key lifetime =>
      cases hrole
      simp only [Handler.plan, cmdSet, incrBy, expire, Method.command, Method.args, if_true]
      split
      · exact Nat.zero_le 1
      · exact le_refl 1
  | auth password | publish topic msg | lock key lifetime owner | unlock key token => cases hrole

/-- A call makes one step on the cache and has arguments that the server admits, and
what happens in the background leaves the connections alone. -/
def Proper : Move (Clients lib L) (Env L) Method → Prop
  | .call _ m => m.Single ∧ Admitted (m.name :: m.args)
  | .background f => ∀ s : Clients lib L, (f s).conns = s.conns
  | _ => True

mutual

def decidableFits : (v : Value) → Decidable v.Fits
  | .simple _ => inferInstanceAs (Decidable True)
  | .error _ => inferInstanceAs (Decidable True)
  | .int _ => inferInstanceAs (Decidable True)
  | .bulk b => inferInstanceAs (Decidable (b.length < maxLen))
  | .nil => inferInstanceAs (Decidable True)
  | .array items =>
      have := decidableFitsAll items
      inferInstanceAs (Decidable (items.length < maxLen ∧ FitsAll items))
  | .nilArray => inferInstanceAs (Decidable True)

def decidableFitsAll : (items : List Value) → Decidable (FitsAll items)
  | [] => inferInstanceAs (Decidable True)
  | first :: rest =>
      have := decidableFits first
      have := decidableFitsAll rest
      inferInstanceAs (Decidable (first.Fits ∧ FitsAll rest))

end

instance : DecidablePred Value.Fits := decidableFits

/-- The replies have lengths that the reader can read. -/
def RepliesFit (cfg : CacheServer.Config) (n : Net (Clients lib L) Method UInt8) :
    Move (Clients lib L) (Env L) Method → Prop
  | .serve i env => ∀ m ∈ n.asked i, ∀ r ∈ (handle lib cfg n.server env i m.command).2, r.Fits
  | _ => True

instance (cfg : CacheServer.Config) (n : Net (Clients lib L) Method UInt8)
    (move : Move (Clients lib L) (Env L) Method) : Decidable (RepliesFit cfg n move) :=
  match move with
  | .call _ _ => inferInstanceAs (Decidable True)
  | .serve i env => inferInstanceAs (Decidable (∀ m ∈ n.asked i,
      ∀ r ∈ (handle lib cfg n.server env i m.command).2, r.Fits))
  | .ret _ => inferInstanceAs (Decidable True)
  | .background _ => inferInstanceAs (Decidable True)

theorem ready_handle {s : Clients lib L} (hready : ∀ i, Ready (s.conns i)) (env : Env L) (i : ℕ)
    (m : Method) (j : ℕ) : Ready ((handle lib cfg s env i m.command).1.conns j) := by
  by_cases hj : j = i
  · subst hj
    simp only [handle, Function.update_self]
    exact (hready j).serve s.server m env
  · simp only [handle, Function.update_of_ne hj]
    exact hready j

theorem along_orderly_of_ready {s : Clients lib L} (hready : ∀ i, Ready (s.conns i))
    {moves : List (Move (Clients lib L) (Env L) Method)} (hproper : ∀ move ∈ moves, Proper move)
    (hfits : Along (wire lib cfg L).step (RepliesFit cfg) (.quiet s) moves) :
    Along (wire lib cfg L).step (wire lib cfg L).Orderly (.quiet s) moves := by
  refine Service.along_orderly (I := fun s : Clients lib L => ∀ i, Ready (s.conns i))
    (C := fun n move => Proper move ∧ RepliesFit cfg n move) readRequest_nil readReply_nil
    ?_ ?_ ?_ hready ((along_of_forall_mem _ hproper _).and _ hfits)
  · rintro n i m ⟨⟨_, hadmitted⟩, _⟩
    exact readRequest_write hadmitted
  · rintro n i env m hready ⟨_, hfits⟩ hasked
    obtain ⟨r, hwritten, hplain⟩ := written_ready cfg (hready i) n.server.server m env
    refine ⟨⟨r, hwritten, readReply_write hplain ?_⟩, ready_handle hready env i m⟩
    apply hfits m hasked r
    have hreplies : (handle lib cfg n.server env i m.command).2 = [r] := hwritten
    rw [hreplies]
    exact List.mem_singleton_self r
  · rintro n f hready ⟨hconns, _⟩ i
    rw [hconns]
    exact hready i

theorem single_of_effect {s : Clients lib L} {moves : List (Move (Clients lib L) (Env L) Method)}
    (hproper : ∀ move ∈ moves, Proper move) {i : ℕ} {m : Method} {env : Env L}
    (hmem : .call i m env ∈ effects (observe (wire lib cfg L).step (wire lib cfg L).trace
      (.quiet s) moves)) : m.Single := by
  refine Service.called_of_effect (C := Method.Single) ?_ ?_ hmem
  · intro j other hasked
    cases hasked
  · intro j other hcall
    exact (hproper _ hcall).1

/-- However the calls of the clients overlap, every client reads the replies to its own
calls in their order, and they are those of a server that is called directly in the
order of the serving.  What is served makes at most one call of the cache.  No client
waits for something that does not come. -/
theorem calls_answered_in_order (cfg : CacheServer.Config) (s : Clients lib L)
    (hready : ∀ i, Ready (s.conns i)) (moves : List (Move (Clients lib L) (Env L) Method))
    (hproper : ∀ move ∈ moves, Proper move)
    (hfits : Along (wire lib cfg L).step (RepliesFit cfg) (.quiet s) moves)
    {final : Net (Clients lib L) Method UInt8}
    (hrun : run (wire lib cfg L).step (.quiet s) moves = some final) :
    let P := wire lib cfg L
    let events := observe P.step P.trace (.quiet s) moves
    (∀ i m env h, .call i m env ∈ effects events → m.role = .inl h →
        (h.plan lib m.command : Plan L).ops.length ≤ 1) ∧
      final.server = (P.sequential s (effects events)).1 ∧
      ∀ i, (∃ pending, ofClient i (P.sequential s (effects events)).2 =
            ofClient i (returned events) ++ pending ∧
          pending.length ≤ 1 ∧ (final.asked i = none → pending = [])) ∧
        ∀ m, final.asked i = some m →
          (∀ env, (P.step final (.serve i env)).isSome) ∨ (P.step final (.ret i)).isSome := by
  intro P events
  have hlinked := Service.linked_run readRequest_nil readReply_nil
    (along_orderly_of_ready hready hproper hfits) hrun
  refine ⟨?_, hlinked.server, fun i => ⟨hlinked.answers i, fun m => hlinked.progress⟩⟩
  intro i m env h hmem hrole
  exact ops_of_single lib hrole (single_of_effect hproper hmem)

def oneShard : Layout := DistCache.Config.layout ⟨1, 0, 0, .lru⟩ fun _ => 0

def emptyClients : Clients asciiOnly oneShard :=
  .start (Cache.new ⟨1, 0, 0, .lru⟩ (fun _ => 0) fun _ _ => 0) 0

def atOne : Env oneShard := ⟨fun _ => ⟨1, 1⟩, 1, [], fun _ => 1, id⟩

/-- Two clients call at the same time, and the one that called later is served
first. -/
def overlapping : List (Move (Clients asciiOnly oneShard) (Env oneShard) Method) :=
  [.call 0 (.set [97] [49]), .call 1 (.get [97]), .serve 1 atOne, .serve 0 atOne, .ret 0,
    .call 0 (.get [97]), .serve 0 atOne, .ret 0]

theorem calls_answered_in_order_overlapping :
    let P := wire asciiOnly (CacheServer.Config.new [] []) oneShard
    let events := observe P.step P.trace (.quiet emptyClients) overlapping
    (returned events).map (fun a => (a.client, a.call, a.call.result a.reply)) =
        [(0, .set [97] [49], .ok .done), (0, .get [97], .ok (.value [49] true))] ∧
      ∃ pending, ofClient 1 (P.sequential emptyClients (effects events)).2 =
          ofClient 1 (returned events) ++ pending ∧ pending.length ≤ 1 := by
  intro P events
  have hready : ∀ i, Ready (emptyClients.conns i) := fun _ => ready_new [] []
  have hproper : ∀ move ∈ overlapping, Proper move := by
    intro move hmem
    simp only [overlapping, List.mem_cons, List.not_mem_nil, or_false] at hmem
    rcases hmem with rfl | rfl | rfl | rfl | rfl | rfl | rfl | rfl
    · exact ⟨trivial, by decide, by decide⟩
    · exact ⟨trivial, by decide, by decide⟩
    · trivial
    · trivial
    · trivial
    · exact ⟨trivial, by decide, by decide⟩
    · trivial
    · trivial
  have hfits : Along P.step (RepliesFit (CacheServer.Config.new [] [])) (.quiet emptyClients)
      overlapping := by
    decide +kernel
  have hsome : (run P.step (.quiet emptyClients) overlapping).isSome = true := by decide +kernel
  obtain ⟨final, hrun⟩ := Option.isSome_iff_exists.mp hsome
  obtain ⟨pending, hanswers, hlength, _⟩ :=
    ((calls_answered_in_order (CacheServer.Config.new [] []) emptyClients hready overlapping
      hproper hfits hrun).2.2 1).1
  exact ⟨by decide +kernel, pending, hanswers, hlength⟩

end Client
end DistCache
