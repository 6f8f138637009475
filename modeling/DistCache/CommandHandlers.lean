import DistCache.RespProtocol
import DistCache.CacheEngine

/-!
# The commands that work on the cache

Which calls of the cache a handler makes does not depend on what they return, so that a
handler is a plan: the calls, and how their results become the reply.  Left open are the
case mapping of texts that are not ASCII, the patterns of `KEYS`, the ratio in `INFO`,
and the version of the compiler.
-/

namespace DistCache
namespace CacheServer

open Resp

/-! ## Texts -/

def text (s : String) : Bytes := s.toList.map Char.toUInt8

structure Lib where
  mapUpper : Bytes → Bytes
  mapLower : Bytes → Bytes
  matches_ : Bytes → Bytes → Bool
  hitRatio : ℕ → ℕ → Bytes
  goVersion : Bytes

def isASCII (s : Bytes) : Bool := s.all fun c => c < 128

def upperByte (c : UInt8) : UInt8 := if 97 ≤ c ∧ c ≤ 122 then c - 32 else c

def lowerByte (c : UInt8) : UInt8 := if 65 ≤ c ∧ c ≤ 90 then c + 32 else c

def Lib.toUpper (lib : Lib) (s : Bytes) : Bytes :=
  if isASCII s then s.map upperByte else lib.mapUpper s

def Lib.toLower (lib : Lib) (s : Bytes) : Bytes :=
  if isASCII s then s.map lowerByte else lib.mapLower s

def asciiOnly : Lib := ⟨id, id, fun _ _ => false, fun _ _ => [], []⟩

/-! ## Replies -/

abbrev Reply := Resp.Value

def rSimple (s : String) : Reply := .simple (text s)

def rOK : Reply := rSimple "OK"

def rErr (s : String) : Reply := .error (text s)

def rErrQuoting (before : String) (arg : Bytes) (after : String) : Reply :=
  .error (text before ++ arg ++ text after)

def rInt (n : ℤ) : Reply := .int (Int64.ofInt n)

def rNil : Reply := .nil

def rBulk : Option Bytes → Reply
  | none => rNil
  | some b => .bulk b

def rBulkStr (s : Bytes) : Reply := .bulk s

def rArray (items : List Reply) : Reply := .array items

def rNilArray : Reply := .nilArray

/-- `setLocked` copies a value by appending it to a nil slice, so that the copy of
an empty value is nil. -/
def stored (value : Bytes) : Option Bytes := if value = [] then none else some value

/-! ## Commands and plans -/

structure Command where
  name : Bytes
  args : List Bytes
  deriving DecidableEq, Repr

/-- The calls of the cache, each a sequence of steps with one reading of the
clock, and the reply. -/
structure Plan (L : Layout) where
  calls : List (List (KeyOp L))
  render : List DistCache.Reply → Reply

variable {L : Layout}

def Plan.answer (r : Reply) : Plan L := ⟨[], fun _ => r⟩

def Plan.ops (p : Plan L) : List (KeyOp L) := p.calls.flatten

def second : ℤ := 1000000000

def millisecond : ℤ := 1000000

/-! ## The handlers -/

def cmdPing (cmd : Command) : Plan L :=
  match cmd.args with
  | arg :: _ => .answer (rBulk (some arg))
  | [] => .answer (rSimple "PONG")

def cmdEcho (cmd : Command) : Plan L :=
  match cmd.args with
  | [arg] => .answer (rBulk (some arg))
  | _ => .answer (rErr "ERR wrong number of arguments for 'echo'")

def setOptions (lib : Lib) : ℤ → List Bytes → Except Reply ℤ
  | ttl, [] => .ok ttl
  | _, opt :: rest =>
      if lib.toUpper opt = text "EX" ∨ lib.toUpper opt = text "PX" then
        match rest with
        | [] => .error (rErr "ERR syntax error")
        | arg :: rest =>
            match parseInt arg with
            | none => .error (rErr "ERR invalid expire time in 'set'")
            | some n =>
                if n ≤ 0 then .error (rErr "ERR invalid expire time in 'set'")
                else if lib.toUpper opt = text "EX" then
                  setOptions lib (int64 (n * second)) rest
                else setOptions lib (int64 (n * millisecond)) rest
      else .error (rErr "ERR syntax error")

def cmdSet (lib : Lib) (cmd : Command) : Plan L :=
  match cmd.args with
  | key :: val :: opts =>
      match setOptions lib 0 opts with
      | .error r => .answer r
      | .ok ttl => ⟨[[.setTTL key val ttl]], fun _ => rOK⟩
  | _ => .answer (rErr "ERR wrong number of arguments for 'set'")

def rFound : DistCache.Reply → Reply
  | .value (some v) => rBulk (stored v)
  | _ => rNil

def cmdGet (cmd : Command) : Plan L :=
  match cmd.args with
  | [key] => ⟨[[.get key]], fun found => rFound (found.headD .done)⟩
  | _ => .answer (rErr "ERR wrong number of arguments for 'get'")

def countTrue (found : List DistCache.Reply) : Reply :=
  rInt (found.countP fun r => r = .bool true)

def cmdDel (cmd : Command) : Plan L :=
  match cmd.args with
  | [] => .answer (rErr "ERR wrong number of arguments for 'del'")
  | keys => ⟨keys.map fun k => [.delete k], countTrue⟩

def cmdExists (cmd : Command) : Plan L :=
  match cmd.args with
  | [] => .answer (rErr "ERR wrong number of arguments for 'exists'")
  | keys => ⟨keys.map fun k => [.exists_ k], countTrue⟩

def rNumber : DistCache.Reply → Reply
  | .number (.ok v) => rInt v
  | _ => rErr "ERR value is not an integer or out of range"

def incrBy (lib : Lib) (step : ℤ) (explicit : Bool) (cmd : Command) : Plan L :=
  let name := lib.toUpper cmd.name
  let wrong : Plan L := .answer
    (rErrQuoting "ERR wrong number of arguments for '" (lib.toLower name) "'")
  let add (key : Key) (delta : ℤ) : Plan L :=
    ⟨[[.incrBy key delta]], fun found => rNumber (found.headD .done)⟩
  if explicit then
    match cmd.args with
    | [key, arg] =>
        match parseInt arg with
        | none => .answer (rErr "ERR value is not an integer or out of range")
        | some n => add key (if name = text "DECRBY" then int64 (-n) else n)
    | _ => wrong
  else
    match cmd.args with
    | [key] => add key step
    | _ => wrong

def pairs : List Bytes → List (Key × Bytes)
  | key :: value :: rest => (key, value) :: pairs rest
  | _ => []

def cmdMSet (cmd : Command) : Plan L :=
  if cmd.args.length < 2 ∨ (cmd.args.length + 1) % 2 = 0 then
    .answer (rErr "ERR wrong number of arguments for 'mset'")
  else ⟨(pairs cmd.args).map fun p => [.setTTL p.1 p.2 0], fun _ => rOK⟩

def cmdMGet (cmd : Command) : Plan L :=
  match cmd.args with
  | [] => .answer (rErr "ERR wrong number of arguments for 'mget'")
  | keys => ⟨keys.map fun k => [.get k], fun found => rArray (found.map rFound)⟩

def rBool (found : List DistCache.Reply) : Reply :=
  if found.headD .done = .bool true then rInt 1 else rInt 0

def expire (unit : ℤ) (cmd : Command) : Plan L :=
  match cmd.args with
  | [key, arg] =>
      match parseInt arg with
      | none => .answer (rErr "ERR value is not an integer or out of range")
      | some n => ⟨[[.expire key (int64 (n * unit))]], rBool⟩
  | _ => .answer (rErr "ERR wrong number of arguments")

def cmdPersist (cmd : Command) : Plan L :=
  match cmd.args with
  | [key] => ⟨[[.expire key 0]], rBool⟩
  | _ => .answer (rErr "ERR wrong number of arguments for 'persist'")

def ttl (millis : Bool) (cmd : Command) : Plan L :=
  match cmd.args with
  | [key] =>
      ⟨[[.ttl key]], fun found =>
        match found.headD .done with
        | .remaining rem true false =>
            if millis then rInt (rem.tdiv millisecond) else rInt (rem.tdiv second)
        | .remaining _ true true => rInt (-1)
        | _ => rInt (-2)⟩
  | _ => .answer (rErr "ERR wrong number of arguments")

def keysOf : DistCache.Reply → List Key
  | .keys found => found
  | _ => []

def cmdKeys (lib : Lib) (cmd : Command) : Plan L :=
  let pattern := cmd.args.headD (text "*")
  ⟨[(List.finRange L.shards).map .keys], fun found =>
    rArray (((found.flatMap keysOf).filter fun k =>
      pattern = text "*" ∨ lib.matches_ pattern k).map rBulkStr)⟩

def countOf : DistCache.Reply → ℕ
  | .count n => n
  | _ => 0

def cmdDBSize (_ : Command) : Plan L :=
  ⟨[(List.finRange L.shards).map .len], fun found => rInt (found.map countOf).sum⟩

def cmdType (cmd : Command) : Plan L :=
  match cmd.args with
  | [key] =>
      ⟨[[.exists_ key]], fun found =>
        if found.headD .done = .bool true then rSimple "string" else rSimple "none"⟩
  | _ => .answer (rErr "ERR wrong number of arguments for 'type'")

def cmdFlushAll (_ : Command) : Plan L :=
  ⟨[(List.finRange L.shards).map .flush], fun _ => rOK⟩

/-! ## The table -/

inductive Handler where
  | ping
  | echo
  | set
  | get
  | del
  | exists_
  | incr
  | decr
  | incrBy
  | decrBy
  | mset
  | mget
  | expire
  | pexpire
  | ttl
  | pttl
  | persist
  | keys
  | dbsize
  | type_
  | flushAll
  deriving DecidableEq, Repr

namespace Handler

def name : Handler → Bytes
  | .ping => text "PING"
  | .echo => text "ECHO"
  | .set => text "SET"
  | .get => text "GET"
  | .del => text "DEL"
  | .exists_ => text "EXISTS"
  | .incr => text "INCR"
  | .decr => text "DECR"
  | .incrBy => text "INCRBY"
  | .decrBy => text "DECRBY"
  | .mset => text "MSET"
  | .mget => text "MGET"
  | .expire => text "EXPIRE"
  | .pexpire => text "PEXPIRE"
  | .ttl => text "TTL"
  | .pttl => text "PTTL"
  | .persist => text "PERSIST"
  | .keys => text "KEYS"
  | .dbsize => text "DBSIZE"
  | .type_ => text "TYPE"
  | .flushAll => text "FLUSHALL"

def all : List Handler :=
  [.ping, .echo, .set, .get, .del, .exists_, .incr, .decr, .incrBy, .decrBy, .mset, .mget,
    .expire, .pexpire, .ttl, .pttl, .persist, .keys, .dbsize, .type_, .flushAll]

def plan (lib : Lib) (cmd : Command) : Handler → Plan L
  | .ping => cmdPing cmd
  | .echo => cmdEcho cmd
  | .set => cmdSet lib cmd
  | .get => cmdGet cmd
  | .del => cmdDel cmd
  | .exists_ => cmdExists cmd
  | .incr => CacheServer.incrBy lib 1 false cmd
  | .decr => CacheServer.incrBy lib (-1) false cmd
  | .incrBy => CacheServer.incrBy lib 0 true cmd
  | .decrBy => CacheServer.incrBy lib 0 true cmd
  | .mset => cmdMSet cmd
  | .mget => cmdMGet cmd
  | .expire => CacheServer.expire second cmd
  | .pexpire => CacheServer.expire millisecond cmd
  | .ttl => CacheServer.ttl false cmd
  | .pttl => CacheServer.ttl true cmd
  | .persist => cmdPersist cmd
  | .keys => cmdKeys lib cmd
  | .dbsize => cmdDBSize cmd
  | .type_ => cmdType cmd
  | .flushAll => cmdFlushAll cmd

end Handler

def handlers (cmd : Bytes) : Option Handler := Handler.all.find? fun h => h.name = cmd

/-! ## The replies are single lines -/

theorem name_of_handlers {cmd : Bytes} {h : Handler} (hfound : handlers cmd = some h) :
    cmd = h.name := by
  have hname := List.find?_some hfound
  rw [decide_eq_true_eq] at hname
  exact hname.symm

def Plan.Plain (p : Plan L) : Prop := ∀ found, (p.render found).Plain

theorem plain_answer {r : Reply} (hplain : r.Plain) : (Plan.answer r : Plan L).Plain :=
  fun _ => hplain

theorem plain_rBulk (b : Option Bytes) : (rBulk b).Plain := by
  cases b <;> trivial

theorem plain_rFound (found : DistCache.Reply) : (rFound found).Plain := by
  unfold rFound
  split
  · exact plain_rBulk _
  · trivial

theorem plain_rNumber (found : DistCache.Reply) : (rNumber found).Plain := by
  unfold rNumber
  split
  · trivial
  · exact (by decide : OneLine (text "ERR value is not an integer or out of range"))

theorem plain_rBool (found : List DistCache.Reply) : (rBool found).Plain := by
  unfold rBool
  split_ifs <;> trivial

theorem plain_rArray_map {α : Type} {f : α → Reply} (hplain : ∀ a, (f a).Plain) (l : List α) :
    (rArray (l.map f)).Plain := by
  have hall : PlainAll (l.map f) := by
    rw [plainAll_iff]
    intro v hmem
    obtain ⟨a, _, rfl⟩ := List.mem_map.mp hmem
    exact hplain a
  exact hall

theorem plain_setOptions {lib : Lib} {ttl : ℤ} {opts : List Bytes} {r : Reply}
    (hopts : setOptions lib ttl opts = .error r) : r.Plain := by
  have hsyntax : OneLine (text "ERR syntax error") := by decide
  have hinvalid : OneLine (text "ERR invalid expire time in 'set'") := by decide
  fun_induction setOptions lib ttl opts with
  | case1 => contradiction
  | case2 =>
      cases hopts
      exact hsyntax
  | case3 =>
      cases hopts
      exact hinvalid
  | case4 =>
      cases hopts
      exact hinvalid
  | case5 _ _ _ _ _ _ _ _ _ ih => exact ih hopts
  | case6 _ _ _ _ _ _ _ _ _ ih => exact ih hopts
  | case7 =>
      cases hopts
      exact hsyntax

theorem plain_err {s : String} (hline : OneLine (text s)) :
    (Plan.answer (rErr s) : Plan L).Plain :=
  fun _ => hline

theorem plain_cmdPing (cmd : Command) : (cmdPing cmd : Plan L).Plain := by
  unfold cmdPing
  split
  · exact plain_answer (plain_rBulk _)
  · exact fun _ => (by decide : OneLine (text "PONG"))

theorem plain_cmdEcho (cmd : Command) : (cmdEcho cmd : Plan L).Plain := by
  unfold cmdEcho
  split
  · exact plain_answer (plain_rBulk _)
  · exact plain_err (by decide)

theorem plain_cmdSet (lib : Lib) (cmd : Command) : (cmdSet lib cmd : Plan L).Plain := by
  unfold cmdSet
  split
  · rename_i key val opts _
    cases hopts : setOptions lib 0 opts with
    | error r => exact plain_answer (plain_setOptions hopts)
    | ok ttl => exact fun _ => (by decide : OneLine (text "OK"))
  · exact plain_err (by decide)

theorem plain_cmdGet (cmd : Command) : (cmdGet cmd : Plan L).Plain := by
  unfold cmdGet
  split
  · exact fun _ => plain_rFound _
  · exact plain_err (by decide)

theorem plain_cmdDel (cmd : Command) : (cmdDel cmd : Plan L).Plain := by
  unfold cmdDel
  split
  · exact plain_err (by decide)
  · exact fun _ => trivial

theorem plain_cmdExists (cmd : Command) : (cmdExists cmd : Plan L).Plain := by
  unfold cmdExists
  split
  · exact plain_err (by decide)
  · exact fun _ => trivial

theorem plain_incrBy {lib : Lib} {cmd : Command} (step : ℤ) (explicit : Bool)
    (hname : OneLine (text "ERR wrong number of arguments for '" ++
      lib.toLower (lib.toUpper cmd.name) ++ text "'")) :
    (incrBy lib step explicit cmd : Plan L).Plain := by
  have hadd : ∀ (key : Key) (delta : ℤ),
      (⟨[[.incrBy key delta]], fun found => rNumber (found.headD .done)⟩ : Plan L).Plain :=
    fun _ _ found => plain_rNumber _
  unfold incrBy
  cases explicit with
  | true =>
      simp only [if_true]
      split
      · split
        · exact plain_err (by decide)
        · exact hadd _ _
      · exact plain_answer hname
  | false =>
      simp only [Bool.false_eq_true, if_false]
      split
      · exact hadd _ _
      · exact plain_answer hname

theorem toLower_name_oneLine (lib : Lib) {h : Handler}
    (hcounter : h = .incr ∨ h = .decr ∨ h = .incrBy ∨ h = .decrBy) :
    OneLine (text "ERR wrong number of arguments for '" ++ lib.toLower h.name ++ text "'") := by
  have hascii : isASCII h.name = true := by
    rcases hcounter with rfl | rfl | rfl | rfl <;> decide
  rw [Lib.toLower, if_pos hascii]
  rcases hcounter with rfl | rfl | rfl | rfl <;> decide

theorem plain_cmdMSet (cmd : Command) : (cmdMSet cmd : Plan L).Plain := by
  unfold cmdMSet
  split_ifs
  · exact plain_err (by decide)
  · exact fun _ => (by decide : OneLine (text "OK"))

theorem plain_cmdMGet (cmd : Command) : (cmdMGet cmd : Plan L).Plain := by
  unfold cmdMGet
  split
  · exact plain_err (by decide)
  · exact fun found => plain_rArray_map plain_rFound found

theorem plain_expire (unit : ℤ) (cmd : Command) : (expire unit cmd : Plan L).Plain := by
  unfold expire
  split
  · split
    · exact plain_err (by decide)
    · exact plain_rBool
  · exact plain_err (by decide)

theorem plain_cmdPersist (cmd : Command) : (cmdPersist cmd : Plan L).Plain := by
  unfold cmdPersist
  split
  · exact plain_rBool
  · exact plain_err (by decide)

theorem plain_ttl (millis : Bool) (cmd : Command) : (ttl millis cmd : Plan L).Plain := by
  unfold ttl
  split
  · intro found
    dsimp only
    split
    · split_ifs <;> trivial
    · trivial
    · trivial
  · exact plain_err (by decide)

theorem plain_cmdType (cmd : Command) : (cmdType cmd : Plan L).Plain := by
  unfold cmdType
  split
  · intro found
    dsimp only
    split_ifs
    · exact (by decide : OneLine (text "string"))
    · exact (by decide : OneLine (text "none"))
  · exact plain_err (by decide)

theorem plain_plan {lib : Lib} {cmd : Command} {h : Handler}
    (hfound : handlers (lib.toUpper cmd.name) = some h) : (h.plan lib cmd : Plan L).Plain := by
  have hname := name_of_handlers hfound
  have hcounter : h = .incr ∨ h = .decr ∨ h = .incrBy ∨ h = .decrBy →
      ∀ step explicit, (incrBy lib step explicit cmd : Plan L).Plain := by
    intro hcase step explicit
    apply plain_incrBy
    rw [hname]
    exact toLower_name_oneLine lib hcase
  cases h with
  | ping => exact plain_cmdPing cmd
  | echo => exact plain_cmdEcho cmd
  | set => exact plain_cmdSet lib cmd
  | get => exact plain_cmdGet cmd
  | del => exact plain_cmdDel cmd
  | exists_ => exact plain_cmdExists cmd
  | incr => exact hcounter (by simp) 1 false
  | decr => exact hcounter (by simp) (-1) false
  | incrBy => exact hcounter (by simp) 0 true
  | decrBy => exact hcounter (by simp) 0 true
  | mset => exact plain_cmdMSet cmd
  | mget => exact plain_cmdMGet cmd
  | expire => exact plain_expire second cmd
  | pexpire => exact plain_expire millisecond cmd
  | ttl => exact plain_ttl false cmd
  | pttl => exact plain_ttl true cmd
  | persist => exact plain_cmdPersist cmd
  | keys => exact fun _ => plain_rArray_map (f := rBulkStr) (fun _ => trivial) _
  | dbsize => exact fun _ => trivial
  | type_ => exact plain_cmdType cmd
  | flushAll => exact fun _ => (by decide : OneLine (text "OK"))

end CacheServer
end DistCache
