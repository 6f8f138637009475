import DistCache.BrokerCalls
import DistCache.ClusterRegistry
import DistCache.CommandHandlers
import DistCache.LockManager
import DistCache.Transactions

/-!
# A connection and its server

The loop of a connection reads a command, hands it to `dispatch` and writes the reply.
The connection knows whether it is authenticated, its transaction and its subscriptions,
each of which has a forwarder; everything else is shared.  What other connections, the
dispatcher and the sweeper do happens between the commands here, except that `WATCH`
waits for a barrier.
-/

namespace DistCache
namespace CacheServer

open Resp Transition

variable {lib : Lib} {L : Layout}

/-! ## The server -/

structure Config where
  password : Bytes
  nodeID : Bytes

/-- `New` gives a node without a name the first one. -/
def Config.new (password nodeID : Bytes) : Config :=
  ⟨password, if nodeID = [] then text "node-1" else nodeID⟩

structure ReplicaState where
  addr : Bytes
  lastSentSeq : ℕ
  lastAckSeq : ℕ

structure Replica where
  primaryAddr : Bytes
  synced : Bool
  lastApplied : ℕ

structure Metrics where
  commandsTotal : ℕ
  pubSubMessages : ℕ

structure Server (L : Layout) where
  engine : Engine L
  broker : PubSub.Broker
  locks : Locks.Manager
  txn : Txn.Coordinator Unit
  registry : Option Cluster.Registry
  primary : Option (List ReplicaState)
  replica : Option Replica
  metrics : Metrics
  resting : broker.Resting

def Server.new (c : Cache L) (clock : ℤ) : Server L where
  engine := Engine.start c clock
  broker := .new
  locks := .new
  txn := .new
  registry := none
  primary := none
  replica := none
  metrics := ⟨0, 0⟩
  resting := PubSub.Broker.resting_new

/-- What a command finds outside of the program. -/
structure Env (L : Layout) where
  clock : ℕ → Clock
  now : ℤ
  token : Bytes
  nodeClock : Bytes → ℤ
  waiting : Server L → Server L

/-! ## The connection -/

structure Queued (lib : Lib) where
  cmd : Command
  handler : Handler
  found : handlers (lib.toUpper cmd.name) = some handler

structure Tx (lib : Lib) where
  watched : AList fun _ : Key => ℕ
  queued : List (Queued lib)
  inMulti : Bool

def Queued.plan (q : Queued lib) : Plan L := q.handler.plan lib q.cmd

namespace Tx

def new : Tx lib := ⟨∅, [], false⟩

def view (tx : Tx lib) : Txn.Tx L :=
  ⟨tx.watched, tx.queued.map fun q => (q.plan : Plan L).ops, tx.inMulti⟩

end Tx

/-- In `MULTI` there is a transaction, and it knows. -/
structure Conn (lib : Lib) where
  remoteAddr : Bytes
  localAddr : Bytes
  authed : Bool
  tx : Option (Tx lib)
  inMulti : Bool
  subs : AList fun _ : Key => ℕ
  closed : Bool
  begun : inMulti = true → tx.isSome = true
  inStep : ∀ t, tx = some t → t.inMulti = inMulti

namespace Conn

def new (remoteAddr localAddr : Bytes) : Conn lib where
  remoteAddr := remoteAddr
  localAddr := localAddr
  authed := false
  tx := none
  inMulti := false
  subs := ∅
  closed := false
  begun := by simp
  inStep := by simp

/-- The transaction of the connection, or the one that `Begin` makes. -/
def theTx (c : Conn lib) : Tx lib := c.tx.getD .new

theorem theTx_inMulti (c : Conn lib) : c.theTx.inMulti = c.inMulti := by
  unfold theTx
  cases htx : c.tx with
  | some t => exact c.inStep t htx
  | none =>
      have hbegun := c.begun
      cases hmulti : c.inMulti with
      | false => rfl
      | true => simp [hmulti, htx] at hbegun

def dropTx (c : Conn lib) : Conn lib :=
  { c with
    tx := none
    inMulti := false
    begun := by simp
    inStep := by simp }

end Conn

/-! ## Running plans -/

def runCall (clock : Clock) : Engine L → List (KeyOp L) → Engine L × List DistCache.Reply
  | e, [] => (e, [])
  | e, op :: rest =>
      let r := e.cache.exec ⟨clock, op⟩
      let after := runCall clock (e.emit r) rest
      (after.1, r.2.2 :: after.2)

def runCalls (clock : ℕ → Clock) :
    ℕ → Engine L → List (List (KeyOp L)) → Engine L × List DistCache.Reply
  | _, e, [] => (e, [])
  | i, e, call :: rest =>
      let r := runCall (clock i) e call
      let after := runCalls clock (i + 1) r.1 rest
      (after.1, r.2 ++ after.2)

def Plan.run (p : Plan L) (clock : ℕ → Clock) (i : ℕ) (e : Engine L) : Engine L × Reply :=
  let r := runCalls clock i e p.calls
  (r.1, p.render r.2)

def runQueued (clock : ℕ → Clock) :
    ℕ → Engine L → List (Queued lib) → Engine L × List Reply
  | _, e, [] => (e, [])
  | i, e, q :: rest =>
      let p : Plan L := q.plan
      let r := p.run clock i e
      let after := runQueued clock (i + p.calls.length) r.1 rest
      (after.1, r.2 :: after.2)

/-! ## Authentication and transactions -/

def cmdAuth (cfg : Config) (c : Conn lib) (cmd : Command) : Conn lib × Reply :=
  match cmd.args with
  | [password] =>
      if cfg.password = [] then (c, rErr "ERR Client sent AUTH, but no password is set")
      else if password ≠ cfg.password then (c, rErr "WRONGPASS invalid username-password pair")
      else ({ c with authed := true }, rOK)
  | _ => (c, rErr "ERR wrong number of arguments for 'auth'")

def beginMulti (c : Conn lib) : Conn lib × Reply :=
  if c.inMulti then (c, rErr "ERR MULTI calls can not be nested")
  else
    ({ c with
      tx := some { c.theTx with inMulti := true }
      inMulti := true
      begun := by simp
      inStep := by simp }, rOK)

/-- `Queue` refuses outside of `MULTI`, which nobody looks at. -/
def queue (c : Conn lib) (q : Queued lib) : Conn lib :=
  match htx : c.tx with
  | none => c
  | some t =>
      { c with
        tx := some { t with queued := if t.inMulti then t.queued ++ [q] else t.queued }
        begun := by simp
        inStep := by
          intro other hother
          rw [← Option.some.inj hother]
          exact c.inStep t htx }

def execTx (env : Env L) (c : Conn lib) (s : Server L) : Conn lib × Server L × Reply :=
  if c.inMulti then
    let t := c.theTx
    if ¬ t.inMulti then (c.dropTx, s, rErr "ERR txn: EXEC/queue without MULTI")
    else if s.txn.Unchanged (t.view : Txn.Tx L) then
      let r := runQueued env.clock 0 s.engine t.queued
      (c.dropTx, { s with engine := r.1, txn := s.txn.release (t.view : Txn.Tx L) },
        rArray r.2)
    else (c.dropTx, { s with txn := s.txn.release (t.view : Txn.Tx L) }, rNilArray)
  else (c, s, rErr "ERR EXEC without MULTI")

def discard (c : Conn lib) (s : Server L) : Conn lib × Server L × Reply :=
  match c.tx with
  | none => (c, s, rErr "ERR DISCARD without MULTI")
  | some t => (c.dropTx, { s with txn := s.txn.release (t.view : Txn.Tx L) }, rOK)

/-- The barrier, and then the versions of the keys. -/
def Tx.watch (env : Env L) (t : Tx lib) (s : Server L) (keys : List Key) :
    Tx lib × Server L :=
  if t.inMulti then (t, s)
  else
    let synced := env.waiting { s with engine := s.engine.sync }
    let r := synced.txn.watch (t.view : Txn.Tx L) keys
    ({ t with watched := r.2.watched }, { synced with txn := r.1 })

theorem Tx.watch_inMulti (env : Env L) (t : Tx lib) (s : Server L) (keys : List Key) :
    (t.watch env s keys).1.inMulti = t.inMulti := by
  unfold Tx.watch
  split_ifs <;> rfl

def watch (env : Env L) (c : Conn lib) (s : Server L) (cmd : Command) :
    Conn lib × Server L × Reply :=
  if c.inMulti then (c, s, rErr "ERR WATCH inside MULTI is not allowed")
  else
    match cmd.args with
    | [] => (c, s, rErr "ERR wrong number of arguments for 'watch'")
    | keys =>
        ({ c with
          tx := some (c.theTx.watch env s keys).1
          begun := by simp
          inStep := by
            intro t ht
            rw [← Option.some.inj ht, Tx.watch_inMulti, Conn.theTx_inMulti] },
          (c.theTx.watch env s keys).2, rOK)

def unwatch (c : Conn lib) (s : Server L) : Conn lib × Server L × Reply :=
  match c.tx with
  | none => (c, s, rOK)
  | some t =>
      if c.inMulti then (c, s, rOK)
      else
        (c.dropTx, { s with txn := s.txn.release (t.view : Txn.Tx L) }, rOK)

/-! ## Publish and subscribe -/

def cmdPublish (s : Server L) (cmd : Command) : Server L × Reply :=
  match cmd.args with
  | [topic, payload] =>
      let targets := (s.broker.subscribers topic).sort (· ≤ ·)
      ({ s with
        broker := s.broker.offerAll ⟨topic, payload⟩ targets
        metrics := { s.metrics with pubSubMessages := s.metrics.pubSubMessages + 1 }
        resting := s.resting.offerAll _ _ }, rInt targets.length)
  | _ => (s, rErr "ERR wrong number of arguments for 'publish'")

def confirm (kind : String) (topic : Bytes) (count : ℕ) : Reply :=
  rArray [rBulkStr (text kind), if topic = [] then rNil else rBulkStr topic, rInt count]

def doSubscribe : Conn lib → Server L → List Bytes → Conn lib × Server L × List Reply
  | c, s, [] => (c, s, [])
  | c, s, topic :: rest =>
      if topic ∈ c.subs then
        let r := doSubscribe c s rest
        (r.1, r.2.1, confirm "subscribe" topic c.subs.keys.length :: r.2.2)
      else
        let c' := { c with subs := c.subs.insert topic s.broker.subs.length }
        let s' := { s with
          broker := s.broker.subscribe topic 256
          resting := s.resting.subscribe topic 256 }
        let r := doSubscribe c' s' rest
        (r.1, r.2.1, confirm "subscribe" topic c'.subs.keys.length :: r.2.2)

def closeTopic (c : Conn lib) (s : Server L) (topic : Bytes) : Conn lib × Server L :=
  match c.subs.lookup topic with
  | none => (c, s)
  | some id =>
      ({ c with subs := c.subs.erase topic },
        { s with broker := s.broker.closeSub id, resting := s.resting.closeSub id })

def doUnsubscribe : Conn lib → Server L → List Bytes → Conn lib × Server L × List Reply
  | c, s, [] => (c, s, [])
  | c, s, topic :: rest =>
      let closed := closeTopic c s topic
      let r := doUnsubscribe closed.1 closed.2 rest
      (r.1, r.2.1, confirm "unsubscribe" topic closed.1.subs.keys.length :: r.2.2)

def closeSubs (c : Conn lib) (s : Server L) : Conn lib × Server L :=
  c.subs.keys.foldl (fun r topic => closeTopic r.1 r.2 topic) (c, s)

theorem closeSubs_of_empty {c : Conn lib} (hsubs : c.subs = ∅) (s : Server L) :
    closeSubs c s = (c, s) := by
  rw [closeSubs, hsubs]
  rfl

/-! ## Locks -/

def cmdLock (env : Env L) (c : Conn lib) (s : Server L) (cmd : Command) : Server L × Reply :=
  match cmd.args with
  | key :: ttl :: rest =>
      match parseInt ttl with
      | none => (s, rErr "ERR invalid ttl")
      | some secs =>
          if secs ≤ 0 then (s, rErr "ERR invalid ttl")
          else
            let r := s.locks.acquire env.now key (rest.headD c.remoteAddr)
              (int64 (secs * second)) env.token
            ({ s with locks := r.1 }, r.2.elim rNil rBulkStr)
  | _ => (s, rErr "ERR usage: LOCK key ttlSeconds [owner]")

def cmdUnlock (s : Server L) (cmd : Command) : Server L × Reply :=
  match cmd.args with
  | [key, token] =>
      let r := s.locks.release key token
      ({ s with locks := r.1 }, if r.2 then rInt 1 else rInt 0)
  | _ => (s, rErr "ERR usage: UNLOCK key token")

def cmdRenewLock (env : Env L) (s : Server L) (cmd : Command) : Server L × Reply :=
  match cmd.args with
  | [key, token, ttl] =>
      match parseInt ttl with
      | none => (s, rErr "ERR invalid ttl")
      | some secs =>
          if secs ≤ 0 then (s, rErr "ERR invalid ttl")
          else
            let r := s.locks.renew env.now key token (int64 (secs * second))
            ({ s with locks := r.1 }, if r.2 then rInt 1 else rInt 0)
  | _ => (s, rErr "ERR usage: RENEWLOCK key token ttlSeconds")

/-! ## Information -/

def line (parts : List Bytes) : Bytes := parts.flatten ++ crlf

def replicationInfo (s : Server L) : Bytes :=
  match s.replica, s.primary with
  | some r, _ =>
      line [text "role:replica"] ++ line [text "master_addr:", r.primaryAddr] ++
        line [text "master_link_status:", if r.synced then text "up" else text "down"] ++
        line [text "slave_repl_offset:", formatNat r.lastApplied]
  | none, some reps =>
      line [text "role:master"] ++ line [text "connected_slaves:", formatNat reps.length] ++
        reps.zipIdx.flatMap fun rp => line [text "slave", formatNat rp.2, text ":addr=",
          rp.1.addr, text ",sent_seq=", formatNat rp.1.lastSentSeq, text ",ack_seq=",
          formatNat rp.1.lastAckSeq]
  | none, none => line [text "role:master"] ++ line [text "connected_slaves:0"]

def memoryBytes (c : Cache L) : ℤ :=
  ((List.finRange L.shards).map fun i => (c.shards i).mem).sum

def cmdInfo (lib : Lib) (cfg : Config) (s : Server L) : Reply :=
  let st := s.engine.cache.counters
  rBulkStr (line [text "# Server"] ++ line [text "distcache_version:", text "1.0.0"] ++
    line [text "node_id:", cfg.nodeID] ++ line [text "go_version:", lib.goVersion] ++
    line [text "# Stats"] ++ line [text "keyspace_hits:", formatNat st.hits] ++
    line [text "keyspace_misses:", formatNat st.misses] ++
    line [text "hit_ratio:", lib.hitRatio st.hits st.misses] ++
    line [text "evictions:", formatNat st.evictions] ++
    line [text "expirations:", formatNat st.expirations] ++
    line [text "keys:", formatNat s.engine.cache.len] ++
    line [text "memory_bytes:", formatInt (memoryBytes s.engine.cache)] ++
    line [text "# Replication"] ++ replicationInfo s)

def clusterNodes (env : Env L) (r : Cluster.Registry) : List Cluster.Node :=
  (r.nodes.keys.map fun id => r.nodeView (env.nodeClock id) id).mergeSort
    fun first second => !decide (second.id < first.id)

def nodeLine (n : Cluster.Node) : Bytes :=
  line [n.id, text " ", n.addr, text " ",
    if n.self then text "myself,master" else text "master", text " ",
    if n.alive then text "connected" else text "disconnected"]

def clusterSub (lib : Lib) (cmd : Command) : Bytes :=
  match cmd.args with
  | [] => text "INFO"
  | sub :: _ => lib.toUpper sub

def cmdCluster (lib : Lib) (cfg : Config) (env : Env L) (c : Conn lib) (s : Server L)
    (cmd : Command) : Reply :=
  let sub := clusterSub lib cmd
  if sub = text "MYID" then rBulkStr cfg.nodeID
  else if sub = text "INFO" then
    match s.registry with
    | none => rBulkStr (line [text "cluster_enabled:0"] ++ line [text "cluster_known_nodes:1"])
    | some r => rBulkStr (line [text "cluster_enabled:1"] ++
        line [text "cluster_known_nodes:", formatNat r.size])
  else if sub = text "NODES" then
    match s.registry with
    | none => rBulkStr (line [cfg.nodeID, text " ", c.localAddr, text " myself"])
    | some r => rBulkStr ((clusterNodes env r).flatMap nodeLine)
  else rErrQuoting "ERR unknown CLUSTER subcommand '" sub "'"

/-! ## Dispatch -/

inductive Verb where
  | quit
  | auth
  | multi
  | exec
  | discard
  | watch
  | unwatch
  | subscribe
  | unsubscribe
  | publish
  | lock
  | unlock
  | renewLock
  | info
  | cluster
  | command
  deriving DecidableEq, Repr

namespace Verb

def name : Verb → Bytes
  | .quit => text "QUIT"
  | .auth => text "AUTH"
  | .multi => text "MULTI"
  | .exec => text "EXEC"
  | .discard => text "DISCARD"
  | .watch => text "WATCH"
  | .unwatch => text "UNWATCH"
  | .subscribe => text "SUBSCRIBE"
  | .unsubscribe => text "UNSUBSCRIBE"
  | .publish => text "PUBLISH"
  | .lock => text "LOCK"
  | .unlock => text "UNLOCK"
  | .renewLock => text "RENEWLOCK"
  | .info => text "INFO"
  | .cluster => text "CLUSTER"
  | .command => text "COMMAND"

def all : List Verb :=
  [.quit, .auth, .multi, .exec, .discard, .watch, .unwatch, .subscribe, .unsubscribe,
    .publish, .lock, .unlock, .renewLock, .info, .cluster, .command]

end Verb

def verbs (cmd : Bytes) : Option Verb := Verb.all.find? fun v => v.name = cmd

def beforeAuth : List Bytes := [text "AUTH", text "QUIT", text "PING"]

def notQueued : List Bytes :=
  [text "EXEC", text "DISCARD", text "MULTI", text "WATCH", text "RESET", text "QUIT"]

structure Turn (lib : Lib) (L : Layout) where
  conn : Conn lib
  server : Server L
  written : List Reply

def Conn.close (c : Conn lib) : Conn lib := { c with closed := true }

def quit (c : Conn lib) (s : Server L) : Turn lib L :=
  let r := closeSubs c s
  ⟨r.1.close, r.2, [rOK]⟩

def Verb.run (lib : Lib) (cfg : Config) (env : Env L) (c : Conn lib) (s : Server L)
    (cmd : Command) : Verb → Turn lib L
  | .quit => CacheServer.quit c s
  | .auth => ⟨(cmdAuth cfg c cmd).1, s, [(cmdAuth cfg c cmd).2]⟩
  | .multi => ⟨(beginMulti c).1, s, [(beginMulti c).2]⟩
  | .exec => ⟨(execTx env c s).1, (execTx env c s).2.1, [(execTx env c s).2.2]⟩
  | .discard =>
      ⟨(CacheServer.discard c s).1, (CacheServer.discard c s).2.1,
        [(CacheServer.discard c s).2.2]⟩
  | .watch =>
      ⟨(CacheServer.watch env c s cmd).1, (CacheServer.watch env c s cmd).2.1,
        [(CacheServer.watch env c s cmd).2.2]⟩
  | .unwatch =>
      ⟨(CacheServer.unwatch c s).1, (CacheServer.unwatch c s).2.1,
        [(CacheServer.unwatch c s).2.2]⟩
  | .subscribe =>
      match cmd.args with
      | [] => ⟨c, s, [rErr "ERR wrong number of arguments for 'subscribe'"]⟩
      | topics =>
          ⟨(doSubscribe c s topics).1, (doSubscribe c s topics).2.1,
            (doSubscribe c s topics).2.2⟩
  | .unsubscribe =>
      match if cmd.args = [] then c.subs.keys else cmd.args with
      | [] => ⟨c, s, [confirm "unsubscribe" [] 0]⟩
      | topics =>
          ⟨(doUnsubscribe c s topics).1, (doUnsubscribe c s topics).2.1,
            (doUnsubscribe c s topics).2.2⟩
  | .publish => ⟨c, (cmdPublish s cmd).1, [(cmdPublish s cmd).2]⟩
  | .lock => ⟨c, (cmdLock env c s cmd).1, [(cmdLock env c s cmd).2]⟩
  | .unlock => ⟨c, (cmdUnlock s cmd).1, [(cmdUnlock s cmd).2]⟩
  | .renewLock => ⟨c, (cmdRenewLock env s cmd).1, [(cmdRenewLock env s cmd).2]⟩
  | .info => ⟨c, s, [cmdInfo lib cfg s]⟩
  | .cluster => ⟨c, s, [cmdCluster lib cfg env c s cmd]⟩
  | .command => ⟨c, s, [rArray []]⟩

def execute (lib : Lib) (cfg : Config) (env : Env L) (c : Conn lib) (s : Server L)
    (cmd : Command) : Turn lib L :=
  match verbs (lib.toUpper cmd.name) with
  | some v => v.run lib cfg env c s cmd
  | none =>
      match handlers (lib.toUpper cmd.name) with
      | some h =>
          let r := (h.plan lib cmd).run env.clock 0 s.engine
          ⟨c, { s with engine := r.1 }, [r.2]⟩
      | none =>
          ⟨c, s, [rErrQuoting "ERR unknown command '" (lib.toUpper cmd.name) "'"]⟩

theorem execute_of_handler {cfg : Config} {env : Env L} {c : Conn lib} {s : Server L}
    {cmd : Command} {h : Handler} {word : String} (hname : lib.toUpper cmd.name = text word)
    (hverb : verbs (text word) = none) (hhandler : handlers (text word) = some h) :
    execute lib cfg env c s cmd =
      ⟨c, { s with engine := ((h.plan lib cmd).run env.clock 0 s.engine).1 },
        [((h.plan lib cmd).run env.clock 0 s.engine).2]⟩ := by
  rw [execute, hname, hverb, hhandler]

def enqueue (lib : Lib) (c : Conn lib) (s : Server L) (cmd : Command) : Turn lib L :=
  match hfound : handlers (lib.toUpper cmd.name) with
  | some h => ⟨queue c ⟨cmd, h, hfound⟩, s, [rSimple "QUEUED"]⟩
  | none =>
      ⟨c, s, [rErrQuoting "ERR command '" (lib.toUpper cmd.name) "' not allowed in MULTI"]⟩

theorem enqueue_of_handler {cmd : Command} {h : Handler}
    (hfound : handlers (lib.toUpper cmd.name) = some h) (c : Conn lib) (s : Server L) :
    enqueue lib c s cmd = ⟨queue c ⟨cmd, h, hfound⟩, s, [rSimple "QUEUED"]⟩ := by
  unfold enqueue
  split
  · rename_i other hother
    obtain rfl : h = other := Option.some.inj (hfound.symm.trans hother)
    rfl
  · rename_i hnone
    rw [hfound] at hnone
    contradiction

theorem enqueue_of_none {cmd : Command} (hnone : handlers (lib.toUpper cmd.name) = none)
    (c : Conn lib) (s : Server L) :
    enqueue lib c s cmd =
      ⟨c, s, [rErrQuoting "ERR command '" (lib.toUpper cmd.name) "' not allowed in MULTI"]⟩ := by
  unfold enqueue
  split
  · rename_i hfound
    rw [hnone] at hfound
    contradiction
  · rfl

def dispatch (lib : Lib) (cfg : Config) (env : Env L) (c : Conn lib) (s : Server L)
    (cmd : Command) : Turn lib L :=
  if cfg.password ≠ [] ∧ ¬ c.authed ∧ lib.toUpper cmd.name ∉ beforeAuth then
    ⟨c, s, [rErr "NOAUTH Authentication required."]⟩
  else if c.inMulti ∧ lib.toUpper cmd.name ∉ notQueued then enqueue lib c s cmd
  else execute lib cfg env c s cmd

/-! ## The loop of the connection -/

structure State (lib : Lib) (L : Layout) where
  conn : Conn lib
  server : Server L

/-- What happens next: the client sends a command, a forwarder writes a message of
its topic, or something else happens to the server. -/
inductive Input (L : Layout) where
  | command (cmd : Command) (env : Env L)
  | forward (topic : Bytes)
  | background (f : Server L → Server L)

def Server.incCommands (s : Server L) : Server L :=
  { s with metrics := { s.metrics with commandsTotal := s.metrics.commandsTotal + 1 } }

/-- Nobody reads what is sent after the connection is closed. -/
def serve (lib : Lib) (cfg : Config) (st : State lib L) (cmd : Command) (env : Env L) :
    Turn lib L :=
  if st.conn.closed then ⟨st.conn, st.server, []⟩
  else dispatch lib cfg env st.conn st.server.incCommands cmd

/-- The next message of the forwarder, and the broker after it. -/
def message (st : State lib L) (topic : Bytes) : Option (PubSub.Message × State lib L) :=
  match st.conn.subs.lookup topic with
  | none => none
  | some id =>
      match (st.server.broker.subs[id]?).bind fun sub => sub.ch.head? with
      | none => none
      | some msg =>
          match hreceive : st.server.broker.receive id with
          | none => none
          | some b => some (msg, { st with server := { st.server with
              broker := b
              resting := st.server.resting.receive hreceive } })

def step (lib : Lib) (cfg : Config) (st : State lib L) : Input L → Option (State lib L)
  | .command cmd env =>
      let t := serve lib cfg st cmd env
      some ⟨t.conn, t.server⟩
  | .forward topic => (message st topic).map Prod.snd
  | .background f => some { st with server := f st.server }

def push (msg : PubSub.Message) : Reply :=
  rArray [rBulkStr (text "message"), rBulkStr msg.topic, rBulkStr msg.payload]

def written (lib : Lib) (cfg : Config) (st : State lib L) : Input L → List Reply
  | .command cmd env => (serve lib cfg st cmd env).written
  | .forward topic => ((message st topic).map fun r => push r.1).toList
  | .background _ => []

end CacheServer
end DistCache
