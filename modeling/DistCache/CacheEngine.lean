import DistCache.ShardEvents

/-!
# The sharded cache

A key belongs to the shard that its hash selects; the hash is seeded per
process, so that it is a parameter here.  The operations of the cache are
sequences of steps, and one step works on one shard under its lock.  `MSet`,
`MGet` and `FlushAll` take the shards' locks one after the other, which is why
a step and not an operation is the unit of interleaving.  A step reads the
clock at most twice, and only `Expire` reads it a second time.
-/

namespace DistCache

open DeadlineStore Eviction

/-! ## Configuration -/

structure Config where
  shards : ℤ
  maxEntries : ℤ
  maxMemory : ℤ
  policy : Kind
  deriving DecidableEq, Repr

def nextPow2Loop (n : ℕ) : ℕ → ℕ → ℕ
  | 0, p => p
  | fuel + 1, p => if p < n then nextPow2Loop n fuel (2 * p) else p

def nextPow2 (n : ℤ) : ℕ :=
  if n < 1 then 1 else nextPow2Loop n.toNat n.toNat 1

def Config.withDefaults (cfg : Config) : ℕ :=
  nextPow2 (if cfg.shards ≤ 0 then 256 else cfg.shards)

/-- A limit of the whole cache, shared out among its shards. -/
def perShard (limit : ℤ) (shards : ℕ) : ℤ :=
  if 0 < limit then max (limit / shards) 1 else 0

theorem nextPow2Loop_pos {n fuel p : ℕ} (hp : 0 < p) :
    0 < nextPow2Loop n fuel p := by
  induction fuel generalizing p with
  | zero => exact hp
  | succ fuel ih =>
      unfold nextPow2Loop
      split_ifs
      · exact ih (by omega)
      · exact hp

theorem nextPow2_pos (n : ℤ) : 0 < nextPow2 n := by
  unfold nextPow2
  split_ifs
  · exact Nat.one_pos
  · exact nextPow2Loop_pos Nat.one_pos

structure Layout where
  shards : ℕ
  pos : 0 < shards
  hash : Key → ℕ

def Layout.index (L : Layout) (key : Key) : Fin L.shards :=
  ⟨L.hash key &&& (L.shards - 1), by
    have hle : L.hash key &&& (L.shards - 1) ≤ L.shards - 1 := Nat.and_le_right
    have hpos := L.pos
    omega⟩

def Config.layout (cfg : Config) (hash : Key → ℕ) : Layout :=
  ⟨cfg.withDefaults, nextPow2_pos _, hash⟩

/-! ## Steps and operations -/

structure Counters where
  hits : ℕ := 0
  misses : ℕ := 0
  sets : ℕ := 0
  dels : ℕ := 0
  evictions : ℕ := 0
  expirations : ℕ := 0
  deriving DecidableEq, Repr

def Counters.add (first second : Counters) : Counters where
  hits := first.hits + second.hits
  misses := first.misses + second.misses
  sets := first.sets + second.sets
  dels := first.dels + second.dels
  evictions := first.evictions + second.evictions
  expirations := first.expirations + second.expirations

inductive Reply where
  | done
  | value (found : Option Bytes)
  | bool (ok : Bool)
  | remaining (ttl : ℤ) (found persists : Bool)
  | number (result : Except CacheError ℤ)
  | keys (found : List Key)
  | count (n : ℕ)
  deriving DecidableEq

structure Clock where
  first : ℤ
  second : ℤ
  deriving DecidableEq, Repr

inductive KeyOp (L : Layout) where
  | setTTL (key : Key) (value : Bytes) (ttl : ℤ)
  | get (key : Key)
  | delete (key : Key)
  | exists_ (key : Key)
  | expire (key : Key) (ttl : ℤ)
  | ttl (key : Key)
  | incrBy (key : Key) (delta : ℤ)
  | sweepExpired (shard : Fin L.shards) (sample : ℕ) (order : List Key)
  | keys (shard : Fin L.shards)
  | len (shard : Fin L.shards)
  | flush (shard : Fin L.shards)
  deriving DecidableEq

structure Step (L : Layout) where
  clock : Clock
  op : KeyOp L
  deriving DecidableEq

variable {L : Layout}

def KeyOp.shard : KeyOp L → Fin L.shards
  | .setTTL key _ _ => L.index key
  | .get key => L.index key
  | .delete key => L.index key
  | .exists_ key => L.index key
  | .expire key _ => L.index key
  | .ttl key => L.index key
  | .incrBy key _ => L.index key
  | .sweepExpired shard _ _ => shard
  | .keys shard => shard
  | .len shard => shard
  | .flush shard => shard

def deadline (now ttl : ℤ) : ℤ := if 0 < ttl then int64 (now + ttl) else 0

/-- An expiry is counted when the shard names the key, and the empty key is no
name. -/
def expiredCount (expiredKey : Key) : ℕ := if expiredKey = [] then 0 else 1

def KeyOp.run (clock : Clock) (op : KeyOp L) (s : Shard) :
    Outcome (Reply × Counters) :=
  match op with
  | .setTTL key value lifetime =>
      let o := s.set key value (deadline clock.first lifetime)
      ⟨o.shard, o.events,
        .done, { sets := 1, evictions := o.result.length }⟩
  | .get key =>
      let o := s.get key clock.first
      let (val, found, expiredKey) := o.result
      ⟨o.shard, o.events, .value (if found then some val else none),
        { hits := if found then 1 else 0
          misses := if found then 0 else 1
          expirations := expiredCount expiredKey }⟩
  | .delete key =>
      let o := s.del key
      ⟨o.shard, o.events, .bool o.result, { dels := if o.result then 1 else 0 }⟩
  | .exists_ key =>
      let o := s.exists_ key clock.first
      ⟨o.shard, o.events, .bool o.result.1,
        { expirations := expiredCount o.result.2 }⟩
  | .expire key lifetime =>
      let o := s.expire key (deadline clock.first lifetime) clock.second
      ⟨o.shard, o.events, .bool o.result.1,
        { expirations := expiredCount o.result.2 }⟩
  | .ttl key =>
      let o := s.ttl key clock.first
      let (expireAt, ok, expiredKey) := o.result
      ⟨o.shard, o.events,
        if ok then
          if expireAt = 0 then .remaining 0 true true
          else .remaining (int64 (expireAt - clock.first)) true false
        else .remaining 0 false false,
        { expirations := expiredCount expiredKey }⟩
  | .incrBy key delta =>
      let o := s.incrBy key delta clock.first
      match o.result with
      | .error err => ⟨o.shard, o.events, .number (.error err), {}⟩
      | .ok (newVal, evicted) =>
          ⟨o.shard, o.events, .number (.ok newVal),
            { sets := 1, evictions := evicted.length }⟩
  | .sweepExpired _ sample order =>
      let o := s.sweepExpired clock.first sample order
      ⟨o.shard, o.events, .done, { expirations := o.result.length }⟩
  | .keys _ => ⟨s, [], .keys (s.keys clock.first), {}⟩
  | .len _ => ⟨s, [], .count s.len, {}⟩
  | .flush _ =>
      let o := s.flush
      ⟨o.shard, o.events, .done, {}⟩

structure Cache (L : Layout) where
  shards : Fin L.shards → Shard
  counters : Counters

def Cache.new (cfg : Config) (hash : Key → ℕ) (rng : ℕ → ℕ → ℕ) :
    Cache (cfg.layout hash) where
  shards := fun i =>
    Shard.new (Eviction.new (rng i) cfg.policy)
      (perShard cfg.maxEntries cfg.withDefaults)
      (perShard cfg.maxMemory cfg.withDefaults)
  counters := {}

namespace Cache

def exec (c : Cache L) (step : Step L) : Cache L × List Event × Reply :=
  let o := step.op.run step.clock (c.shards step.op.shard)
  ({ shards := Function.update c.shards step.op.shard o.shard
     counters := c.counters.add o.result.2 },
    o.events, o.result.1)

theorem shards_exec (c : Cache L) (step : Step L) (i : Fin L.shards) :
    (c.exec step).1.shards i =
      if i = step.op.shard then (step.op.run step.clock (c.shards i)).shard else c.shards i := by
  by_cases hi : i = step.op.shard
  · subst hi
    simp [exec]
  · simp [exec, hi]

def execAll : Cache L → List (Step L) → Cache L × List Event
  | c, [] => (c, [])
  | c, step :: rest =>
      let r := execAll (c.exec step).1 rest
      (r.1, (c.exec step).2.1 ++ r.2)

def contents (c : Cache L) : Contents :=
  fun key => (c.shards (L.index key)).view key

def len (c : Cache L) : ℕ := ((List.finRange L.shards).map fun i => (c.shards i).len).sum

def modifyShard (c : Cache L) (i : Fin L.shards) (f : Shard → Shard) : Cache L :=
  { c with shards := Function.update c.shards i (f (c.shards i)) }

def applyEvent (c : Cache L) (ev : Event) : Cache L :=
  match ev.op with
  | .opSet =>
      c.modifyShard (L.index ev.key) fun s => s.applySet ev.key ev.value ev.expireAt
  | .opDel => c.modifyShard (L.index ev.key) fun s => s.applyDel ev.key
  | .opExpire =>
      c.modifyShard (L.index ev.key) fun s => s.applyExpire ev.key ev.expireAt
  | .opFlush => { c with shards := fun i => (c.shards i).flushSilent }
  | .other _ => c

def applyEvents (c : Cache L) (events : List Event) : Cache L :=
  events.foldl applyEvent c

end Cache

structure KV where
  key : Key
  value : Bytes
  ttl : ℤ

inductive Operation (L : Layout) where
  | set (key : Key) (value : Bytes)
  | setTTL (clock : Clock) (key : Key) (value : Bytes) (ttl : ℤ)
  | mset (pairs : List (Clock × KV))
  | get (clock : Clock) (key : Key)
  | mget (keys : List (Clock × Key))
  | delete (key : Key)
  | exists_ (clock : Clock) (key : Key)
  | expire (clock : Clock) (key : Key) (ttl : ℤ)
  | ttl (clock : Clock) (key : Key)
  | incrBy (clock : Clock) (key : Key) (delta : ℤ)
  | flushAll
  | sweepExpired (clock : Clock) (shard : Fin L.shards) (sample : ℕ)
      (order : List Key)

/-- An operation that does not read the clock runs with any readings. -/
def unread : Clock := ⟨0, 0⟩

def flushSteps (L : Layout) : List (Step L) :=
  (List.finRange L.shards).map fun i => ⟨unread, .flush i⟩

def Operation.steps : Operation L → List (Step L)
  | .set key value => [⟨unread, .setTTL key value 0⟩]
  | .setTTL clock key value lifetime => [⟨clock, .setTTL key value lifetime⟩]
  | .mset pairs =>
      pairs.map fun pair => ⟨pair.1, .setTTL pair.2.key pair.2.value pair.2.ttl⟩
  | .get clock key => [⟨clock, .get key⟩]
  | .mget keys => keys.map fun entry => ⟨entry.1, .get entry.2⟩
  | .delete key => [⟨unread, .delete key⟩]
  | .exists_ clock key => [⟨clock, .exists_ key⟩]
  | .expire clock key lifetime => [⟨clock, .expire key lifetime⟩]
  | .ttl clock key => [⟨clock, .ttl key⟩]
  | .incrBy clock key delta => [⟨clock, .incrBy key delta⟩]
  | .flushAll => flushSteps L
  | .sweepExpired clock shard sample order =>
      [⟨clock, .sweepExpired shard sample order⟩]

def Cache.perform (c : Cache L) (ops : List (Operation L)) :
    Cache L × List Event :=
  c.execAll (ops.flatMap Operation.steps)

end DistCache
