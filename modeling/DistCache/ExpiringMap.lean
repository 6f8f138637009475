import DistCache.CacheEvents
import DistCache.ShardAccounts
import DistCache.TimedRuns

/-!
# The cache is an instantly expiring map

A key stays in its shard after its deadline until an operation stumbles over it or a
sweep finds it.  Nobody can tell: the results of the operations are those of a map in
which an entry is gone from its deadline on, wherever sweeps happen.  The two are
compared through what is live at the current time.

The result of `Delete` is left out: it may count an entry that has expired.
-/

namespace DistCache

open DeadlineStore Eviction TimedRuns

variable {L : Layout}

/-! ## The operations -/

inductive Call (L : Layout) where
  | set (key : Key) (value : Bytes)
  | setTTL (key : Key) (value : Bytes) (ttl : ℤ)
  | mset (pairs : List KV)
  | get (key : Key)
  | mget (keys : List Key)
  | delete (key : Key)
  | exists_ (key : Key)
  | expire (key : Key) (ttl : ℤ)
  | ttl (key : Key)
  | incrBy (key : Key) (delta : ℤ)
  | keys
  | export_
  | flushAll
  | sweepExpired (shard : Fin L.shards) (sample : ℕ) (order : List Key)

structure TimedCall (L : Layout) where
  now : ℤ
  call : Call L

def TimedCall.clock (t : TimedCall L) : Clock := ⟨t.now, t.now⟩

/-- The call with one reading of the clock; the listings are no operations. -/
def Call.operation (clock : Clock) : Call L → Option (Operation L)
  | .set key value => some (.set key value)
  | .setTTL key value lifetime => some (.setTTL clock key value lifetime)
  | .mset pairs => some (.mset (pairs.map fun pair => (clock, pair)))
  | .get key => some (.get clock key)
  | .mget wanted => some (.mget (wanted.map fun key => (clock, key)))
  | .delete key => some (.delete key)
  | .exists_ key => some (.exists_ clock key)
  | .expire key lifetime => some (.expire clock key lifetime)
  | .ttl key => some (.ttl clock key)
  | .incrBy key delta => some (.incrBy clock key delta)
  | .keys => none
  | .export_ => none
  | .flushAll => some .flushAll
  | .sweepExpired shard sample order => some (.sweepExpired clock shard sample order)

inductive CallResult where
  | replies (found : List Reply)
  | keys (found : List Key)
  | entries (found : List (Key × Item))

namespace Cache

def keys (c : Cache L) (now : ℤ) : List Key :=
  (List.finRange L.shards).flatMap fun i => (c.shards i).keys now

def exportEntries (c : Cache L) (now : ℤ) : List (Key × Item) :=
  (List.finRange L.shards).flatMap fun i => (c.shards i).exportEntries now

def execReplies : Cache L → List (Step L) → Cache L × List Reply
  | c, [] => (c, [])
  | c, step :: rest =>
      let r := execReplies (c.exec step).1 rest
      (r.1, (c.exec step).2.2 :: r.2)

def call (c : Cache L) (t : TimedCall L) : Cache L × CallResult :=
  match t.call with
  | .keys => (c, .keys (c.keys t.now))
  | .export_ => (c, .entries (c.exportEntries t.now))
  | other =>
      let r := execReplies c ((other.operation t.clock).elim [] Operation.steps)
      (r.1, .replies r.2)

end Cache

/-! ## The map -/

inductive Expected where
  | unobserved
  | replies (expected : List Reply)
  | keys (expected : Set Key)
  | entries (expected : Set (Key × Item))

namespace ExpiringMap

def purge (now : ℤ) (m : Contents) : Contents := fun key => live now (m key)

def put (m : Contents) (key : Key) (value : Bytes) (expireAt : ℤ) : Contents :=
  Function.update m key (some ⟨value, expireAt⟩)

def remaining (now : ℤ) : Option Item → Reply
  | none => .remaining 0 false false
  | some it =>
      if it.expireAt = 0 then .remaining 0 true true
      else .remaining (int64 (it.expireAt - now)) true false

def counter : Option Item → Option ℤ
  | none => some 0
  | some it => parseInt it.value

def perform (now : ℤ) (m : Contents) : Call L → Contents × Expected
  | .set key value => (put m key value 0, .unobserved)
  | .setTTL key value lifetime => (put m key value (deadline now lifetime), .unobserved)
  | .mset pairs =>
      (pairs.foldl (fun m pair => put m pair.key pair.value (deadline now pair.ttl)) m,
        .unobserved)
  | .get key => (m, .replies [.value ((m key).map Entry.value)])
  | .mget keys => (m, .replies (keys.map fun key => .value ((m key).map Entry.value)))
  | .delete key => (Function.update m key none, .unobserved)
  | .exists_ key => (m, .replies [.bool (m key).isSome])
  | .expire key lifetime =>
      match m key with
      | none => (m, .replies [.bool false])
      | some it => (put m key it.value (deadline now lifetime), .replies [.bool true])
  | .ttl key => (m, .replies [remaining now (m key)])
  | .incrBy key delta =>
      match counter (m key) with
      | none => (m, .replies [.number (.error .errNotInteger)])
      | some base =>
          (put m key (formatInt (int64 (base + delta))) 0,
            .replies [.number (.ok (int64 (base + delta)))])
  | .keys => (m, .keys {key | m key ≠ none})
  | .export_ => (m, .entries {entry | m entry.1 = some entry.2})
  | .flushAll => (fun _ => none, .unobserved)
  | .sweepExpired _ _ _ => (m, .unobserved)

def call (m : Contents) (t : TimedCall L) : Contents × Expected :=
  perform t.now (purge t.now m) t.call

end ExpiringMap

/-- Replies are equal, lists have no duplicates and are the expected sets. -/
def CallResult.Meets : CallResult → Expected → Prop
  | _, .unobserved => True
  | .replies found, .replies expected => found = expected
  | .keys found, .keys expected => found.Nodup ∧ ∀ key, key ∈ found ↔ key ∈ expected
  | .entries found, .entries expected =>
      (found.map Prod.fst).Nodup ∧ ∀ entry, entry ∈ found ↔ entry ∈ expected
  | _, _ => False

/-! ## What is live -/

theorem live_live {now later : ℤ} (hle : now ≤ later) (entry : Option Item) :
    live later (live now entry) = live later entry := by
  rcases live_eq_self_or_none now entry with hsame | hnone
  · rw [hsame]
  · rw [hnone, live_none_mono hnone hle, live_none]

theorem live_eq_some {now : ℤ} {entry : Option Item} {it : Item}
    (hlive : live now entry = some it) : entry = some it ∧ ¬ it.expired now := by
  rcases live_eq_self_or_none now entry with hsame | hnone
  · rw [hlive] at hsame
    subst hsame
    refine ⟨rfl, ?_⟩
    intro hexpired
    rw [live_of_expired hexpired] at hlive
    contradiction
  · rw [hlive] at hnone
    contradiction

/-- Nobody who looks at the time `now` can tell the two apart. -/
def SameLive (now : ℤ) (first second : Contents) : Prop :=
  ∀ key, live now (first key) = live now (second key)

theorem SameLive.later {now later : ℤ} {first second : Contents} (hle : now ≤ later)
    (hsame : SameLive now first second) : SameLive later first second := by
  intro key
  rw [← live_live hle (first key), hsame key, live_live hle]

theorem SameLive.purge {now : ℤ} {first second : Contents}
    (hsame : SameLive now first second) : SameLive now first (ExpiringMap.purge now second) := by
  intro key
  rw [hsame key, ExpiringMap.purge, live_live le_rfl]

theorem SameLive.update {now : ℤ} {first second : Contents} (hsame : SameLive now first second)
    (key : Key) (entry : Option Item) :
    SameLive now (Function.update first key entry) (Function.update second key entry) := by
  intro other
  by_cases hkey : other = key
  · rw [hkey, Function.update_self, Function.update_self]
  · rw [Function.update_of_ne hkey, Function.update_of_ne hkey]
    exact hsame other

theorem set_apply (key : Key) (it : Item) (store : Contents) :
    (Mutation.set key it).apply store = Function.update store key (some it) := by
  funext other
  by_cases hkey : key = other
  · subst other
    simp [Mutation.apply, Mutation.effect]
  · simp [Mutation.apply, Mutation.effect, hkey, Function.update_of_ne (Ne.symm hkey)]

theorem del_apply (key : Key) (store : Contents) :
    (Mutation.del key).apply store = Function.update store key none := by
  funext other
  by_cases hkey : key = other
  · subst other
    simp [Mutation.apply, Mutation.effect]
  · simp [Mutation.apply, Mutation.effect, hkey, Function.update_of_ne (Ne.symm hkey)]

def Trails (now : ℤ) (first second : Contents) : Prop :=
  ∀ key, first key = second key ∨ first key = none ∧ live now (second key) = none

theorem Trails.refl (now : ℤ) (store : Contents) : Trails now store store :=
  fun _ => Or.inl rfl

theorem Trails.sameLive {now : ℤ} {first second : Contents} (htrails : Trails now first second) :
    SameLive now first second := by
  intro key
  rcases htrails key with hsame | ⟨hnone, hdead⟩
  · rw [hsame]
  · rw [hnone, hdead, live_none]

theorem Trails.later {now later : ℤ} {first second : Contents} (hle : now ≤ later)
    (htrails : Trails now first second) : Trails later first second := by
  intro key
  rcases htrails key with hsame | ⟨hnone, hdead⟩
  · exact Or.inl hsame
  · exact Or.inr ⟨hnone, live_none_mono hdead hle⟩

theorem Trails.trans {now : ℤ} {first second third : Contents}
    (hfirst : Trails now first second) (hsecond : Trails now second third) :
    Trails now first third := by
  intro key
  rcases hfirst key with hsame | ⟨hnone, hdead⟩
  · rw [hsame]
    exact hsecond key
  · rw [hsecond.sameLive key] at hdead
    exact Or.inr ⟨hnone, hdead⟩

theorem Trails.update {now : ℤ} {first second : Contents} (htrails : Trails now first second)
    (key : Key) (entry : Option Item) :
    Trails now (Function.update first key entry) (Function.update second key entry) := by
  intro other
  by_cases hkey : other = key
  · rw [hkey, Function.update_self, Function.update_self]
    exact Or.inl rfl
  · rw [Function.update_of_ne hkey, Function.update_of_ne hkey]
    exact htrails other

theorem trails_del {now : ℤ} {key : Key} {store : Contents}
    (hdead : live now (store key) = none) :
    Trails now ((Mutation.del key).apply store) store := by
  intro other
  rw [del_apply]
  by_cases hkey : other = key
  · rw [hkey, Function.update_self]
    exact Or.inr ⟨rfl, hdead⟩
  · rw [Function.update_of_ne hkey]
    exact Or.inl rfl

theorem sameLive_del {now : ℤ} {key : Key} {store : Contents}
    (hdead : live now (store key) = none) :
    SameLive now ((Mutation.del key).apply store) store :=
  (trails_del hdead).sameLive

/-! ## The operations of a shard -/

namespace Shard

variable {s : Shard} {key : Key} {now : ℤ}

section LookupLive

variable {α : Type} {absent gone : α} {found : Item → Outcome α}

theorem lookupLive_of_live {it : Item} (hlive : live now (s.view key) = some it) :
    s.lookupLive key now absent gone found = found it := by
  obtain ⟨hview, hexpired⟩ := live_eq_some hlive
  rw [view] at hview
  simp only [lookupLive, hview, if_neg hexpired]

theorem lookupLive_cases {P : Outcome α → Prop}
    (hfound : ∀ it, live now (s.view key) = some it → P (found it))
    (hmissing : live now (s.view key) = none → ∀ o : Outcome α,
      SameLive now o.shard.view s.view → (o.result = absent ∨ o.result = gone) → P o) :
    P (s.lookupLive key now absent gone found) := by
  cases hlive : live now (s.view key) with
  | some it =>
      rw [lookupLive_of_live hlive]
      exact hfound it hlive
  | none =>
      apply hmissing hlive
      · unfold lookupLive
        cases hlookup : s.items.lookup key with
        | none => exact fun _ => rfl
        | some it =>
            simp only [if_pos (live_eq_none_iff.mp hlive it hlookup), view_removeLocked]
            exact sameLive_del hlive
      · unfold lookupLive
        cases hlookup : s.items.lookup key with
        | none => exact Or.inl rfl
        | some it =>
            dsimp only
            rw [if_pos (live_eq_none_iff.mp hlive it hlookup)]
            exact Or.inr rfl

end LookupLive

theorem get_spec (s : Shard) (key : Key) (now : ℤ) :
    SameLive now (s.get key now).shard.view s.view ∧
      (if (s.get key now).result.2.1 then some (s.get key now).result.1 else none) =
        (live now (s.view key)).map Entry.value := by
  apply lookupLive_cases (P := fun o : Outcome (Bytes × Bool × Key) =>
    SameLive now o.shard.view s.view ∧ (if o.result.2.1 then some o.result.1 else none) =
      (live now (s.view key)).map Entry.value)
  · intro it hlive
    rw [hlive]
    exact ⟨fun _ => rfl, rfl⟩
  · intro hdead o hsame hresult
    refine ⟨hsame, ?_⟩
    rcases hresult with hresult | hresult <;> rw [hresult, hdead] <;> rfl

theorem exists_spec (s : Shard) (key : Key) (now : ℤ) :
    SameLive now (s.exists_ key now).shard.view s.view ∧
      (s.exists_ key now).result.1 = (live now (s.view key)).isSome := by
  apply lookupLive_cases (P := fun o : Outcome (Bool × Key) =>
    SameLive now o.shard.view s.view ∧ o.result.1 = (live now (s.view key)).isSome)
  · intro it hlive
    rw [hlive]
    exact ⟨fun _ => rfl, rfl⟩
  · intro hdead o hsame hresult
    refine ⟨hsame, ?_⟩
    rcases hresult with hresult | hresult <;> rw [hresult, hdead] <;> rfl

theorem ttl_spec (s : Shard) (key : Key) (now : ℤ) :
    SameLive now (s.ttl key now).shard.view s.view ∧
      (s.ttl key now).result.2.1 = (live now (s.view key)).isSome ∧
      ∀ it, live now (s.view key) = some it → (s.ttl key now).result.1 = it.expireAt := by
  apply lookupLive_cases (P := fun o : Outcome (ℤ × Bool × Key) =>
    SameLive now o.shard.view s.view ∧ o.result.2.1 = (live now (s.view key)).isSome ∧
    ∀ it, live now (s.view key) = some it → o.result.1 = it.expireAt)
  · intro it hlive
    rw [hlive]
    refine ⟨fun _ => rfl, rfl, ?_⟩
    rintro other ⟨⟩
    rfl
  · intro hdead o hsame hresult
    rw [hdead]
    refine ⟨hsame, ?_, fun it hit => by contradiction⟩
    rcases hresult with hresult | hresult <;> rw [hresult] <;> rfl

theorem expire_spec (s : Shard) (key : Key) (expireAt now : ℤ) :
    match live now (s.view key) with
    | none => SameLive now (s.expire key expireAt now).shard.view s.view ∧
        (s.expire key expireAt now).result.1 = false
    | some it => (s.expire key expireAt now).shard.view =
          Function.update s.view key (some ⟨it.value, expireAt⟩) ∧
        (s.expire key expireAt now).result.1 = true := by
  apply lookupLive_cases (P := fun o : Outcome (Bool × Key) =>
    match live now (s.view key) with
    | none => SameLive now o.shard.view s.view ∧ o.result.1 = false
    | some it => o.shard.view = Function.update s.view key (some ⟨it.value, expireAt⟩) ∧
        o.result.1 = true)
  · intro it hlive
    rw [hlive]
    have hretime : (s.retime key it expireAt).view =
        (Mutation.set key (it.retime expireAt)).apply s.view :=
      s.view_insert key (it.retime expireAt)
    rw [set_apply] at hretime
    exact ⟨hretime, rfl⟩
  · intro hdead o hsame hresult
    rw [hdead]
    refine ⟨hsame, ?_⟩
    rcases hresult with hresult | hresult <;> rw [hresult]

theorem keys_eq_map (s : Shard) (now : ℤ) :
    s.keys now = (s.exportEntries now).map Prod.fst := by
  simp [keys, exportEntries, Function.comp_def]

theorem trails_sweepLoop (now : ℤ) (order : List Key) (s : Shard) :
    Trails now (sweepLoop now order s).1.view s.view := by
  induction order generalizing s with
  | nil => exact .refl now s.view
  | cons key rest ih =>
      simp only [sweepLoop]
      cases hlookup : s.items.lookup key with
      | none => exact ih s
      | some it =>
          by_cases hexpired : it.expired now
          · simp only [if_pos hexpired]
            have hdead : live now (s.view key) = none := by
              rw [view, hlookup]
              exact live_of_expired hexpired
            apply (ih _).trans
            rw [view_removeLocked]
            exact trails_del hdead
          · simp only [if_neg hexpired]
            exact ih s

theorem sameLive_sweepLoop (now : ℤ) (order : List Key) (s : Shard) :
    SameLive now (sweepLoop now order s).1.view s.view :=
  (trails_sweepLoop now order s).sameLive

theorem view_set_of_unlimited (hentries : s.maxEntries ≤ 0) (hmemory : s.maxMemory ≤ 0)
    (key : Key) (value : Bytes) (expireAt : ℤ) :
    (s.set key value expireAt).shard.view =
      Function.update s.view key (some ⟨value, expireAt⟩) := by
  have hset : (s.set key value expireAt).shard = s.applySet key value expireAt := rfl
  rw [hset, applySet_of_unlimited hentries hmemory, view_setLocked, set_apply]

theorem view_del (s : Shard) (key : Key) :
    (s.del key).shard.view = Function.update s.view key none := by
  rw [shard_del, view_applyDel, del_apply]

theorem incrBy_of_error (delta : ℤ)
    (hcounter : ExpiringMap.counter (live now (s.view key)) = none) :
    s.incrBy key delta now = ⟨s, [], .error .errNotInteger⟩ := by
  cases hlive : live now (s.view key) with
  | none => simp [hlive, ExpiringMap.counter] at hcounter
  | some it =>
      obtain ⟨hview, hexpired⟩ := live_eq_some hlive
      rw [hlive] at hcounter
      have hbase : s.counterBase key now = none := by
        rw [view] at hview
        simp only [counterBase, hview, if_neg hexpired, Option.map_eq_none_iff]
        exact hcounter
      simp only [incrBy, hbase]

theorem counterBase_of_number {number : ℤ}
    (hcounter : ExpiringMap.counter (live now (s.view key)) = some number) :
    s.counterBase key now = some (s, number) ∨
      ∃ it, s.counterBase key now = some (s.removeLocked key it, number) := by
  cases hlive : live now (s.view key) with
  | some it =>
      obtain ⟨hview, hexpired⟩ := live_eq_some hlive
      rw [hlive] at hcounter
      have hparse : parseInt it.value = some number := hcounter
      left
      rw [view] at hview
      simp only [counterBase, hview, if_neg hexpired, hparse, Option.map_some]
  | none =>
      rw [hlive] at hcounter
      have hzero : number = 0 := (Option.some.inj hcounter).symm
      unfold counterBase
      cases hlookup : s.items.lookup key with
      | none => exact Or.inl (by rw [hzero])
      | some it =>
          have hexpired : it.expired now := live_eq_none_iff.mp hlive it hlookup
          exact Or.inr ⟨it, by simp only [if_pos hexpired, hzero]⟩

theorem incrBy_of_number (hentries : s.maxEntries ≤ 0) (hmemory : s.maxMemory ≤ 0)
    (delta : ℤ) {number : ℤ}
    (hcounter : ExpiringMap.counter (live now (s.view key)) = some number) :
    (s.incrBy key delta now).shard.view =
        Function.update s.view key (some ⟨formatInt (int64 (number + delta)), 0⟩) ∧
      ∃ evicted, (s.incrBy key delta now).result = .ok (int64 (number + delta), evicted) := by
  rcases counterBase_of_number hcounter with hbase | ⟨it, hbase⟩
  · simp only [incrBy, hbase]
    exact ⟨view_set_of_unlimited hentries hmemory _ _ _, _, rfl⟩
  · simp only [incrBy, hbase]
    refine ⟨?_, _, rfl⟩
    have hset := view_set_of_unlimited (s := s.removeLocked key it) hentries hmemory
      key (formatInt (int64 (number + delta))) 0
    rw [hset, view_removeLocked, del_apply, Function.update_idem]

end Shard

/-! ## The steps of the cache -/

namespace Cache

variable {c : Cache L} {m : Contents} {now : ℤ} {key : Key}

/-- The cache holds what the map holds, for everybody who looks at `now`. -/
structure Implements (now : ℤ) (c : Cache L) (m : Contents) : Prop where
  placed : c.Placed
  unlimited : c.Unlimited
  same : SameLive now c.contents m

theorem contents_exec_of_shard (clock : Clock) (op : KeyOp L) (other : Key) :
    (c.exec ⟨clock, op⟩).1.contents other =
      if L.index other = op.shard then (op.run clock (c.shards op.shard)).shard.view other
      else c.contents other := by
  by_cases hshard : L.index other = op.shard
  · simp [contents, exec, hshard]
  · simp [contents, exec, hshard]

theorem contents_exec_self (c : Cache L) {clock : Clock} {op : KeyOp L}
    (hkey : op.shard = L.index key) :
    (c.exec ⟨clock, op⟩).1.contents key =
      (op.run clock (c.shards op.shard)).shard.view key := by
  rw [contents_exec_of_shard, if_pos hkey.symm]

theorem Unlimited.exec (hunlimited : c.Unlimited) (step : Step L) :
    (c.exec step).1.Unlimited := by
  intro i
  rw [shards_exec]
  split_ifs
  · have hconfigured : (c.shards i).Configured (c.shards i).policy.kind
        (c.shards i).maxEntries (c.shards i).maxMemory := ⟨rfl, rfl, rfl⟩
    have hafter := hconfigured.runAll (step.op.shardOps step.clock)
    rw [← KeyOp.shard_run] at hafter
    rw [hafter.maxEntries_eq, hafter.maxMemory_eq]
    exact hunlimited i
  · exact hunlimited i

theorem Implements.exec (himpl : c.Implements now m) {clock : Clock} {op : KeyOp L}
    {m' : Contents} (hsame : SameLive now (c.exec ⟨clock, op⟩).1.contents m') :
    (c.exec ⟨clock, op⟩).1.Implements now m' :=
  ⟨placed_exec himpl.placed _, himpl.unlimited.exec _, hsame⟩

theorem Implements.exec_unseen (himpl : c.Implements now m) {clock : Clock} {op : KeyOp L}
    (hunseen : SameLive now (op.run clock (c.shards op.shard)).shard.view
      (c.shards op.shard).view) :
    (c.exec ⟨clock, op⟩).1.Implements now m := by
  apply himpl.exec
  intro other
  rw [contents_exec_of_shard, ← himpl.same other]
  by_cases hshard : L.index other = op.shard
  · rw [if_pos hshard, hunseen other, contents, hshard]
  · rw [if_neg hshard]

theorem contents_exec_update {clock : Clock} {op : KeyOp L} (hkey : op.shard = L.index key)
    {entry : Option Item}
    (hview : (op.run clock (c.shards op.shard)).shard.view =
      Function.update (c.shards op.shard).view key entry) :
    (c.exec ⟨clock, op⟩).1.contents = Function.update c.contents key entry := by
  funext other
  rw [contents_exec_of_shard, hview]
  by_cases hother : other = key
  · rw [hother, if_pos hkey.symm, Function.update_self, Function.update_self]
  · rw [Function.update_of_ne hother, Function.update_of_ne hother]
    by_cases hshard : L.index other = op.shard
    · rw [if_pos hshard, contents, hshard]
    · rw [if_neg hshard]

theorem Implements.exec_update (himpl : c.Implements now m) {clock : Clock} {op : KeyOp L}
    (hkey : op.shard = L.index key) {entry : Option Item}
    (hview : (op.run clock (c.shards op.shard)).shard.view =
      Function.update (c.shards op.shard).view key entry) :
    (c.exec ⟨clock, op⟩).1.Implements now (Function.update m key entry) := by
  apply himpl.exec
  rw [contents_exec_update hkey hview]
  exact himpl.same.update key entry

theorem Implements.live_view (himpl : c.Implements now m) (key : Key) :
    live now ((c.shards (L.index key)).view key) = live now (m key) :=
  himpl.same key

theorem Implements.exec_setTTL (himpl : c.Implements now m) (key : Key) (value : Bytes)
    (lifetime : ℤ) :
    (c.exec ⟨⟨now, now⟩, .setTTL key value lifetime⟩).1.Implements now
      (ExpiringMap.put m key value (deadline now lifetime)) := by
  obtain ⟨hentries, hmemory⟩ := himpl.unlimited (L.index key)
  apply himpl.exec_update rfl
  exact Shard.view_set_of_unlimited hentries hmemory key value _

theorem Implements.exec_delete (himpl : c.Implements now m) (key : Key) :
    (c.exec ⟨⟨now, now⟩, .delete key⟩).1.Implements now (Function.update m key none) :=
  himpl.exec_update rfl (Shard.view_del _ key)

theorem Implements.exec_sweepExpired (himpl : c.Implements now m) (shard : Fin L.shards)
    (sample : ℕ) (order : List Key) :
    (c.exec ⟨⟨now, now⟩, .sweepExpired shard sample order⟩).1.Implements now m :=
  himpl.exec_unseen (Shard.sameLive_sweepLoop now _ _)

theorem Implements.exec_get (himpl : c.Implements now m) (key : Key) :
    (c.exec ⟨⟨now, now⟩, .get key⟩).1.Implements now m ∧
      (c.exec ⟨⟨now, now⟩, .get key⟩).2.2 = .value ((live now (m key)).map Entry.value) := by
  obtain ⟨hsame, hresult⟩ := (c.shards (L.index key)).get_spec key now
  rw [himpl.live_view key] at hresult
  exact ⟨himpl.exec_unseen hsame, congrArg Reply.value hresult⟩

theorem Implements.exec_exists (himpl : c.Implements now m) (key : Key) :
    (c.exec ⟨⟨now, now⟩, .exists_ key⟩).1.Implements now m ∧
      (c.exec ⟨⟨now, now⟩, .exists_ key⟩).2.2 = .bool (live now (m key)).isSome := by
  obtain ⟨hsame, hresult⟩ := (c.shards (L.index key)).exists_spec key now
  rw [himpl.live_view key] at hresult
  exact ⟨himpl.exec_unseen hsame, congrArg Reply.bool hresult⟩

theorem Implements.exec_ttl (himpl : c.Implements now m) (key : Key) :
    (c.exec ⟨⟨now, now⟩, .ttl key⟩).1.Implements now m ∧
      (c.exec ⟨⟨now, now⟩, .ttl key⟩).2.2 =
        ExpiringMap.remaining now (live now (m key)) := by
  obtain ⟨hsame, hfound, hexpireAt⟩ := (c.shards (L.index key)).ttl_spec key now
  rw [himpl.live_view key] at hfound hexpireAt
  refine ⟨himpl.exec_unseen hsame, ?_⟩
  simp only [Cache.exec, KeyOp.run, KeyOp.shard, hfound]
  cases hlive : live now (m key) with
  | none => rfl
  | some it =>
      simp only [hexpireAt it hlive]
      rfl

theorem Implements.exec_expire (clock : Clock) (himpl : c.Implements clock.second m) (key : Key)
    (lifetime : ℤ) :
    match live clock.second (m key) with
    | none => (c.exec ⟨clock, .expire key lifetime⟩).1.Implements clock.second m ∧
        (c.exec ⟨clock, .expire key lifetime⟩).2.2 = .bool false
    | some it => (c.exec ⟨clock, .expire key lifetime⟩).1.Implements clock.second
          (ExpiringMap.put m key it.value (deadline clock.first lifetime)) ∧
        (c.exec ⟨clock, .expire key lifetime⟩).2.2 = .bool true := by
  have hspec := (c.shards (L.index key)).expire_spec key (deadline clock.first lifetime)
    clock.second
  rw [himpl.live_view key] at hspec
  cases hlive : live clock.second (m key) with
  | none =>
      rw [hlive] at hspec
      exact ⟨himpl.exec_unseen hspec.1, congrArg Reply.bool hspec.2⟩
  | some it =>
      rw [hlive] at hspec
      exact ⟨himpl.exec_update rfl hspec.1, congrArg Reply.bool hspec.2⟩

theorem Implements.exec_incrBy (himpl : c.Implements now m) (key : Key) (delta : ℤ) :
    match ExpiringMap.counter (live now (m key)) with
    | none => (c.exec ⟨⟨now, now⟩, .incrBy key delta⟩).1.Implements now m ∧
        (c.exec ⟨⟨now, now⟩, .incrBy key delta⟩).2.2 = .number (.error .errNotInteger)
    | some base => (c.exec ⟨⟨now, now⟩, .incrBy key delta⟩).1.Implements now
          (ExpiringMap.put m key (formatInt (int64 (base + delta))) 0) ∧
        (c.exec ⟨⟨now, now⟩, .incrBy key delta⟩).2.2 = .number (.ok (int64 (base + delta))) := by
  rw [← himpl.live_view key]
  cases hcounter : ExpiringMap.counter (live now ((c.shards (L.index key)).view key)) with
  | none =>
      have herror := Shard.incrBy_of_error delta hcounter
      constructor
      · apply himpl.exec_unseen
        intro other
        simp only [KeyOp.run, KeyOp.shard, herror]
      · simp only [Cache.exec, KeyOp.run, KeyOp.shard, herror]
  | some base =>
      obtain ⟨hentries, hmemory⟩ := himpl.unlimited (L.index key)
      obtain ⟨hview, evicted, hresult⟩ :=
        Shard.incrBy_of_number hentries hmemory delta hcounter
      constructor
      · apply himpl.exec_update rfl
        simp only [KeyOp.run, KeyOp.shard, hresult]
        exact hview
      · simp only [Cache.exec, KeyOp.run, KeyOp.shard, hresult]

/-! ## Calls of several steps -/

theorem Implements.execReplies_sets (himpl : c.Implements now m) (pairs : List KV) :
    (execReplies c (Operation.mset (pairs.map fun pair => (⟨now, now⟩, pair))).steps).1.Implements
      now
      (pairs.foldl (fun m pair =>
        ExpiringMap.put m pair.key pair.value (deadline now pair.ttl)) m) := by
  induction pairs generalizing c m with
  | nil => exact himpl
  | cons pair rest ih => exact ih (himpl.exec_setTTL pair.key pair.value pair.ttl)

theorem Implements.execReplies_gets (himpl : c.Implements now m) (wanted : List Key) :
    let steps := (Operation.mget (wanted.map fun key => (⟨now, now⟩, key)) : Operation L).steps
    (execReplies c steps).1.Implements now m ∧
      (execReplies c steps).2 =
        wanted.map fun key => .value ((live now (m key)).map Entry.value) := by
  induction wanted generalizing c with
  | nil => exact ⟨himpl, rfl⟩
  | cons key rest ih =>
      obtain ⟨hnext, hreply⟩ := himpl.exec_get key
      obtain ⟨hlast, hreplies⟩ := ih hnext
      refine ⟨hlast, ?_⟩
      simp only [Operation.steps] at hreplies
      simp only [Operation.steps, List.map_cons, execReplies, hreply, hreplies]

theorem Implements.execReplies_flushes (himpl : c.Implements now m)
    (shards : List (Fin L.shards)) :
    (execReplies c (shards.map fun i => ⟨unread, .flush i⟩)).1.Implements now
      fun key => if L.index key ∈ shards then none else m key := by
  induction shards generalizing c m with
  | nil => simpa [execReplies] using himpl
  | cons i rest ih =>
      have hflush : (c.exec ⟨unread, .flush i⟩).1.Implements now
          fun key => if L.index key = i then none else m key := by
        apply himpl.exec
        intro key
        rw [contents_exec_flush]
        by_cases hshard : L.index key = i
        · simp only [if_pos hshard]
        · simp only [if_neg hshard]
          exact himpl.same key
      have hall := ih hflush
      have hmerge : (fun key => if L.index key ∈ rest then none
            else if L.index key = i then none else m key) =
          fun key => if L.index key ∈ i :: rest then none else m key := by
        funext key
        by_cases hshard : L.index key = i <;> by_cases hrest : L.index key ∈ rest <;>
          simp [hshard, hrest]
      rw [hmerge] at hall
      exact hall

/-! ## The listings -/

theorem mem_exportEntries_iff (hplaced : c.Placed) (entry : Key × Item) :
    entry ∈ c.exportEntries now ↔ live now (c.contents entry.1) = some entry.2 := by
  simp only [exportEntries, List.mem_flatMap, List.mem_finRange, true_and]
  constructor
  · rintro ⟨i, hmem⟩
    have hlive := mem_exportEntries.mp hmem
    have hi : L.index entry.1 = i := by
      apply hplaced i
      rw [(live_eq_some hlive).1]
      exact Option.some_ne_none _
    rw [contents, hi]
    exact hlive
  · intro hlive
    exact ⟨L.index entry.1, mem_exportEntries.mpr hlive⟩

theorem keys_eq_map (c : Cache L) (now : ℤ) :
    c.keys now = (c.exportEntries now).map Prod.fst := by
  rw [keys, exportEntries, List.map_flatMap]
  simp only [Shard.keys_eq_map]

theorem mem_keys_iff (hplaced : c.Placed) (key : Key) :
    key ∈ c.keys now ↔ live now (c.contents key) ≠ none := by
  rw [keys_eq_map, List.mem_map, Option.ne_none_iff_exists']
  constructor
  · rintro ⟨entry, hmem, rfl⟩
    exact ⟨entry.2, (mem_exportEntries_iff hplaced entry).mp hmem⟩
  · rintro ⟨it, hlive⟩
    exact ⟨(key, it), (mem_exportEntries_iff hplaced _).mpr hlive, rfl⟩

theorem nodup_keys (hplaced : c.Placed) : (c.keys now).Nodup := by
  rw [keys, List.nodup_flatMap]
  constructor
  · intro i _
    rw [Shard.keys_eq_map]
    exact nodup_exportEntries _ _
  · apply (List.nodup_finRange L.shards).imp
    intro i j hne key hi hj
    apply hne
    have hindex : ∀ shard, key ∈ (c.shards shard).keys now → L.index key = shard := by
      intro shard hmem
      rw [Shard.keys_eq_map, List.mem_map] at hmem
      obtain ⟨entry, hentry, rfl⟩ := hmem
      apply hplaced shard
      rw [(live_eq_some (mem_exportEntries.mp hentry)).1]
      exact Option.some_ne_none _
    exact (hindex i hi).symm.trans (hindex j hj)

/-! ## Every call -/

theorem Implements.later {later : ℤ} (hle : now ≤ later) (himpl : c.Implements now m) :
    c.Implements later m :=
  ⟨himpl.placed, himpl.unlimited, himpl.same.later hle⟩

theorem Implements.perform (himpl : c.Implements now m) (hpurged : ∀ key, live now (m key) = m key)
    (call : Call L) :
    (c.call ⟨now, call⟩).1.Implements now (ExpiringMap.perform now m call).1 ∧
      (c.call ⟨now, call⟩).2.Meets (ExpiringMap.perform now m call).2 := by
  cases call with
  | set key value => exact ⟨himpl.exec_setTTL key value 0, trivial⟩
  | setTTL key value lifetime => exact ⟨himpl.exec_setTTL key value lifetime, trivial⟩
  | mset pairs => exact ⟨himpl.execReplies_sets pairs, trivial⟩
  | get key =>
      obtain ⟨hnext, hreply⟩ := himpl.exec_get key
      rw [hpurged] at hreply
      exact ⟨hnext, congrArg (fun reply => [reply]) hreply⟩
  | mget wanted =>
      obtain ⟨hnext, hreplies⟩ := himpl.execReplies_gets wanted
      simp only [hpurged] at hreplies
      exact ⟨hnext, hreplies⟩
  | delete key => exact ⟨himpl.exec_delete key, trivial⟩
  | exists_ key =>
      obtain ⟨hnext, hreply⟩ := himpl.exec_exists key
      rw [hpurged] at hreply
      exact ⟨hnext, congrArg (fun reply => [reply]) hreply⟩
  | expire key lifetime =>
      have hspec := Implements.exec_expire ⟨now, now⟩ himpl key lifetime
      rw [hpurged] at hspec
      simp only [ExpiringMap.perform]
      cases hkey : m key with
      | none | some it =>
          rw [hkey] at hspec
          exact ⟨hspec.1, congrArg (fun reply => [reply]) hspec.2⟩
  | ttl key =>
      obtain ⟨hnext, hreply⟩ := himpl.exec_ttl key
      rw [hpurged] at hreply
      exact ⟨hnext, congrArg (fun reply => [reply]) hreply⟩
  | incrBy key delta =>
      have hspec := himpl.exec_incrBy key delta
      rw [hpurged] at hspec
      simp only [ExpiringMap.perform]
      cases hcounter : ExpiringMap.counter (m key) with
      | none | some base =>
          rw [hcounter] at hspec
          exact ⟨hspec.1, congrArg (fun reply => [reply]) hspec.2⟩
  | keys =>
      refine ⟨himpl, nodup_keys himpl.placed, ?_⟩
      intro key
      rw [mem_keys_iff himpl.placed, himpl.same, hpurged]
      rfl
  | export_ =>
      refine ⟨himpl, ?_, ?_⟩
      · rw [← keys_eq_map]
        exact nodup_keys himpl.placed
      · intro entry
        rw [mem_exportEntries_iff himpl.placed, himpl.same, hpurged]
        rfl
  | flushAll =>
      have hflush := himpl.execReplies_flushes (List.finRange L.shards)
      simp only [List.mem_finRange, if_true] at hflush
      exact ⟨hflush, trivial⟩
  | sweepExpired shard sample order =>
      exact ⟨himpl.exec_sweepExpired shard sample order, trivial⟩

theorem Implements.call {t : TimedCall L} (himpl : c.Implements t.now m) :
    (c.call t).1.Implements t.now (ExpiringMap.call m t).1 ∧
      (c.call t).2.Meets (ExpiringMap.call m t).2 := by
  have hpurge : c.Implements t.now (ExpiringMap.purge t.now m) :=
    ⟨himpl.placed, himpl.unlimited, himpl.same.purge⟩
  apply hpurge.perform
  intro key
  exact live_live le_rfl (m key)

/-- Every result of every sequence of calls is that of the map. -/
theorem results_meet_expiringMap (shards : ℤ) (policy : Kind) (hash : Key → ℕ) (rng : ℕ → ℕ → ℕ)
    (calls : List (TimedCall (Config.layout ⟨shards, 0, 0, policy⟩ hash)))
    (hclock : (calls.map TimedCall.now).Pairwise (· ≤ ·)) :
    List.Forall₂ CallResult.Meets
      (results Cache.call (Cache.unlimited shards policy hash rng) calls)
      (results ExpiringMap.call (fun _ => none) calls) := by
  apply results_match (R := fun now c m => c.Implements now m)
    (fun _ _ _ _ hle himpl => Implements.later hle himpl) (fun _ _ _ himpl => himpl.call) hclock
  intro t _
  exact ⟨placed_new _ hash rng, unlimited_unlimited shards policy hash rng, fun _ => rfl⟩

/-- A counter runs out, is missed by a read and found by a sweep, and starts
again. -/
theorem results_meet_expiringMap_counter :
    let calls : List (TimedCall (Config.layout ⟨4, 0, 0, .lru⟩ fun _ => 1)) :=
      [⟨1, .setTTL [99] [52, 49] 10⟩, ⟨10, .incrBy [99] 1⟩, ⟨11, .expire [99] 5⟩,
        ⟨16, .get [99]⟩, ⟨17, .sweepExpired (Layout.index _ [99]) 32 [[99]]⟩,
        ⟨17, .incrBy [99] 7⟩, ⟨20, .keys⟩]
    (calls.map TimedCall.now).Pairwise (· ≤ ·) ∧
      List.Forall₂ CallResult.Meets
        (results Cache.call (Cache.unlimited 4 .lru (fun _ => 1) fun _ _ => 0) calls)
        (results ExpiringMap.call (fun _ => none) calls) := by
  intro calls
  have hclock : (calls.map TimedCall.now).Pairwise (· ≤ ·) := by decide
  exact ⟨hclock, results_meet_expiringMap 4 .lru (fun _ => 1) (fun _ _ => 0) calls hclock⟩

end Cache
end DistCache
