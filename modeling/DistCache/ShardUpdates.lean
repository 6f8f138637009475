import DistCache.CacheEngine
import Mathlib.Logic.Relation

/-!
# The updates that the operations of a shard consist of

A shard changes its map, its memory counter and its policy in a handful of ways, and
every operation is a sequence of them, so that an invariant needs one lemma for each
update and none for the operations.  An update that takes an entry out carries a
condition on the shard and the entry, which an invariant may add.
-/

namespace DistCache

open DeadlineStore Eviction

namespace Shard

inductive Update (P : Shard → Key → Item → Prop) (s : Shard) : Shard → Prop where
  | remove (key : Key) (it : Item) (hlookup : s.items.lookup key = some it)
      (hout : P s key it) : Update P s (s.removeLocked key it)
  | store (key : Key) (value : Bytes) (expireAt : ℤ) :
      Update P s (s.setLocked key value expireAt)
  | retime (key : Key) (it : Item) (expireAt : ℤ) (hlookup : s.items.lookup key = some it) :
      Update P s (s.retime key it expireAt)
  | access (key : Key) : Update P s { s with policy := s.policy.access key }
  | flush : Update P s s.flushSilent
  | giveUp (hevict : s.policy.evict.1 = none) :
      Update P s { s with policy := s.policy.evict.2 }
  | spare (victim : Key) (hevict : s.policy.evict.1 = some victim) :
      Update P s { s with policy := s.policy.evict.2.add victim }
  | drop (victim : Key) (it : Item) (hevict : s.policy.evict.1 = some victim)
      (hlookup : s.items.lookup victim = some it) (hout : P s victim it) :
      Update P s (({ s with policy := s.policy.evict.2 } : Shard).dropVictim victim it)
  | skip (victim : Key) (hevict : s.policy.evict.1 = some victim)
      (hlookup : s.items.lookup victim = none) :
      Update P s { s with policy := s.policy.evict.2 }

abbrev Reaches (P : Shard → Key → Item → Prop) : Shard → Shard → Prop :=
  Relation.ReflTransGen (Update P)

def AnyEntry : Shard → Key → Item → Prop := fun _ _ _ => True

theorem Update.reaches {P : Shard → Key → Item → Prop} {s next : Shard}
    (hupdate : Update P s next) : Reaches P s next :=
  Relation.ReflTransGen.single hupdate

theorem Reaches.invariant {P : Shard → Key → Item → Prop} {I : Shard → Prop}
    (hkeep : ∀ s next, I s → Update P s next → I next) {s next : Shard}
    (hreaches : Reaches P s next) (hs : I s) : I next := by
  induction hreaches with
  | refl => exact hs
  | tail _ hupdate ih => exact hkeep _ _ ih hupdate

theorem Reaches.strengthen {P Q : Shard → Key → Item → Prop} {I : Shard → Prop}
    (hkeep : ∀ s next, I s → Update P s next → I next)
    (himplies : ∀ s key it, I s → s.items.lookup key = some it → Q s key it)
    {s next : Shard} (hreaches : Reaches P s next) (hs : I s) : Reaches Q s next := by
  induction hreaches with
  | refl => exact .refl
  | tail hbefore hupdate ih =>
      have hmiddle := Reaches.invariant hkeep hbefore hs
      apply Relation.ReflTransGen.tail ih
      cases hupdate with
      | remove key it hlookup _ =>
          exact .remove key it hlookup (himplies _ key it hmiddle hlookup)
      | store key value expireAt => exact .store key value expireAt
      | retime key it expireAt hlookup => exact .retime key it expireAt hlookup
      | access key => exact .access key
      | flush => exact .flush
      | giveUp hevict => exact .giveUp hevict
      | spare victim hevict => exact .spare victim hevict
      | drop victim it hevict hlookup _ =>
          exact .drop victim it hevict hlookup (himplies _ victim it hmiddle hlookup)
      | skip victim hevict hlookup => exact .skip victim hevict hlookup

/-! ## Updates that only take out -/

/-- The updates that take entries out or move their deadlines. -/
inductive Shrink (s : Shard) : Shard → Prop where
  | remove (key : Key) (it : Item) (hlookup : s.items.lookup key = some it) :
      Shrink s (s.removeLocked key it)
  | retime (key : Key) (it : Item) (expireAt : ℤ) (hlookup : s.items.lookup key = some it) :
      Shrink s (s.retime key it expireAt)
  | flush : Shrink s s.flushSilent

abbrev Shrinks : Shard → Shard → Prop := Relation.ReflTransGen Shrink

theorem Shrinks.reaches {s next : Shard} (hshrinks : Shrinks s next) :
    Reaches AnyEntry s next := by
  refine Relation.ReflTransGen.mono (fun before after hshrink => ?_) s next hshrinks
  cases hshrink with
  | remove key it hlookup => exact .remove key it hlookup trivial
  | retime key it expireAt hlookup => exact .retime key it expireAt hlookup
  | flush => exact .flush

theorem Shrinks.invariant {I : Shard → Prop}
    (hkeep : ∀ s next, I s → Shrink s next → I next) {s next : Shard}
    (hshrinks : Shrinks s next) (hs : I s) : I next := by
  induction hshrinks with
  | refl => exact hs
  | tail _ hshrink ih => exact hkeep _ _ ih hshrink

theorem shrinks_removeLocked {s : Shard} {key : Key} {it : Item}
    (hlookup : s.items.lookup key = some it) : Shrinks s (s.removeLocked key it) :=
  .single (.remove key it hlookup)

theorem shrinks_sweepLoop (now : ℤ) (order : List Key) (s : Shard) :
    Shrinks s (sweepLoop now order s).1 := by
  induction order generalizing s with
  | nil => exact .refl
  | cons key rest ih =>
      simp only [sweepLoop]
      cases hlookup : s.items.lookup key with
      | none => exact ih s
      | some it =>
          by_cases hexpired : it.expired now
          · simp only [if_pos hexpired]
            exact (shrinks_removeLocked hlookup).trans (ih _)
          · simp only [if_neg hexpired]
            exact ih s

theorem shrinks_lookupLive {α : Type} {s : Shard} {key : Key} {now : ℤ} {absent gone : α}
    {found : Item → Outcome α}
    (hfound : ∀ it, s.items.lookup key = some it → Shrinks s (found it).shard) :
    Shrinks s (s.lookupLive key now absent gone found).shard :=
  lookupLive_rule (P := fun o => Shrinks s o.shard) (fun _ => .refl)
    (fun _ hlookup _ => shrinks_removeLocked hlookup) (fun it hlookup _ => hfound it hlookup)

theorem shrinks_applyDel (s : Shard) (key : Key) : Shrinks s (s.applyDel key) := by
  unfold applyDel
  cases hlookup : s.items.lookup key with
  | none => exact .refl
  | some it => exact shrinks_removeLocked hlookup

theorem shard_del (s : Shard) (key : Key) : (s.del key).shard = s.applyDel key := by
  unfold del applyDel
  cases s.items.lookup key <;> rfl

theorem get_cases (s : Shard) (key : Key) (now : ℤ) :
    (s.get key now).result.2.1 = false ∧ Shrinks s (s.get key now).shard ∨
      ∃ it, s.items.lookup key = some it ∧ (s.get key now).result.2.1 = true ∧
        (s.get key now).shard = { s with policy := s.policy.access key } := by
  apply lookupLive_rule (P := fun o : Outcome (Bytes × Bool × Key) =>
    o.result.2.1 = false ∧ Shrinks s o.shard ∨
      ∃ it, s.items.lookup key = some it ∧ o.result.2.1 = true ∧
        o.shard = { s with policy := s.policy.access key })
  · exact fun _ => Or.inl ⟨rfl, .refl⟩
  · exact fun it hlookup _ => Or.inl ⟨rfl, shrinks_removeLocked hlookup⟩
  · exact fun it hlookup _ => Or.inr ⟨it, hlookup, rfl, rfl⟩

theorem shrinks_counterBase {s : Shard} {key : Key} {now : ℤ} {base : Shard × ℤ}
    (hbase : s.counterBase key now = some base) : Shrinks s base.1 := by
  rcases counterBase_cases hbase with hsame | ⟨it, hlookup, _, hremoved⟩
  · rw [hsame]
  · rw [hremoved]
    exact shrinks_removeLocked hlookup

/-! ## Updates that store -/

theorem reaches_enforceLoop (protectedKey : Key) (fuel : ℕ) (s : Shard) :
    Reaches AnyEntry s (enforceLoop protectedKey fuel s).1 := by
  induction fuel generalizing s with
  | zero => exact .refl
  | succ fuel ih =>
      simp only [enforceLoop, enforceTurn]
      by_cases hover : s.OverCapacity
      · rw [if_pos hover]
        cases hevict : s.policy.evict.1 with
        | none => exact (Update.giveUp hevict).reaches
        | some victim =>
            simp only
            by_cases hprotected : victim = protectedKey
            · rw [if_pos hprotected]
              exact (Update.spare victim hevict).reaches
            · rw [if_neg hprotected]
              cases hlookup : s.items.lookup victim with
              | none => exact (Update.skip victim hevict hlookup).reaches.trans (ih _)
              | some it =>
                  exact (Update.drop victim it hevict hlookup trivial).reaches.trans (ih _)
      · rw [if_neg hover]

theorem reaches_applySet (s : Shard) (key : Key) (value : Bytes) (expireAt : ℤ) :
    Reaches AnyEntry s (s.applySet key value expireAt) :=
  (Update.store key value expireAt).reaches.trans (reaches_enforceLoop key _ _)

theorem reaches_incrBy (s : Shard) (key : Key) (delta now : ℤ) :
    Reaches AnyEntry s (s.incrBy key delta now).shard := by
  unfold incrBy
  cases hbase : s.counterBase key now with
  | none => exact .refl
  | some base => exact (shrinks_counterBase hbase).reaches.trans (reaches_applySet base.1 key _ 0)

end Shard

/-! ## The operations of a shard -/

inductive ShardOp where
  | get (key : Key) (now : ℤ)
  | set (key : Key) (value : Bytes) (expireAt : ℤ)
  | del (key : Key)
  | exists_ (key : Key) (now : ℤ)
  | expire (key : Key) (expireAt now : ℤ)
  | ttl (key : Key) (now : ℤ)
  | incrBy (key : Key) (delta now : ℤ)
  | flush
  | sweepExpired (now : ℤ) (sample : ℕ) (order : List Key)
  | applySet (key : Key) (value : Bytes) (expireAt : ℤ)
  | applyDel (key : Key)
  | applyExpire (key : Key) (expireAt : ℤ)
  | flushSilent
  deriving DecidableEq

namespace ShardOp

def run (s : Shard) : ShardOp → Shard
  | .get key now => (s.get key now).shard
  | .set key value expireAt => (s.set key value expireAt).shard
  | .del key => (s.del key).shard
  | .exists_ key now => (s.exists_ key now).shard
  | .expire key expireAt now => (s.expire key expireAt now).shard
  | .ttl key now => (s.ttl key now).shard
  | .incrBy key delta now => (s.incrBy key delta now).shard
  | .flush => s.flush.shard
  | .sweepExpired now sample order => (s.sweepExpired now sample order).shard
  | .applySet key value expireAt => s.applySet key value expireAt
  | .applyDel key => s.applyDel key
  | .applyExpire key expireAt => s.applyExpire key expireAt
  | .flushSilent => s.flushSilent

def runAll (s : Shard) (ops : List ShardOp) : Shard := ops.foldl run s

/-- The operation neither stores an entry nor tells the policy of a use. -/
def Quiet : ShardOp → Prop
  | .get _ _ => False
  | .set _ _ _ => False
  | .incrBy _ _ _ => False
  | .applySet _ _ _ => False
  | _ => True

theorem shrinks_run (s : Shard) {op : ShardOp} (hquiet : op.Quiet) : s.Shrinks (run s op) := by
  cases op with
  | del key =>
      simp only [run, Shard.shard_del]
      exact s.shrinks_applyDel key
  | exists_ key now => exact Shard.shrinks_lookupLive fun _ _ => .refl
  | expire key expireAt now =>
      exact Shard.shrinks_lookupLive fun it hlookup => .single (.retime key it expireAt hlookup)
  | ttl key now => exact Shard.shrinks_lookupLive fun _ _ => .refl
  | flush => exact .single .flush
  | sweepExpired now sample order => exact s.shrinks_sweepLoop now _
  | applyDel key => exact s.shrinks_applyDel key
  | applyExpire key expireAt =>
      simp only [run, Shard.applyExpire]
      cases hlookup : s.items.lookup key with
      | none => exact .refl
      | some it => exact .single (.retime key it expireAt hlookup)
  | flushSilent => exact .single .flush
  | get key now => contradiction
  | set key value expireAt => contradiction
  | incrBy key delta now => contradiction
  | applySet key value expireAt => contradiction

theorem reaches_run (s : Shard) (op : ShardOp) : s.Reaches Shard.AnyEntry (run s op) := by
  cases op with
  | get key now =>
      rcases s.get_cases key now with ⟨_, hshrinks⟩ | ⟨it, _, _, hfound⟩
      · exact hshrinks.reaches
      · rw [run, hfound]
        exact (Shard.Update.access key).reaches
  | set key value expireAt => exact s.reaches_applySet key value expireAt
  | incrBy key delta now => exact s.reaches_incrBy key delta now
  | applySet key value expireAt => exact s.reaches_applySet key value expireAt
  | _ => exact Shard.Shrinks.reaches (shrinks_run s trivial)

theorem runAll_invariant {I : Shard → Prop}
    (hkeep : ∀ s next, I s → Shard.Update Shard.AnyEntry s next → I next) {s : Shard}
    (hs : I s) (ops : List ShardOp) : I (runAll s ops) := by
  induction ops generalizing s with
  | nil => exact hs
  | cons op rest ih => exact ih ((reaches_run s op).invariant hkeep hs)

end ShardOp

/-- The step of the cache as an operation of its shard; the reads that leave the
shard alone have none. -/
def KeyOp.shardOps {L : Layout} (clock : Clock) : KeyOp L → List ShardOp
  | .setTTL key value lifetime => [.set key value (deadline clock.first lifetime)]
  | .get key => [.get key clock.first]
  | .delete key => [.del key]
  | .exists_ key => [.exists_ key clock.first]
  | .expire key lifetime => [.expire key (deadline clock.first lifetime) clock.second]
  | .ttl key => [.ttl key clock.first]
  | .incrBy key delta => [.incrBy key delta clock.first]
  | .sweepExpired _ sample order => [.sweepExpired clock.first sample order]
  | .keys _ => []
  | .len _ => []
  | .flush _ => [.flush]

theorem KeyOp.shard_run {L : Layout} (clock : Clock) (op : KeyOp L) (s : Shard) :
    (op.run clock s).shard = ShardOp.runAll s (op.shardOps clock) := by
  cases op with
  | incrBy key delta =>
      simp only [KeyOp.run]
      cases hresult : (s.incrBy key delta clock.first).result <;> rfl
  | _ => rfl

end DistCache
