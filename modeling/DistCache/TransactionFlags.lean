import DistCache.ReplyFraming

/-!
# A connection and its transaction

The connection and its transaction each have a flag that says whether they are in
`MULTI`, and neither looks at the errors of the other.  `Pair` has both as they are in
the program, with nothing said about how they fit together; `pair_serve` says that it
goes the same way as the connections of the server's model.  `Moves` lists what a command
can do to the transaction, with its replies.
-/

namespace DistCache
namespace CacheServer

open Resp Transition

variable {L : Layout} {lib : Lib} {cfg : Config}

/-! ## No other command is answered `QUEUED` -/

def isQueued : Reply → Bool
  | .simple s => s = text "QUEUED"
  | _ => false

def isOK : Reply → Bool
  | .simple s => s = text "OK"
  | _ => false

def isArray : Reply → Bool
  | .array _ => true
  | _ => false

theorem isQueued_setOptions {ttl : ℤ} {opts : List Bytes} {r : Reply}
    (hopts : setOptions lib ttl opts = .error r) : isQueued r = false := by
  fun_induction setOptions lib ttl opts with
  | case1 => contradiction
  | case2 =>
      cases hopts
      rfl
  | case3 =>
      cases hopts
      rfl
  | case4 =>
      cases hopts
      rfl
  | case5 _ _ _ _ _ _ _ _ _ ih => exact ih hopts
  | case6 _ _ _ _ _ _ _ _ _ ih => exact ih hopts
  | case7 =>
      cases hopts
      rfl

theorem isQueued_rFound (found : DistCache.Reply) : isQueued (rFound found) = false := by
  unfold rFound
  split
  · unfold rBulk stored
    split_ifs <;> rfl
  · rfl

theorem isQueued_incrBy (step : ℤ) (explicit : Bool) (cmd : Command)
    (found : List DistCache.Reply) :
    isQueued ((incrBy lib step explicit cmd : Plan L).render found) = false := by
  have hnumber : ∀ r, isQueued (rNumber r) = false := by
    intro r
    unfold rNumber
    split <;> rfl
  unfold incrBy
  cases explicit with
  | true =>
      dsimp only
      rw [if_pos rfl]
      split
      · split
        · rfl
        · exact hnumber _
      · rfl
  | false =>
      dsimp only
      rw [if_neg Bool.false_ne_true]
      split
      · exact hnumber _
      · rfl

theorem isQueued_rBool (found : List DistCache.Reply) : isQueued (rBool found) = false := by
  unfold rBool
  split_ifs <;> rfl

theorem isQueued_expire (unit : ℤ) (cmd : Command) (found : List DistCache.Reply) :
    isQueued ((expire unit cmd : Plan L).render found) = false := by
  unfold expire
  split
  · split
    · rfl
    · exact isQueued_rBool found
  · rfl

theorem isQueued_ttl (millis : Bool) (cmd : Command) (found : List DistCache.Reply) :
    isQueued ((ttl millis cmd : Plan L).render found) = false := by
  unfold ttl
  split
  · dsimp only
    split
    · split_ifs <;> rfl
    · rfl
    · rfl
  · rfl

theorem isQueued_plan (h : Handler) (cmd : Command) (found : List DistCache.Reply) :
    isQueued ((h.plan lib cmd : Plan L).render found) = false := by
  cases h with
  | ping =>
      simp only [Handler.plan, cmdPing]
      split <;> rfl
  | echo =>
      simp only [Handler.plan, cmdEcho]
      split <;> rfl
  | set =>
      simp only [Handler.plan, cmdSet]
      split
      · split
        · rename_i hopts
          exact isQueued_setOptions hopts
        · rfl
      · rfl
  | get =>
      simp only [Handler.plan, cmdGet]
      split
      · exact isQueued_rFound _
      · rfl
  | del =>
      simp only [Handler.plan, cmdDel]
      split <;> rfl
  | exists_ =>
      simp only [Handler.plan, cmdExists]
      split <;> rfl
  | incr => exact isQueued_incrBy 1 false cmd found
  | decr => exact isQueued_incrBy (-1) false cmd found
  | incrBy => exact isQueued_incrBy 0 true cmd found
  | decrBy => exact isQueued_incrBy 0 true cmd found
  | mset =>
      simp only [Handler.plan, cmdMSet]
      split_ifs <;> rfl
  | mget =>
      simp only [Handler.plan, cmdMGet]
      split <;> rfl
  | expire => exact isQueued_expire second cmd found
  | pexpire => exact isQueued_expire millisecond cmd found
  | ttl => exact isQueued_ttl false cmd found
  | pttl => exact isQueued_ttl true cmd found
  | persist =>
      simp only [Handler.plan, cmdPersist]
      split
      · exact isQueued_rBool found
      · rfl
  | keys => rfl
  | dbsize => rfl
  | type_ =>
      simp only [Handler.plan, cmdType]
      split
      · dsimp only
        split_ifs <;> rfl
      · rfl
  | flushAll => rfl

/-! ## The connection and its transaction -/

def Tx.multi (t : Tx lib) : Tx lib := if t.inMulti then t else { t with inMulti := true }

def Tx.queue (t : Tx lib) (q : Queued lib) : Tx lib :=
  if t.inMulti then { t with queued := t.queued ++ [q] } else t

/-- The fields `tx` and `inMulti` of a connection. -/
structure Pair (lib : Lib) where
  tx : Option (Tx lib)
  inMulti : Bool

def Conn.pair (c : Conn lib) : Pair lib := ⟨c.tx, c.inMulti⟩

namespace Pair

def beginMulti (p : Pair lib) : Pair lib :=
  if p.inMulti then p else ⟨some (p.tx.getD .new).multi, true⟩

def queue (p : Pair lib) (q : Queued lib) : Option (Pair lib) :=
  p.tx.map fun t => { p with tx := some (t.queue q) }

def execTx (p : Pair lib) : Option (Pair lib) :=
  if p.inMulti then p.tx.map fun _ => ⟨none, false⟩ else some p

def discard (p : Pair lib) : Pair lib := if p.tx.isNone then p else ⟨none, false⟩

def watch (env : Env L) (p : Pair lib) (s : Server L) (cmd : Command) : Pair lib :=
  if p.inMulti then p
  else
    match cmd.args with
    | [] => p
    | keys => { p with tx := some ((p.tx.getD .new).watch env s keys).1 }

def unwatch (p : Pair lib) : Pair lib :=
  if p.tx.isSome ∧ ¬ p.inMulti then { p with tx := none } else p

def run (env : Env L) (p : Pair lib) (s : Server L) (cmd : Command) : Verb → Option (Pair lib)
  | .multi => some p.beginMulti
  | .exec => p.execTx
  | .discard => some p.discard
  | .watch => some (p.watch env s cmd)
  | .unwatch => some p.unwatch
  | _ => some p

/-- What a command does to the two fields; `c` tells the password and whether the
connection is closed. -/
def serve (lib : Lib) (cfg : Config) (env : Env L) (c : Conn lib) (s : Server L)
    (cmd : Command) (p : Pair lib) : Option (Pair lib) :=
  if c.closed then some p
  else if cfg.password ≠ [] ∧ ¬ c.authed ∧ lib.toUpper cmd.name ∉ beforeAuth then some p
  else if p.inMulti ∧ lib.toUpper cmd.name ∉ notQueued then
    match hfound : handlers (lib.toUpper cmd.name) with
    | some h => p.queue ⟨cmd, h, hfound⟩
    | none => some p
  else
    match verbs (lib.toUpper cmd.name) with
    | some v => p.run env s cmd v
    | none => some p

end Pair

/-! ## What a command can do to the transaction -/

def begins (lib : Lib) (cmd : Command) (replies : List Reply) : Prop :=
  lib.toUpper cmd.name = text "MULTI" ∧ replies.any isOK = true

def succeeds (lib : Lib) (cmd : Command) (replies : List Reply) : Prop :=
  lib.toUpper cmd.name = text "EXEC" ∧ replies.any isArray = true

def discards (lib : Lib) (cmd : Command) (replies : List Reply) : Prop :=
  lib.toUpper cmd.name = text "DISCARD" ∧ replies.any isOK = true

instance (cmd : Command) (replies : List Reply) : Decidable (begins lib cmd replies) :=
  inferInstanceAs (Decidable (_ ∧ _))

instance (cmd : Command) (replies : List Reply) : Decidable (succeeds lib cmd replies) :=
  inferInstanceAs (Decidable (_ ∧ _))

structure Conn.Keeps (c c' : Conn lib) : Prop where
  pair : c'.pair = c.pair
  authed : c.authed = true → c'.authed = true

inductive Moves (lib : Lib) (cfg : Config) (env : Env L) (c : Conn lib) (s : Server L)
    (cmd : Command) (t : Turn lib L) : Prop where
  | keeps (hkeeps : c.Keeps t.conn) (hqueued : t.written.any isQueued = false)
      (hbegins : ¬ begins lib cmd t.written) (hsucceeds : ¬ succeeds lib cmd t.written)
      (hdiscards : ¬ discards lib cmd t.written)
      (hengine : t.server.engine = s.engine ∨ c.inMulti = false ∧
        ∃ h, handlers (lib.toUpper cmd.name) = some h ∧
          t.server.engine = ((h.plan lib cmd).run env.clock 0 s.engine).1)
      (hexec : c.inMulti = true → lib.toUpper cmd.name = text "EXEC" →
        cfg.password ≠ [] ∧ c.authed = false)
  | queues (q : Queued lib) (hcmd : q.cmd = cmd) (hmulti : c.inMulti = true)
      (hname : lib.toUpper cmd.name ∉ notQueued) (hnext : t = ⟨queue c q, s, [rSimple "QUEUED"]⟩)
  | begun (hname : lib.toUpper cmd.name = text "MULTI") (hmulti : c.inMulti = false)
      (hallowed : cfg.password = [] ∨ c.authed = true)
      (hnext : t = ⟨(beginMulti c).1, s, [rOK]⟩)
  | executed (hname : lib.toUpper cmd.name = text "EXEC") (hmulti : c.inMulti = true)
      (hconn : t.conn = c.dropTx)
      (hengine : t.server.engine = (runQueued env.clock 0 s.engine c.theTx.queued).1)
      (hwritten : t.written = [rArray (runQueued env.clock 0 s.engine c.theTx.queued).2])
  | aborted (hname : lib.toUpper cmd.name = text "EXEC") (hmulti : c.inMulti = true)
      (hchanged : ¬ s.txn.Unchanged (c.theTx.view : Txn.Tx L)) (hconn : t.conn = c.dropTx)
      (hengine : t.server.engine = s.engine) (hwritten : t.written = [rNilArray])
  | dropped (hmultiName : lib.toUpper cmd.name ≠ text "MULTI")
      (hexecName : lib.toUpper cmd.name ≠ text "EXEC") (hconn : t.conn = c.dropTx)
      (hengine : t.server.engine = s.engine) (hwritten : t.written = [rOK])
  | watched (hname : lib.toUpper cmd.name = text "WATCH") (hmulti : c.inMulti = false)
      (hmulti' : t.conn.inMulti = false) (hqueue : t.conn.theTx.queued = c.theTx.queued)
      (hauthed : t.conn.authed = c.authed) (hwritten : t.written = [rOK])

theorem Conn.Keeps.refl (c : Conn lib) : c.Keeps c := ⟨rfl, id⟩

theorem Conn.Keeps.trans {c c' c'' : Conn lib} (h : c.Keeps c') (h' : c'.Keeps c'') :
    c.Keeps c'' :=
  ⟨h'.pair.trans h.pair, fun hauthed => h'.authed (h.authed hauthed)⟩

theorem name_of_verbs {name : Bytes} {v : Verb} (hfound : verbs name = some v) :
    name = v.name := by
  have hname := List.find?_some hfound
  rw [decide_eq_true_eq] at hname
  exact hname.symm

section Subscriptions

variable (c : Conn lib) (s : Server L)

theorem keeps_closeTopic (topic : Bytes) :
    c.Keeps (closeTopic c s topic).1 ∧ (closeTopic c s topic).2.engine = s.engine := by
  unfold closeTopic
  split
  · exact ⟨.refl c, rfl⟩
  · exact ⟨⟨rfl, id⟩, rfl⟩

theorem keeps_doSubscribe (topics : List Bytes) :
    c.Keeps (doSubscribe c s topics).1 ∧ (doSubscribe c s topics).2.1.engine = s.engine ∧
      ∀ r ∈ (doSubscribe c s topics).2.2, isQueued r = false := by
  induction topics generalizing c s with
  | nil => exact ⟨.refl c, rfl, fun r hr => absurd hr List.not_mem_nil⟩
  | cons topic rest ih =>
      unfold doSubscribe
      split_ifs
      · obtain ⟨hkeeps, hengine, hwritten⟩ := ih c s
        exact ⟨hkeeps, hengine, List.forall_mem_cons.mpr ⟨rfl, hwritten⟩⟩
      · obtain ⟨hkeeps, hengine, hwritten⟩ :=
          ih { c with subs := c.subs.insert topic s.broker.subs.length }
            { s with
              broker := s.broker.subscribe topic 256
              resting := s.resting.subscribe topic 256 }
        have hsame : c.Keeps { c with subs := c.subs.insert topic s.broker.subs.length } :=
          ⟨rfl, id⟩
        exact ⟨hsame.trans hkeeps, hengine, List.forall_mem_cons.mpr ⟨rfl, hwritten⟩⟩

theorem keeps_doUnsubscribe (topics : List Bytes) :
    c.Keeps (doUnsubscribe c s topics).1 ∧ (doUnsubscribe c s topics).2.1.engine = s.engine ∧
      ∀ r ∈ (doUnsubscribe c s topics).2.2, isQueued r = false := by
  induction topics generalizing c s with
  | nil => exact ⟨.refl c, rfl, fun r hr => absurd hr List.not_mem_nil⟩
  | cons topic rest ih =>
      obtain ⟨hclosed, hsame⟩ := keeps_closeTopic c s topic
      obtain ⟨hkeeps, hengine, hwritten⟩ :=
        ih (closeTopic c s topic).1 (closeTopic c s topic).2
      exact ⟨hclosed.trans hkeeps, hengine.trans hsame,
        List.forall_mem_cons.mpr ⟨rfl, hwritten⟩⟩

theorem keeps_closeSubs :
    c.Keeps (closeSubs c s).1 ∧ (closeSubs c s).2.engine = s.engine := by
  unfold closeSubs
  generalize c.subs.keys = topics
  induction topics generalizing c s with
  | nil => exact ⟨.refl c, rfl⟩
  | cons topic rest ih =>
      obtain ⟨hkeeps, hengine⟩ := keeps_closeTopic c s topic
      obtain ⟨hkeeps', hengine'⟩ := ih (closeTopic c s topic).1 (closeTopic c s topic).2
      exact ⟨hkeeps.trans hkeeps', hengine'.trans hengine⟩

end Subscriptions

section Moves

variable {env : Env L} {c : Conn lib} {s : Server L} {cmd : Command} {t : Turn lib L}

theorem any_isQueued {replies : List Reply} (hall : ∀ r ∈ replies, isQueued r = false) :
    replies.any isQueued = false := by
  rw [List.any_eq_false]
  intro r hr
  rw [hall r hr]
  exact Bool.false_ne_true

theorem moves_refused {e : Bytes}
    (hexec : c.inMulti = true → lib.toUpper cmd.name = text "EXEC" →
      cfg.password ≠ [] ∧ c.authed = false) :
    Moves lib cfg env c s cmd ⟨c, s, [.error e]⟩ := by
  refine .keeps (.refl c) rfl ?_ ?_ ?_ (Or.inl rfl) hexec
  · exact fun hbegins => Bool.false_ne_true hbegins.2
  · exact fun hsucceeds => Bool.false_ne_true hsucceeds.2
  · exact fun hdiscards => Bool.false_ne_true hdiscards.2

theorem moves_other {v : Verb} (hname : lib.toUpper cmd.name = v.name)
    (hother : v.name ≠ text "MULTI" ∧ v.name ≠ text "EXEC" ∧ v.name ≠ text "DISCARD")
    (hkeeps : c.Keeps t.conn) (hqueued : ∀ r ∈ t.written, isQueued r = false)
    (hengine : t.server.engine = s.engine) : Moves lib cfg env c s cmd t := by
  obtain ⟨hmulti, hexec, hdiscard⟩ := hother
  refine .keeps hkeeps (any_isQueued hqueued) ?_ ?_ ?_ (Or.inl hengine) ?_
  · exact fun hbegins => hmulti (hname ▸ hbegins.1)
  · exact fun hsucceeds => hexec (hname ▸ hsucceeds.1)
  · exact fun hdiscards => hdiscard (hname ▸ hdiscards.1)
  · exact fun _ heq => absurd (hname ▸ heq) hexec

theorem moves_multi (hname : lib.toUpper cmd.name = text "MULTI")
    (hallowed : cfg.password = [] ∨ c.authed = true) :
    Moves lib cfg env c s cmd ⟨(beginMulti c).1, s, [(beginMulti c).2]⟩ := by
  cases hmulti : c.inMulti with
  | true =>
      have hbegin : beginMulti c = (c, rErr "ERR MULTI calls can not be nested") := by
        rw [beginMulti, if_pos hmulti]
      rw [hbegin]
      apply moves_refused
      intro _ hexec
      rw [hname] at hexec
      exact absurd hexec (by decide)
  | false =>
      have hwritten : (beginMulti c).2 = rOK := by
        rw [beginMulti, if_neg (by rw [hmulti]; decide)]
      refine .begun hname hmulti hallowed ?_
      rw [hwritten]

theorem moves_exec (hname : lib.toUpper cmd.name = text "EXEC") :
    Moves lib cfg env c s cmd
      ⟨(execTx env c s).1, (execTx env c s).2.1, [(execTx env c s).2.2]⟩ := by
  cases hmulti : c.inMulti with
  | false =>
      have hexec : execTx env c s = (c, s, rErr "ERR EXEC without MULTI") := by
        rw [execTx, if_neg (by rw [hmulti]; decide)]
      rw [hexec]
      apply moves_refused
      intro htrue
      rw [hmulti] at htrue
      contradiction
  | true =>
      have htx : c.theTx.inMulti = true := c.theTx_inMulti.trans hmulti
      by_cases hunchanged : s.txn.Unchanged (c.theTx.view : Txn.Tx L)
      · refine .executed hname hmulti ?_ ?_ ?_ <;>
          simp only [execTx, hmulti, htx, hunchanged, if_true, not_true_eq_false, if_false]
      · refine .aborted hname hmulti hunchanged ?_ ?_ ?_ <;>
          simp only [execTx, hmulti, htx, hunchanged, if_true, not_true_eq_false, if_false]

theorem moves_discard (hname : lib.toUpper cmd.name = text "DISCARD") :
    Moves lib cfg env c s cmd
      ⟨(discard c s).1, (discard c s).2.1, [(discard c s).2.2]⟩ := by
  have hexec : lib.toUpper cmd.name ≠ text "EXEC" := by
    rw [hname]
    decide
  unfold discard
  cases c.tx with
  | none => exact moves_refused fun _ heq => absurd heq hexec
  | some t =>
      refine .dropped ?_ hexec rfl rfl rfl
      rw [hname]
      decide

theorem moves_unwatch (hname : lib.toUpper cmd.name = text "UNWATCH") :
    Moves lib cfg env c s cmd
      ⟨(unwatch c s).1, (unwatch c s).2.1, [(unwatch c s).2.2]⟩ := by
  have hverb : lib.toUpper cmd.name = Verb.unwatch.name := hname
  have hok : ∀ r ∈ [rOK], isQueued r = false := by simp [rOK, rSimple, isQueued, text]
  unfold unwatch
  cases c.tx with
  | none => exact moves_other hverb (by decide) (.refl c) hok rfl
  | some t =>
      dsimp only
      split_ifs
      · exact moves_other hverb (by decide) (.refl c) hok rfl
      · refine .dropped ?_ ?_ rfl rfl rfl
        · rw [hname]
          decide
        · rw [hname]
          decide

theorem Tx.queued_watch (env : Env L) (t : Tx lib) (s : Server L) (keys : List Key) :
    (t.watch env s keys).1.queued = t.queued := by
  unfold Tx.watch
  split_ifs <;> rfl

theorem moves_watch (hname : lib.toUpper cmd.name = text "WATCH") :
    Moves lib cfg env c s cmd
      ⟨(watch env c s cmd).1, (watch env c s cmd).2.1, [(watch env c s cmd).2.2]⟩ := by
  have hverb : lib.toUpper cmd.name = Verb.watch.name := hname
  unfold watch
  split_ifs with hmulti
  · exact moves_other hverb (by decide) (.refl c) (by simp [rErr, isQueued]) rfl
  · have hmulti' := Bool.eq_false_iff.mpr hmulti
    split
    · exact moves_other hverb (by decide) (.refl c) (by simp [rErr, isQueued]) rfl
    · exact .watched hname hmulti' hmulti' (Tx.queued_watch env c.theTx s _) rfl rfl

theorem keeps_cmdAuth :
    c.Keeps (cmdAuth cfg c cmd).1 ∧ isQueued (cmdAuth cfg c cmd).2 = false := by
  unfold cmdAuth
  split
  · split_ifs
    · exact ⟨.refl c, rfl⟩
    · exact ⟨.refl c, rfl⟩
    · exact ⟨⟨rfl, fun _ => rfl⟩, rfl⟩
  · exact ⟨.refl c, rfl⟩

theorem isQueued_cmdCluster : isQueued (cmdCluster lib cfg env c s cmd) = false := by
  unfold cmdCluster
  dsimp only
  split_ifs
  · rfl
  · split <;> rfl
  · split <;> rfl
  · rfl

theorem keeps_cmdPublish :
    (cmdPublish s cmd).1.engine = s.engine ∧ isQueued (cmdPublish s cmd).2 = false := by
  unfold cmdPublish
  split <;> exact ⟨rfl, rfl⟩

theorem keeps_cmdLock :
    (cmdLock env c s cmd).1.engine = s.engine ∧ isQueued (cmdLock env c s cmd).2 = false := by
  unfold cmdLock
  split
  · split
    · exact ⟨rfl, rfl⟩
    · split_ifs
      · exact ⟨rfl, rfl⟩
      · refine ⟨rfl, ?_⟩
        dsimp only
        cases (s.locks.acquire env.now _ _ _ env.token).2 <;> rfl
  · exact ⟨rfl, rfl⟩

theorem keeps_cmdUnlock :
    (cmdUnlock s cmd).1.engine = s.engine ∧ isQueued (cmdUnlock s cmd).2 = false := by
  unfold cmdUnlock
  split
  · dsimp only
    split_ifs <;> exact ⟨rfl, rfl⟩
  · exact ⟨rfl, rfl⟩

theorem keeps_cmdRenewLock :
    (cmdRenewLock env s cmd).1.engine = s.engine ∧
      isQueued (cmdRenewLock env s cmd).2 = false := by
  unfold cmdRenewLock
  split
  · split
    · exact ⟨rfl, rfl⟩
    · split_ifs
      · exact ⟨rfl, rfl⟩
      · dsimp only
        split_ifs <;> exact ⟨rfl, rfl⟩
  · exact ⟨rfl, rfl⟩

theorem moves_run {v : Verb} (hverb : verbs (lib.toUpper cmd.name) = some v)
    (hallowed : cfg.password = [] ∨ c.authed = true ∨ lib.toUpper cmd.name ∈ beforeAuth) :
    Moves lib cfg env c s cmd (v.run lib cfg env c s cmd) := by
  have hname := name_of_verbs hverb
  have hone : ∀ {r : Reply}, isQueued r = false → ∀ r' ∈ [r], isQueued r' = false := by
    intro r hr r' hmem
    rwa [List.mem_singleton.mp hmem]
  cases v with
  | quit =>
      have hclose : (closeSubs c s).1.Keeps (closeSubs c s).1.close := ⟨rfl, id⟩
      exact moves_other hname (by decide) ((keeps_closeSubs c s).1.trans hclose) (hone rfl)
        (keeps_closeSubs c s).2
  | auth =>
      exact moves_other hname (by decide) keeps_cmdAuth.1 (hone keeps_cmdAuth.2) rfl
  | multi =>
      have hlate : lib.toUpper cmd.name ∉ beforeAuth := by
        rw [hname]
        decide
      exact moves_multi hname (hallowed.imp_right fun h => h.resolve_right hlate)
  | exec => exact moves_exec hname
  | discard => exact moves_discard hname
  | watch => exact moves_watch hname
  | unwatch => exact moves_unwatch hname
  | subscribe =>
      simp only [Verb.run]
      split
      · exact moves_other hname (by decide) (.refl c) (hone rfl) rfl
      · obtain ⟨hkeeps, hengine, hwritten⟩ := keeps_doSubscribe c s cmd.args
        exact moves_other hname (by decide) hkeeps hwritten hengine
  | unsubscribe =>
      simp only [Verb.run]
      split
      · exact moves_other hname (by decide) (.refl c) (hone rfl) rfl
      · obtain ⟨hkeeps, hengine, hwritten⟩ := keeps_doUnsubscribe c s
          (if cmd.args = [] then c.subs.keys else cmd.args)
        exact moves_other hname (by decide) hkeeps hwritten hengine
  | publish =>
      exact moves_other hname (by decide) (.refl c) (hone keeps_cmdPublish.2)
        keeps_cmdPublish.1
  | lock =>
      exact moves_other hname (by decide) (.refl c) (hone keeps_cmdLock.2)
        keeps_cmdLock.1
  | unlock =>
      exact moves_other hname (by decide) (.refl c) (hone keeps_cmdUnlock.2)
        keeps_cmdUnlock.1
  | renewLock =>
      exact moves_other hname (by decide) (.refl c) (hone keeps_cmdRenewLock.2)
        keeps_cmdRenewLock.1
  | info => exact moves_other hname (by decide) (.refl c) (hone rfl) rfl
  | cluster =>
      exact moves_other hname (by decide) (.refl c) (hone isQueued_cmdCluster) rfl
  | command => exact moves_other hname (by decide) (.refl c) (hone rfl) rfl

theorem notQueued_of_handler {h : Handler} (hfound : handlers (lib.toUpper cmd.name) = some h) :
    lib.toUpper cmd.name ∉ notQueued := by
  intro hmem
  have hnone : ∀ name ∈ notQueued, handlers name = none := by decide
  rw [hnone _ hmem] at hfound
  contradiction

theorem moves_enqueue (hmulti : c.inMulti = true) (hname : lib.toUpper cmd.name ∉ notQueued) :
    Moves lib cfg env c s cmd (enqueue lib c s cmd) := by
  unfold enqueue
  split
  · rename_i h hfound
    exact .queues ⟨cmd, h, hfound⟩ rfl hmulti hname rfl
  · apply moves_refused
    intro _ hexec
    rw [hexec] at hname
    exact absurd (by decide) hname

theorem moves_dispatch (env : Env L) (c : Conn lib) (s : Server L) (cmd : Command) :
    Moves lib cfg env c s cmd (dispatch lib cfg env c s cmd) := by
  unfold dispatch
  split_ifs with hgate hqueue
  · exact moves_refused fun _ _ => ⟨hgate.1, Bool.eq_false_iff.mpr hgate.2.1⟩
  · exact moves_enqueue hqueue.1 hqueue.2
  · have hallowed : cfg.password = [] ∨ c.authed = true ∨
        lib.toUpper cmd.name ∈ beforeAuth := by
      by_contra hnone
      push Not at hnone
      exact hgate hnone
    unfold execute
    cases hverb : verbs (lib.toUpper cmd.name) with
    | some v => exact moves_run hverb hallowed
    | none =>
        have hexec : lib.toUpper cmd.name ≠ text "EXEC" := by
          intro heq
          rw [heq] at hverb
          exact absurd hverb (by decide)
        dsimp only
        cases hhandler : handlers (lib.toUpper cmd.name) with
        | none => exact moves_refused fun _ heq => absurd heq hexec
        | some h =>
            have hlisted := notQueued_of_handler hhandler
            refine .keeps (.refl c) (any_isQueued ?_) ?_ ?_ ?_ ?_ fun _ heq => absurd heq hexec
            · intro r hr
              rw [List.mem_singleton.mp hr]
              exact isQueued_plan h cmd _
            · rintro ⟨heq, -⟩
              rw [heq] at hverb
              exact absurd hverb (by decide)
            · exact fun hsucceeds => hexec hsucceeds.1
            · rintro ⟨heq, -⟩
              rw [heq] at hverb
              exact absurd hverb (by decide)
            · have hout : c.inMulti = false :=
                Bool.eq_false_iff.mpr fun hmulti => hqueue ⟨hmulti, hlisted⟩
              exact Or.inr ⟨hout, h, hhandler, rfl⟩

theorem serve_of_closed {st : State lib L} (cmd : Command) (env : Env L)
    (hclosed : st.conn.closed = true) :
    serve lib cfg st cmd env = ⟨st.conn, st.server, []⟩ :=
  if_pos hclosed

theorem moves_serve (cfg : Config) {st : State lib L} (cmd : Command) (env : Env L)
    (hclosed : st.conn.closed = false) :
    Moves lib cfg env st.conn st.server.incCommands cmd (serve lib cfg st cmd env) := by
  rw [serve, if_neg (by rw [hclosed]; decide)]
  exact moves_dispatch env _ _ cmd

end Moves

/-! ## The two flags stay in step -/

section Flags

variable {env : Env L} {c : Conn lib} {s : Server L} {cmd : Command}

theorem inMulti_pair_iff (c : Conn lib) :
    c.pair.inMulti = true ↔ ∃ t, c.pair.tx = some t ∧ t.inMulti = true := by
  constructor
  · intro hmulti
    obtain ⟨t, htx⟩ := Option.isSome_iff_exists.mp (c.begun hmulti)
    exact ⟨t, htx, (c.inStep t htx).trans hmulti⟩
  · rintro ⟨t, htx, hmulti⟩
    exact (c.inStep t htx).symm.trans hmulti

theorem pair_beginMulti : c.pair.beginMulti = (beginMulti c).1.pair := by
  unfold Pair.beginMulti beginMulti
  cases hmulti : c.inMulti with
  | true => simp [Conn.pair, hmulti]
  | false =>
      have htx : (c.tx.getD .new).inMulti = false := c.theTx_inMulti.trans hmulti
      simp [Conn.pair, hmulti, Conn.theTx, Tx.multi, htx]

theorem pair_queue (hmulti : c.inMulti = true) (q : Queued lib) :
    c.pair.queue q = some (queue c q).pair := by
  have hbegun := c.begun hmulti
  unfold queue
  split
  · rename_i htx
    simp [htx] at hbegun
  · rename_i t htx
    have hin : t.inMulti = true := (c.inStep t htx).trans hmulti
    simp [Pair.queue, Conn.pair, htx, Tx.queue, hin]

theorem pair_execTx : c.pair.execTx = some (execTx env c s).1.pair := by
  unfold Pair.execTx execTx
  cases hmulti : c.inMulti with
  | false => simp [Conn.pair, hmulti]
  | true =>
      obtain ⟨t, htx⟩ := Option.isSome_iff_exists.mp (c.begun hmulti)
      have hconn : c.pair = ⟨some t, true⟩ := by rw [Conn.pair, htx, hmulti]
      rw [hconn, if_pos rfl, if_pos rfl]
      dsimp only
      split_ifs <;> rfl

theorem pair_discard : c.pair.discard = (discard c s).1.pair := by
  unfold Pair.discard discard
  cases htx : c.tx <;> simp [Conn.pair, htx, Conn.dropTx]

theorem pair_watch : c.pair.watch env s cmd = (watch env c s cmd).1.pair := by
  unfold Pair.watch watch
  by_cases hmulti : c.inMulti = true
  · simp [Conn.pair, hmulti]
  · have hpair : ¬ c.pair.inMulti = true := hmulti
    rw [if_neg hmulti, if_neg hpair]
    cases cmd.args <;> rfl

theorem pair_unwatch : c.pair.unwatch = (unwatch c s).1.pair := by
  unfold Pair.unwatch unwatch
  cases htx : c.tx with
  | none => simp [Conn.pair, htx]
  | some t =>
      by_cases hmulti : c.inMulti = true
      · simp [Conn.pair, htx, hmulti]
      · simp [Conn.pair, htx, hmulti, Conn.dropTx]

theorem pair_run (v : Verb) :
    c.pair.run env s cmd v = some (v.run lib cfg env c s cmd).conn.pair := by
  cases v with
  | multi => exact congrArg some pair_beginMulti
  | exec => exact pair_execTx
  | discard => exact congrArg some pair_discard
  | watch => exact congrArg some pair_watch
  | unwatch => exact congrArg some pair_unwatch
  | quit =>
      refine congrArg some ((keeps_closeSubs c s).1.pair.symm.trans ?_)
      rfl
  | auth => exact congrArg some keeps_cmdAuth.1.pair.symm
  | subscribe =>
      simp only [Verb.run, Pair.run]
      split
      · rfl
      · exact congrArg some (keeps_doSubscribe c s cmd.args).1.pair.symm
  | unsubscribe =>
      simp only [Verb.run, Pair.run]
      split
      · rfl
      · exact congrArg some (keeps_doUnsubscribe c s _).1.pair.symm
  | publish => rfl
  | lock => rfl
  | unlock => rfl
  | renewLock => rfl
  | info => rfl
  | cluster => rfl
  | command => rfl

theorem pair_serve (st : State lib L) (cmd : Command) (env : Env L) :
    st.conn.pair.serve lib cfg env st.conn st.server.incCommands cmd =
      some (serve lib cfg st cmd env).conn.pair := by
  unfold Pair.serve serve
  by_cases hclosed : st.conn.closed = true
  · rw [if_pos hclosed, if_pos hclosed]
  · rw [if_neg hclosed, if_neg hclosed]
    unfold dispatch
    split_ifs with hgate hpair hqueue hqueue
    · rfl
    · split
      · rename_i h hfound
        rw [enqueue_of_handler hfound]
        exact pair_queue hqueue.1 _
      · rename_i hnone
        rw [enqueue_of_none hnone]
    · exact absurd hpair hqueue
    · exact absurd hqueue hpair
    · unfold execute
      cases verbs (lib.toUpper cmd.name) with
      | some v => exact pair_run v
      | none =>
          dsimp only
          cases handlers (lib.toUpper cmd.name) <;> rfl

end Flags

end CacheServer
end DistCache
