import DistCache.SilentSteps
import DistCache.ManyClients
import DistCache.RenamedSteps
import DistCache.TransactionFlags

/-!
# Runs under other names for the keys

Two servers without limits get the same commands, the second one under new names for
the keys.  Their caches, coordinators and connections stay related, and the commands are
answered in the same way, whenever the dispatchers take their steps, as long as they are
done before an `EXEC`.  This needs that no key is empty when its new name is not, or the
other way round.
-/

namespace DistCache
namespace CacheServer

open Transition

variable {lib : Lib} {L L' : Layout} {f : Key → Key}

/-! ## Plans -/

structure Ran (f : Key → Key) {ρ : Type} (e : Engine L) (e' : Engine L') (r : Engine L × ρ)
    (r' : Engine L' × ρ) : Prop where
  cache : r.1.cache.Renamed f r'.1.cache
  result : r'.2 = r.2
  events : ∃ events : List Event, r.1.backlog = e.backlog ++ events ∧
    r'.1.backlog = e'.backlog ++ events.map (Event.rename f) ∧ ∀ ev ∈ events, ev.Keyed f

namespace Ran

variable {e : Engine L} {e' : Engine L'} {ρ ρ₁ ρ₂ : Type}

theorem refl (hcache : e.cache.Renamed f e'.cache) (x : ρ) : Ran f e e' (e, x) (e', x) :=
  ⟨hcache, rfl, [], by simp, by simp, by simp⟩

theorem trans {r : Engine L × ρ} {r' : Engine L' × ρ} {q : Engine L × ρ₁} {q' : Engine L' × ρ₁}
    (hfirst : Ran f e e' r r') (hsecond : Ran f r.1 r'.1 q q') (g : ρ → ρ₁ → ρ₂) :
    Ran f e e' (q.1, g r.2 q.2) (q'.1, g r'.2 q'.2) := by
  obtain ⟨events, hbacklog, hbacklog', hkeyed⟩ := hfirst.events
  obtain ⟨more, hmore, hmore', hkeyed'⟩ := hsecond.events
  refine ⟨hsecond.cache, ?_, events ++ more, ?_, ?_, ?_⟩
  · rw [hfirst.result, hsecond.result]
  · rw [hmore, hbacklog, List.append_assoc]
  · rw [hmore', hbacklog', List.map_append, List.append_assoc]
  · intro ev hmem
    rcases List.mem_append.mp hmem with hev | hev
    · exact hkeyed ev hev
    · exact hkeyed' ev hev

theorem exec (hf : f.Injective) (hcache : e.cache.Renamed f e'.cache) (clock : Clock)
    {op : KeyOp L} {op' : KeyOp L'} (hop : op.Renamed f op') :
    Ran f e e' (e.emit (e.cache.exec ⟨clock, op⟩), (e.cache.exec ⟨clock, op⟩).2.2)
      (e'.emit (e'.cache.exec ⟨clock, op'⟩), (e'.cache.exec ⟨clock, op'⟩).2.2) := by
  obtain ⟨hafter, hreply, hevents, hkeyed⟩ := hcache.exec hf clock hop
  refine ⟨hafter, hreply, _, Engine.backlog_emit _ _, ?_, hkeyed⟩
  rw [← hevents]
  exact Engine.backlog_emit _ _

theorem runCall (hf : f.Injective) (hcache : e.cache.Renamed f e'.cache) (clock : Clock)
    {call : List (KeyOp L)} {call' : List (KeyOp L')}
    (hcall : List.Forall₂ (KeyOp.Renamed f) call call') :
    Ran f e e' (runCall clock e call) (runCall clock e' call') := by
  induction hcall generalizing e e' with
  | nil => exact .refl hcache []
  | cons hop _ ih =>
      have hexec := Ran.exec hf hcache clock hop
      exact hexec.trans (ih hexec.cache) List.cons

theorem runCalls (hf : f.Injective) (hcache : e.cache.Renamed f e'.cache) (clock : ℕ → Clock)
    (i : ℕ) {calls : List (List (KeyOp L))} {calls' : List (List (KeyOp L'))}
    (hcalls : List.Forall₂ (List.Forall₂ (KeyOp.Renamed f)) calls calls') :
    Ran f e e' (runCalls clock i e calls) (runCalls clock i e' calls') := by
  induction hcalls generalizing e e' i with
  | nil => exact .refl hcache []
  | cons hcall _ ih =>
      have hhead := Ran.runCall hf hcache (clock i) hcall
      exact hhead.trans (ih hhead.cache (i + 1)) List.append

end Ran

/-- The plans make the same calls under the new names, and answer in the same way. -/
structure Plan.Renamed (f : Key → Key) (p : Plan L) (p' : Plan L') : Prop where
  calls : List.Forall₂ (List.Forall₂ (KeyOp.Renamed f)) p.calls p'.calls
  render : p'.render = p.render

namespace Plan.Renamed

theorem answer (r : Reply) : (Plan.answer r : Plan L).Renamed f (Plan.answer r : Plan L') :=
  ⟨.nil, rfl⟩

theorem one {op : KeyOp L} {op' : KeyOp L'} (hop : op.Renamed f op')
    (render : List DistCache.Reply → Reply) :
    Plan.Renamed f ⟨[[op]], render⟩ ⟨[[op']], render⟩ :=
  ⟨.cons (.cons hop .nil) .nil, rfl⟩

theorem each {op : Key → KeyOp L} {op' : Key → KeyOp L'} {keys : List Key}
    (hop : ∀ key ∈ keys, (op key).Renamed f (op' (f key)))
    (render : List DistCache.Reply → Reply) :
    Plan.Renamed f ⟨keys.map fun key => [op key], render⟩
      ⟨(keys.map f).map fun key => [op' key], render⟩ := by
  refine ⟨?_, rfl⟩
  induction keys with
  | nil => exact .nil
  | cons key rest ih =>
      refine .cons (.cons (hop key List.mem_cons_self) .nil) (ih ?_)
      exact fun other hmem => hop other (List.mem_cons_of_mem key hmem)

end Plan.Renamed

theorem Ran.planRun (hf : f.Injective) {e : Engine L} {e' : Engine L'}
    (hcache : e.cache.Renamed f e'.cache) (clock : ℕ → Clock) (i : ℕ) {p : Plan L}
    {p' : Plan L'} (hplan : p.Renamed f p') :
    Ran f e e' (p.run clock i e) (p'.run clock i e') := by
  obtain ⟨hafter, hresult, hevents⟩ := Ran.runCalls hf hcache clock i hplan.calls
  refine ⟨hafter, ?_, hevents⟩
  simp only [Plan.run, hresult, hplan.render]

theorem Ran.runQueued (hf : f.Injective) {e : Engine L} {e' : Engine L'}
    (hcache : e.cache.Renamed f e'.cache) (clock : ℕ → Clock) (i : ℕ)
    {queued queued' : List (Queued lib)}
    (hqueued : List.Forall₂
      (fun q q' => (q.plan : Plan L).Renamed f (q'.plan : Plan L')) queued queued') :
    Ran f e e' (runQueued clock i e queued) (runQueued clock i e' queued') := by
  induction hqueued generalizing e e' i with
  | nil => exact .refl hcache []
  | @cons q q' _ _ hplan _ ih =>
      have hhead := Ran.planRun hf hcache clock i hplan
      have hlength : (q'.plan : Plan L').calls.length = (q.plan : Plan L).calls.length :=
        hplan.calls.length_eq.symm
      simp only [CacheServer.runQueued, hlength]
      exact hhead.trans (ih hhead.cache _) List.cons

theorem Word.plan_renamed {word : Word} {h : Handler} (hrole : word.role = .inl h)
    (name : Bytes) {args : List Bytes} (hkeys : ∀ key ∈ word.keys args, KeepsEmpty f key) :
    (h.plan lib ⟨name, args⟩ : Plan L).Renamed f
      (h.plan lib ⟨name, word.renameArgs f args⟩ : Plan L') := by
  cases word <;> cases hrole
  case set =>
      rcases args with _ | ⟨key, _ | ⟨value, opts⟩⟩
      · exact .answer _
      · exact .answer _
      · simp only [Handler.plan, cmdSet, renameArgs, List.modifyHead_cons]
        cases setOptions lib 0 opts with
        | error r => exact .answer r
        | ok ttl => exact .one (.setTTL (hkeys key (by simp [keys])) value ttl) _
  case get =>
      rcases args with _ | ⟨key, _ | ⟨second, rest⟩⟩
      · exact .answer _
      · exact .one (.get (hkeys key (by simp [keys]))) _
      · exact .answer _
  case del =>
      cases args with
      | nil => exact .answer _
      | cons key rest => exact .each (fun key hmem => .delete (hkeys key hmem)) _
  case exists_ =>
      cases args with
      | nil => exact .answer _
      | cons key rest => exact .each (fun key hmem => .exists_ (hkeys key hmem)) _
  case expire =>
      rcases args with _ | ⟨key, _ | ⟨arg, _ | ⟨third, rest⟩⟩⟩
      · exact .answer _
      · exact .answer _
      · simp only [Handler.plan, CacheServer.expire, renameArgs, List.modifyHead_cons]
        cases parseInt arg with
        | none => exact .answer _
        | some n => exact .one (.expire (hkeys key (by simp [keys])) _) _
      · exact .answer _
  case ttl =>
      rcases args with _ | ⟨key, _ | ⟨second, rest⟩⟩
      · exact .answer _
      · exact .one (.ttl (hkeys key (by simp [keys]))) _
      · exact .answer _
  case incrBy =>
      rcases args with _ | ⟨key, _ | ⟨arg, _ | ⟨third, rest⟩⟩⟩
      · exact .answer _
      · exact .answer _
      · simp only [Handler.plan, CacheServer.incrBy, renameArgs, List.modifyHead_cons, if_true]
        cases parseInt arg with
        | none => exact .answer _
        | some n => exact .one (.incrBy (hkeys key (by simp [keys])) _) _
      · exact .answer _

/-! ## Servers and connections -/

structure Server.Renamed (f : Key → Key) (s : Server L) (s' : Server L') : Prop where
  cache : s.engine.cache.Renamed f s'.engine.cache
  settled : s.settled.Renamed f s'.settled

namespace Server.Renamed

variable {s next : Server L} {s' next' : Server L'}

theorem quiet (hserver : s.Renamed f s') (hquiet : s.Quiet next) (hquiet' : s'.Quiet next') :
    next.Renamed f next' := by
  constructor
  · rw [hquiet.cache, hquiet'.cache]
    exact hserver.cache
  · rw [hquiet.settled, hquiet'.settled]
    exact hserver.settled

theorem ran (hf : f.Injective) (hserver : s.Renamed f s') {ρ : Type} {r : Engine L × ρ}
    {r' : Engine L' × ρ} (hran : Ran f s.engine s'.engine r r') :
    Server.Renamed f { s with engine := r.1 } { s' with engine := r'.1 } := by
  obtain ⟨events, hbacklog, hbacklog', hkeyed⟩ := hran.events
  refine ⟨hran.cache, ?_⟩
  simp only [Server.settled, hbacklog, hbacklog', List.foldl_append]
  exact hserver.settled.foldl_onEvent hf hkeyed

theorem of_backlog (hcache : s.engine.cache.Renamed f s'.engine.cache)
    (hbacklog : s.engine.backlog = []) (hbacklog' : s'.engine.backlog = [])
    (htxn : s.txn.Renamed f s'.txn) : s.Renamed f s' := by
  refine ⟨hcache, ?_⟩
  rw [settled_of_backlog hbacklog, settled_of_backlog hbacklog']
  exact htxn

theorem txn_of_backlog (hserver : s.Renamed f s') (hbacklog : s.engine.backlog = [])
    (hbacklog' : s'.engine.backlog = []) : s.txn.Renamed f s'.txn := by
  rw [← settled_of_backlog hbacklog, ← settled_of_backlog hbacklog']
  exact hserver.settled

end Server.Renamed

/-- The connections are in the same state, with the same keys watched and the same
commands queued under the new names. -/
structure Conn.Renamed (f : Key → Key) (L L' : Layout) (c c' : Conn lib) : Prop where
  authed : c'.authed = c.authed
  inMulti : c'.inMulti = c.inMulti
  closed : c'.closed = c.closed
  watched : Txn.RenamedWatch f c.theTx.watched c'.theTx.watched
  queued : List.Forall₂ (fun q q' => (q.plan : Plan L).Renamed f (q'.plan : Plan L'))
    c.theTx.queued c'.theTx.queued

structure Turn.Renamed (f : Key → Key) (t : Turn lib L) (t' : Turn lib L') : Prop where
  conn : t.conn.Renamed f L L' t'.conn
  server : t.server.Renamed f t'.server
  written : t'.written = t.written

namespace Conn

theorem theTx_queue {c : Conn lib} (hmulti : c.inMulti = true) (q : Queued lib) :
    (queue c q).theTx = { c.theTx with queued := c.theTx.queued ++ [q] } ∧
      (queue c q).authed = c.authed ∧ (queue c q).inMulti = c.inMulti ∧
      (queue c q).closed = c.closed := by
  have hbegun := c.begun hmulti
  unfold queue
  split
  · rename_i hnone
    rw [hnone] at hbegun
    contradiction
  · rename_i t htx
    have hin : t.inMulti = true := (c.inStep t htx).trans hmulti
    simp [theTx, htx, hin]

namespace Renamed

variable {c c' : Conn lib}

theorem dropTx (hconn : c.Renamed f L L' c') : c.dropTx.Renamed f L L' c'.dropTx where
  authed := hconn.authed
  inMulti := rfl
  closed := hconn.closed
  watched := by
    intro name version
    simp [theTx, Conn.dropTx, Tx.new]
  queued := .nil

theorem queue (hconn : c.Renamed f L L' c') (hmulti : c.inMulti = true) {q q' : Queued lib}
    (hplan : (q.plan : Plan L).Renamed f (q'.plan : Plan L')) :
    (queue c q).Renamed f L L' (queue c' q') := by
  obtain ⟨htx, hauthed, hin, hclosed⟩ := theTx_queue hmulti q
  obtain ⟨htx', hauthed', hin', hclosed'⟩ := theTx_queue (hconn.inMulti.trans hmulti) q'
  constructor
  · rw [hauthed, hauthed', hconn.authed]
  · rw [hin, hin', hconn.inMulti]
  · rw [hclosed, hclosed', hconn.closed]
  · rw [htx, htx']
    exact hconn.watched
  · rw [htx, htx']
    exact List.rel_append hconn.queued (.cons hplan .nil)

end Renamed

end Conn

/-! ## The commands -/

section Commands

variable {c c' : Conn lib} {s : Server L} {s' : Server L'}

theorem beginMulti_renamed (hconn : c.Renamed f L L' c') :
    (beginMulti c).1.Renamed f L L' (beginMulti c').1 ∧
      (beginMulti c').2 = (beginMulti c).2 := by
  simp only [beginMulti, hconn.inMulti]
  cases hmulti : c.inMulti with
  | true => exact ⟨hconn, rfl⟩
  | false => exact ⟨⟨hconn.authed, rfl, hconn.closed, hconn.watched, hconn.queued⟩, rfl⟩

theorem execTx_renamed (hf : f.Injective) (hconn : c.Renamed f L L' c')
    (hserver : s.Renamed f s') (hbacklog : s.engine.backlog = [])
    (hbacklog' : s'.engine.backlog = []) (clock : ℕ → Clock) :
    Turn.Renamed f
      ⟨(execTx (Clients.env clock) c s).1, (execTx (Clients.env clock) c s).2.1,
        [(execTx (Clients.env clock) c s).2.2]⟩
      ⟨(execTx (Clients.env clock) c' s').1, (execTx (Clients.env clock) c' s').2.1,
        [(execTx (Clients.env clock) c' s').2.2]⟩ := by
  cases hmulti : c.inMulti with
  | false =>
      have hmulti' := hconn.inMulti.trans hmulti
      simp only [execTx, hmulti, hmulti', Bool.false_eq_true, if_false]
      exact ⟨hconn, hserver, rfl⟩
  | true =>
      have hmulti' := hconn.inMulti.trans hmulti
      have hin : c.theTx.inMulti = true := c.theTx_inMulti.trans hmulti
      have hin' : c'.theTx.inMulti = true := c'.theTx_inMulti.trans hmulti'
      have hwatch : Txn.RenamedWatch f (c.theTx.view : Txn.Tx L).watched
          (c'.theTx.view : Txn.Tx L').watched := hconn.watched
      have htxn := hserver.txn_of_backlog hbacklog hbacklog'
      have hreleased : Server.Renamed f
          { s with txn := s.txn.release (c.theTx.view : Txn.Tx L) }
          { s' with txn := s'.txn.release (c'.theTx.view : Txn.Tx L') } :=
        .of_backlog hserver.cache hbacklog hbacklog' (htxn.release hf hwatch)
      simp only [execTx, hmulti, hmulti', hin, hin', if_true, not_true_eq_false, if_false,
        htxn.unchanged_iff hwatch]
      by_cases hunchanged : s.txn.Unchanged (c.theTx.view : Txn.Tx L)
      · simp only [hunchanged, if_true]
        have hran := Ran.runQueued hf hserver.cache clock 0 hconn.queued
        exact ⟨hconn.dropTx, hreleased.ran hf hran,
          congrArg (fun found => [rArray found]) hran.result⟩
      · simp only [hunchanged, if_false]
        exact ⟨hconn.dropTx, hreleased, rfl⟩

theorem txWatch_renamed (hf : f.Injective) (hserver : s.Renamed f s') {t t' : Tx lib}
    (hin : t.inMulti = false) (hin' : t'.inMulti = false)
    (hwatch : Txn.RenamedWatch f t.watched t'.watched) (clock : ℕ → Clock) (keys : List Key) :
    Server.Renamed f (t.watch (Clients.env clock) s keys).2
        (t'.watch (Clients.env clock) s' (keys.map f)).2 ∧
      Txn.RenamedWatch f (t.watch (Clients.env clock) s keys).1.watched
        (t'.watch (Clients.env clock) s' (keys.map f)).1.watched := by
  obtain ⟨hcache, hbacklog, htxn⟩ := Server.settle_spec { s with engine := s.engine.sync }
  obtain ⟨hcache', hbacklog', htxn'⟩ := Server.settle_spec { s' with engine := s'.engine.sync }
  rw [Server.settled_sync] at htxn htxn'
  have hco : (Server.settle { s with engine := s.engine.sync }).txn.Renamed f
      (Server.settle { s' with engine := s'.engine.sync }).txn := by
    rw [htxn, htxn']
    exact hserver.settled
  have hview : Txn.RenamedWatch f (t.view : Txn.Tx L).watched (t'.view : Txn.Tx L').watched :=
    hwatch
  obtain ⟨hco', hwatch'⟩ := hco.watch hf hview keys
  simp only [Tx.watch, hin, hin', Bool.false_eq_true, if_false]
  refine ⟨.of_backlog ?_ hbacklog hbacklog' hco', hwatch'⟩
  have hsame : (Server.settle { s with engine := s.engine.sync }).engine.cache.Renamed f
      (Server.settle { s' with engine := s'.engine.sync }).engine.cache := by
    rw [hcache, hcache']
    exact hserver.cache
  exact hsame

theorem watch_renamed (hf : f.Injective) (hconn : c.Renamed f L L' c')
    (hserver : s.Renamed f s') (clock : ℕ → Clock) (name : Bytes) (args : List Bytes) :
    Turn.Renamed f
      ⟨(watch (Clients.env clock) c s ⟨name, args⟩).1,
        (watch (Clients.env clock) c s ⟨name, args⟩).2.1,
        [(watch (Clients.env clock) c s ⟨name, args⟩).2.2]⟩
      ⟨(watch (Clients.env clock) c' s' ⟨name, args.map f⟩).1,
        (watch (Clients.env clock) c' s' ⟨name, args.map f⟩).2.1,
        [(watch (Clients.env clock) c' s' ⟨name, args.map f⟩).2.2]⟩ := by
  cases hmulti : c.inMulti with
  | true =>
      have hmulti' := hconn.inMulti.trans hmulti
      simp only [watch, hmulti, hmulti', if_true]
      exact ⟨hconn, hserver, rfl⟩
  | false =>
      have hmulti' := hconn.inMulti.trans hmulti
      cases args with
      | nil =>
          simp only [watch, hmulti, hmulti', Bool.false_eq_true, if_false, List.map_nil]
          exact ⟨hconn, hserver, rfl⟩
      | cons key rest =>
          simp only [watch, hmulti, hmulti', Bool.false_eq_true, if_false, List.map_cons]
          have hin : c.theTx.inMulti = false := c.theTx_inMulti.trans hmulti
          have hin' : c'.theTx.inMulti = false := c'.theTx_inMulti.trans hmulti'
          obtain ⟨hserver', hwatch⟩ :=
            txWatch_renamed hf hserver hin hin' hconn.watched clock (key :: rest)
          refine ⟨⟨hconn.authed, rfl, hconn.closed, hwatch, ?_⟩, hserver', rfl⟩
          simp only [Conn.theTx, Option.getD_some, Tx.queued_watch]
          exact hconn.queued

theorem enqueue_renamed (hconn : c.Renamed f L L' c') (hserver : s.Renamed f s')
    (hmulti : c.inMulti = true) {sent : Sent lib} {h : Handler}
    (hrole : sent.word.role = .inl h) (hkeys : ∀ key ∈ sent.keys, KeepsEmpty f key) :
    Turn.Renamed f (enqueue lib c s sent.cmd) (enqueue lib c' s' (sent.rename f).cmd) := by
  have hfound : handlers (lib.toUpper sent.cmd.name) = some h := by
    rw [sent.spelled]
    exact (Word.of_handler hrole).2.1
  have hfound' : handlers (lib.toUpper (sent.rename f).cmd.name) = some h := hfound
  rw [enqueue_of_handler hfound, enqueue_of_handler hfound']
  exact ⟨hconn.queue hmulti (Word.plan_renamed hrole sent.cmd.name hkeys), hserver, rfl⟩

theorem execute_renamed (hf : f.Injective) (cfg : Config) (hconn : c.Renamed f L L' c')
    (hserver : s.Renamed f s') {sent : Sent lib} (clock : ℕ → Clock)
    (hdrained : sent.word = .exec → s.engine.backlog = [] ∧ s'.engine.backlog = [])
    (hkeys : ∀ key ∈ sent.keys, KeepsEmpty f key) :
    Turn.Renamed f (execute lib cfg (Clients.env clock) c s sent.cmd)
      (execute lib cfg (Clients.env clock) c' s' (sent.rename f).cmd) := by
  have hname : lib.toUpper (sent.rename f).cmd.name = sent.word.name := sent.spelled
  unfold execute
  rw [sent.spelled, hname]
  cases hrole : sent.word.role with
  | inl h =>
      obtain ⟨hverb, hhandler, _⟩ := Word.of_handler hrole
      rw [hverb, hhandler]
      have hplan : (h.plan lib sent.cmd : Plan L).Renamed f
          (h.plan lib (sent.rename f).cmd : Plan L') :=
        Word.plan_renamed hrole sent.cmd.name hkeys
      have hran := Ran.planRun hf hserver.cache clock 0 hplan
      exact ⟨hconn, hserver.ran hf hran, congrArg (fun reply => [reply]) hran.result⟩
  | inr v =>
      rw [(Word.of_verb hrole).1]
      obtain ⟨⟨name, args⟩, word, hspelled⟩ := sent
      cases word with
      | watch =>
          cases hrole
          exact watch_renamed hf hconn hserver clock name args
      | multi =>
          cases hrole
          obtain ⟨hconn', hreply⟩ := beginMulti_renamed hconn
          exact ⟨hconn', hserver, congrArg (fun reply => [reply]) hreply⟩
      | exec =>
          cases hrole
          obtain ⟨hbacklog, hbacklog'⟩ := hdrained rfl
          exact execTx_renamed hf hconn hserver hbacklog hbacklog' clock
      | _ => cases hrole

theorem serve_renamed (hf : f.Injective) (cfg : Config) (hconn : c.Renamed f L L' c')
    (hserver : s.Renamed f s') {sent : Sent lib} (clock : ℕ → Clock)
    (hdrained : sent.word = .exec → s.engine.backlog = [] ∧ s'.engine.backlog = [])
    (hkeys : ∀ key ∈ sent.keys, KeepsEmpty f key) :
    Turn.Renamed f (serve lib cfg ⟨c, s⟩ sent.cmd (Clients.env clock))
      (serve lib cfg ⟨c', s'⟩ (sent.rename f).cmd (Clients.env clock)) := by
  have hname : lib.toUpper (sent.rename f).cmd.name = sent.word.name := sent.spelled
  have hserver' : s.incCommands.Renamed f s'.incCommands := ⟨hserver.cache, hserver.settled⟩
  simp only [serve, dispatch, hconn.closed, hconn.authed, hconn.inMulti, hname, sent.spelled]
  split_ifs with hclosed hgate hqueued
  · exact ⟨hconn, hserver, rfl⟩
  · exact ⟨hconn, hserver', rfl⟩
  · cases hrole : sent.word.role with
    | inl h => exact enqueue_renamed hconn hserver' hqueued.1 hrole hkeys
    | inr v => exact absurd (Word.of_verb hrole).2 hqueued.2
  · exact execute_renamed hf cfg hconn hserver' clock hdrained hkeys

end Commands

/-! ## Runs -/

def Sent.renameIn (f : Key → Key) (p : ℕ × Sent lib × (ℕ → Clock)) :
    ℕ × Sent lib × (ℕ → Clock) :=
  (p.1, p.2.1.rename f, p.2.2)

/-- The keys of the move and their new names are empty together. -/
def Move.KeepsEmpty (f : Key → Key) : Move lib → Prop
  | .send _ sent _ => ∀ key ∈ sent.keys, DistCache.KeepsEmpty f key
  | .dispatcher => True

namespace Clients

structure Renamed (f : Key → Key) (s : Clients lib L) (s' : Clients lib L') : Prop where
  conns : ∀ i, (s.conns i).Renamed f L L' (s'.conns i)
  server : s.server.Renamed f s'.server

theorem renamed_start {c : Cache L} {c' : Cache L'} (hcache : c.Renamed f c') (clock : ℤ) :
    (start c clock : Clients lib L).Renamed f (start c' clock) where
  conns := by
    intro i
    refine ⟨rfl, rfl, rfl, ?_, .nil⟩
    intro name version
    simp [start, Conn.theTx, Conn.new, Tx.new]
  server := ⟨hcache, rfl, rfl⟩

theorem Renamed.send (hf : f.Injective) (cfg : Config) {s next : Clients lib L}
    {s' next' : Clients lib L'} (hrenamed : s.Renamed f s') {i : ℕ} {sent : Sent lib}
    {clock : ℕ → Clock} (hdrained : s.ExecDrained (.send i sent clock))
    (hdrained' : s'.ExecDrained (.send i (sent.rename f) clock))
    (hkeys : (Move.send i sent clock).KeepsEmpty f)
    (hstep : s.step cfg (.send i sent clock) = some next)
    (hstep' : s'.step cfg (.send i (sent.rename f) clock) = some next') :
    next.Renamed f next' ∧ s'.replies cfg (.send i (sent.rename f) clock) =
      s.replies cfg (.send i sent clock) := by
  have hturn : Turn.Renamed f (s.turn cfg i sent clock)
      (s'.turn cfg i (sent.rename f) clock) := by
    apply serve_renamed hf cfg (hrenamed.conns i) hrenamed.server clock _ hkeys
    intro hexec
    exact ⟨Server.backlog_of_drained (hdrained hexec),
      Server.backlog_of_drained (hdrained' hexec)⟩
  cases hstep
  cases hstep'
  refine ⟨⟨?_, hturn.server⟩, ?_⟩
  · intro j
    by_cases hj : j = i
    · subst hj
      simp only [Function.update_self]
      exact hturn.conn
    · simp only [Function.update_of_ne hj]
      exact hrenamed.conns j
  · simp only [replies, hturn.written]

theorem inStep_renamed (hf : f.Injective) (cfg : Config) :
    InStep (step cfg : Clients lib L → Move lib → Option (Clients lib L))
      (step cfg : Clients lib L' → Move lib → Option (Clients lib L')) (Renamed f)
      (fun s move => s.ExecDrained move ∧ move.KeepsEmpty f) ExecDrained
      (fun move => move.sent?.map (Sent.renameIn f)) Move.sent? (replies cfg) (replies cfg) where
  silent := by
    intro s s' move next hrenamed _ hsilent hstep
    cases move with
    | send i sent clock => contradiction
    | dispatcher =>
        obtain ⟨server, hdispatcher, rfl⟩ := Option.map_eq_some_iff.mp hstep
        have hquiet := (Server.quiet_dispatcher hdispatcher).1
        exact ⟨⟨hrenamed.conns, hrenamed.server.quiet hquiet (.refl _)⟩, rfl⟩
  silent' := by
    intro s s' move next hrenamed _ hsilent hstep
    cases move with
    | send i sent clock => contradiction
    | dispatcher =>
        obtain ⟨server, hdispatcher, rfl⟩ := Option.map_eq_some_iff.mp hstep
        have hquiet := (Server.quiet_dispatcher hdispatcher).1
        exact ⟨⟨hrenamed.conns, hrenamed.server.quiet (.refl _) hquiet⟩, rfl⟩
  both := by
    intro s s' move move' v next next' hrenamed hmove hmove' hsent hsent' hstep hstep'
    cases move with
    | dispatcher => contradiction
    | send i sent clock =>
        cases move' with
        | dispatcher => contradiction
        | send i' sent' clock' =>
            have hsame : (i, sent.rename f, clock) = (i', sent', clock') :=
              Option.some.inj (hsent.trans hsent'.symm)
            cases hsame
            exact hrenamed.send hf cfg hmove.1 hmove' hmove.2 hstep hstep'

/-- Two runs of a new server, the second with the commands of the first under the
new names.  The dispatcher is drained before every `EXEC`, and takes its other steps
at any time. -/
structure TwoRuns (f : Key → Key) (cfg : Config) (c : Cache L) (clock : ℤ)
    (moves moves' : List (Move lib)) (final final' : Clients lib L) : Prop where
  run : run (step cfg) (start c clock) moves = some final
  run' : Transition.run (step cfg) (start c clock) moves' = some final'
  drained : Along (step cfg) ExecDrained (start c clock) moves
  drained' : Along (step cfg) ExecDrained (start c clock) moves'
  sent : moves'.filterMap Move.sent? = (moves.filterMap Move.sent?).map (Sent.renameIn f)

/-- The replies are the same, and so is what the server has counted. -/
structure SameOutcome (cfg : Config) (c : Cache L) (clock : ℤ) (moves moves' : List (Move lib))
    (final final' : Clients lib L) : Prop where
  replies : observe (step cfg) (replies cfg) (start c clock) moves' =
    observe (step cfg) (Clients.replies cfg) (start c clock) moves
  counters : final'.server.engine.cache.counters = final.server.engine.cache.counters

theorem TwoRuns.same (hf : f.Injective) {cfg : Config} {c : Cache L} {clock : ℤ}
    {moves moves' : List (Move lib)} {final final' : Clients lib L}
    (hruns : TwoRuns f cfg c clock moves moves' final final') (hcache : c.Renamed f c)
    (hkeys : ∀ move ∈ moves, move.KeepsEmpty f) :
    SameOutcome cfg c clock moves moves' final final' := by
  have hall : Along (step cfg) (fun _ move => move.KeepsEmpty f)
      (start c clock : Clients lib L) moves := by
    rw [along_iff_forall_split]
    rintro before move after rfl _ _
    exact hkeys move (by simp)
  have hsent := hruns.sent
  rw [List.map_filterMap] at hsent
  obtain ⟨hfinal, hreplies⟩ := (inStep_renamed hf cfg).run_same (renamed_start hcache clock)
    (Along.and _ hruns.drained hall) hruns.drained' hruns.run hruns.run' hsent
  exact ⟨hreplies, hfinal.server.cache.counters⟩

/-! ## The empty key -/

/-- New names for the keys make no difference to any run of a server without
limits. -/
def Indifferent (f : Key → Key) : Prop :=
  ∀ (lib : Lib) (cfg : Config) (limits : DistCache.Config) (hash : Key → ℕ)
    (rng : ℕ → ℕ → ℕ) (clock : ℤ) (moves moves' : List (Move lib))
    (final final' : Clients lib (limits.layout hash)),
    (Cache.new limits hash rng).Unlimited →
    TwoRuns f cfg (.new limits hash rng) clock moves moves' final final' →
    SameOutcome cfg (.new limits hash rng) clock moves moves' final final'

def readLate (key : Key) : List (Move lib) :=
  [.send 0 (Word.set.sent [key, [], text "PX", text "1"]) fun _ => ⟨0, 0⟩,
    .send 0 (Word.get.sent [key]) fun _ => ⟨second, second⟩]

theorem step_of_one {cfg : Config} (hpassword : cfg.password = []) (s : Clients lib L) (i : ℕ)
    (hclosed : (s.conns i).closed = false) (hmulti : (s.conns i).inMulti = false)
    (sent : Sent lib) {h : Handler} (hrole : sent.word.role = .inl h) {op : KeyOp L}
    {render : List DistCache.Reply → Reply} (hplan : h.plan lib sent.cmd = ⟨[[op]], render⟩)
    (clock : ℕ → Clock) :
    ∃ next, s.step cfg (.send i sent clock) = some next ∧ next.conns = s.conns ∧
      next.server.engine.cache = (s.server.engine.cache.exec ⟨clock 0, op⟩).1 := by
  obtain ⟨hverb, hhandler, _⟩ := Word.of_handler hrole
  refine ⟨_, rfl, ?_, ?_⟩
  · simp only [turn, serve, dispatch, execute, hclosed, hmulti, hpassword, sent.spelled, hverb,
      hhandler, Bool.false_eq_true, if_false, ne_eq, not_true_eq_false, false_and]
    exact Function.update_eq_self i s.conns
  · simp only [turn, serve, dispatch, execute, hclosed, hmulti, hpassword, sent.spelled, hverb,
      hhandler, Bool.false_eq_true, if_false, ne_eq, not_true_eq_false, false_and, hplan]
    rfl

theorem setOptions_px (lib : Lib) :
    setOptions lib 0 [text "PX", text "1"] = .ok millisecond := by
  have hupper : lib.toUpper (text "PX") = text "PX" := rfl
  have hother : text "PX" ≠ text "EX" := by decide
  have hnumber : parseInt (text "1") = some 1 := by decide
  have hpositive : ¬ (1 : ℤ) ≤ 0 := by decide
  have hfits : int64 (1 * millisecond) = millisecond := by decide
  simp only [setOptions, hupper, hother, hnumber, hpositive, hfits, false_or, if_true, if_false]

theorem expirations_exec_get {c : Cache L} {key : Key} {it : Item} {clock : Clock}
    (hcontents : c.contents key = some it) (hexpired : it.expired clock.first) :
    (c.exec ⟨clock, .get key⟩).1.counters.expirations =
      c.counters.expirations + expiredCount key := by
  have hlookup : (c.shards (L.index key)).items.lookup key = some it := hcontents
  simp only [Cache.exec, KeyOp.run, KeyOp.shard, Shard.get, Shard.lookupLive, hlookup, hexpired,
    if_true, Counters.add]

theorem expirations_readLate (lib : Lib) {c : Cache L} (hunlimited : c.Unlimited) (clock : ℤ)
    (key : Key) :
    ∃ final, run (step ⟨[], []⟩) (start c clock : Clients lib L) (readLate key) = some final ∧
      final.server.engine.cache.counters.expirations =
        c.counters.expirations + expiredCount key := by
  have hplan : (Handler.plan lib ⟨text "SET", [key, [], text "PX", text "1"]⟩ .set : Plan L) =
      ⟨[[.setTTL key [] millisecond]], fun _ => rOK⟩ := by
    simp only [Handler.plan, cmdSet, setOptions_px]
  have hplan' : (Handler.plan lib ⟨text "GET", [key]⟩ .get : Plan L) =
      ⟨[[.get key]], fun found => rFound (found.headD .done)⟩ := by rfl
  have hpassword : (⟨[], []⟩ : Config).password = [] := rfl
  obtain ⟨next, hset, hconns, hcache⟩ := step_of_one hpassword (start c clock : Clients lib L) 0
    rfl rfl (Word.set.sent [key, [], text "PX", text "1"]) rfl hplan fun _ => ⟨0, 0⟩
  obtain ⟨final, hget, _, hcache'⟩ := step_of_one hpassword next 0 (by rw [hconns]; rfl)
    (by rw [hconns]; rfl) (Word.get.sent [key]) rfl hplan' fun _ => ⟨second, second⟩
  refine ⟨final, ?_, ?_⟩
  · simp only [readLate, run_cons, hset, hget, Option.bind_some, run_nil]
  · have hcontents : (c.exec ⟨⟨0, 0⟩, .setTTL key [] millisecond⟩).1.contents key =
        some ⟨[], deadline 0 millisecond⟩ := by
      have hkey : (KeyOp.setTTL key [] millisecond : KeyOp L).key? = some key := rfl
      rw [Cache.contents_exec_of_key hunlimited _ hkey, Function.update_self]
      rfl
    have hcount : (c.exec ⟨⟨0, 0⟩, .setTTL key [] millisecond⟩).1.counters.expirations =
        c.counters.expirations := rfl
    have hexpired : (⟨[], deadline 0 millisecond⟩ : Item).expired second := by decide
    rw [hcache', hcache, ← hcount]
    exact expirations_exec_get hcontents hexpired

theorem twoRuns_readLate (f : Key → Key) (lib : Lib) {c : Cache L} (hunlimited : c.Unlimited)
    (clock : ℤ) (key : Key) :
    ∃ final final' : Clients lib L,
      TwoRuns f ⟨[], []⟩ c clock (readLate key) (readLate (f key)) final final' ∧
      final.server.engine.cache.counters.expirations =
        c.counters.expirations + expiredCount key ∧
      final'.server.engine.cache.counters.expirations =
        c.counters.expirations + expiredCount (f key) := by
  obtain ⟨final, hrun, hexpirations⟩ := expirations_readLate lib hunlimited clock key
  obtain ⟨final', hrun', hexpirations'⟩ := expirations_readLate lib hunlimited clock (f key)
  have hdrained : ∀ other, Along (step ⟨[], []⟩) ExecDrained (start c clock : Clients lib L)
      (readLate other) := fun _ => ⟨nofun, fun _ _ => ⟨nofun, fun _ _ => trivial⟩⟩
  exact ⟨final, final', ⟨hrun, hrun', hdrained key, hdrained (f key), rfl⟩, hexpirations,
    hexpirations'⟩

/-- Two runs agree when the keys of the run and their new names are empty together,
and all runs agree exactly if the empty key keeps its name. -/
theorem renaming_indifferent_iff (hf : f.Injective) :
    (∀ (lib : Lib) (cfg : Config) (limits : DistCache.Config) (hash : Key → ℕ)
        (rng : ℕ → ℕ → ℕ) (clock : ℤ) (moves moves' : List (Move lib))
        (final final' : Clients lib (limits.layout hash)),
        (Cache.new limits hash rng).Unlimited →
        TwoRuns f cfg (.new limits hash rng) clock moves moves' final final' →
        (∀ move ∈ moves, move.KeepsEmpty f) →
        SameOutcome cfg (.new limits hash rng) clock moves moves' final final') ∧
      (Indifferent f ↔ f [] = []) := by
  refine ⟨?_, ?_, ?_⟩
  · intro lib cfg limits hash rng clock moves moves' final final' hunlimited hruns hkeys
    exact hruns.same hf (Cache.renamed_new hunlimited hunlimited) hkeys
  · intro hsame
    have hunlimited := Cache.unlimited_unlimited 1 .lru (fun _ => 0) fun _ _ => 0
    obtain ⟨final, final', hruns, hexpirations, hexpirations'⟩ :=
      twoRuns_readLate f asciiOnly hunlimited 0 []
    have hcounters := (hsame _ _ _ _ _ _ _ _ _ _ hunlimited hruns).counters
    rw [hcounters, hexpirations] at hexpirations'
    by_contra hne
    simp [expiredCount, hne] at hexpirations'
  · intro hempty lib cfg limits hash rng clock moves moves' final final' hunlimited hruns
    apply hruns.same hf (Cache.renamed_new hunlimited hunlimited)
    have hkeeps : ∀ key, DistCache.KeepsEmpty f key := by
      intro key
      constructor
      · exact fun hkey => hf (hkey.trans hempty.symm)
      · rintro rfl
        exact hempty
    intro move _
    cases move with
    | send i sent clock => exact fun key _ => hkeeps key
    | dispatcher => trivial

theorem renaming_indifferent_letter :
    (∃ final final' : Clients asciiOnly _,
        TwoRuns (List.cons 97) ⟨[], []⟩ (Cache.unlimited 1 .lru (fun _ => 0) fun _ _ => 0) 0
          (readLate [98]) (readLate [97, 98]) final final' ∧
        SameOutcome ⟨[], []⟩ (Cache.unlimited 1 .lru (fun _ => 0) fun _ _ => 0) 0
          (readLate [98]) (readLate [97, 98]) final final') ∧
      ¬ Indifferent (List.cons 97) ∧ Indifferent List.reverse := by
  have hunlimited := Cache.unlimited_unlimited 1 .lru (fun _ => 0) fun _ _ => 0
  obtain ⟨hsame, hiff⟩ := renaming_indifferent_iff (List.cons_injective (a := (97 : UInt8)))
  refine ⟨?_, ?_, (renaming_indifferent_iff List.reverse_injective).2.mpr rfl⟩
  · obtain ⟨final, final', hruns, _⟩ :=
      twoRuns_readLate (List.cons 97) asciiOnly hunlimited 0 [98]
    refine ⟨final, final', hruns, hsame _ _ _ _ _ _ _ _ _ _ hunlimited hruns ?_⟩
    have hkeeps : DistCache.KeepsEmpty (List.cons 97) [98] := by decide
    simp [readLate, Move.KeepsEmpty, Sent.keys, Word.sent, Word.keys, hkeeps]
  · rw [hiff]
    decide

def watchThenSet (key : Key) : List (Move asciiOnly) :=
  [.send 0 (Word.watch.sent [key]) fun _ => ⟨0, 0⟩,
    .send 1 (Word.set.sent [key, [49]]) fun _ => ⟨0, 0⟩,
    .dispatcher, .dispatcher, .dispatcher,
    .send 0 (Word.multi.sent []) fun _ => ⟨0, 0⟩,
    .send 0 (Word.exec.sent []) fun _ => ⟨0, 0⟩]

/-- The write to the watched empty key goes unnoticed, and the one to a key with a
name does not. -/
theorem watched_empty_key_changed :
    let c := Cache.unlimited 1 .lru (fun _ => 0) fun _ _ => 0
    Function.Injective (List.cons 97 : Key → Key) ∧
      (∃ final final' : Clients asciiOnly _,
        TwoRuns (List.cons 97) ⟨[], []⟩ c 0 (watchThenSet []) (watchThenSet [97]) final final') ∧
      observe (step ⟨[], []⟩) (replies ⟨[], []⟩) (start c 0) (watchThenSet []) =
        [(0, rOK), (1, rOK), (0, rOK), (0, rArray [])] ∧
      observe (step ⟨[], []⟩) (replies ⟨[], []⟩) (start c 0) (watchThenSet [97]) =
        [(0, rOK), (1, rOK), (0, rOK), (0, rNilArray)] := by
  refine ⟨List.cons_injective, ⟨_, _, rfl, rfl, ?_, ?_, rfl⟩, rfl, rfl⟩
  · decide
  · decide

end Clients

end CacheServer
end DistCache
