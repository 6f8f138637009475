import DistCache.TransactionFlags

/-!
# Commands that are answered `QUEUED`

A ledger keeps what a client can tell from the replies: it numbers the commands that were
answered `QUEUED`, and lists those since the last `MULTI` that was answered `OK`.  The
queue of the transaction holds just these, and `EXEC` runs each of them once, in their
order, and answers with what their handlers have replied.  Nothing else runs them.
-/

namespace DistCache
namespace CacheServer

open Resp Transition

variable {L : Layout} {lib : Lib} {cfg : Config}

/-! ## Every command once -/

/-- The commands have been run one after the other, each of them once by its handler:
the `i`th reply is what the handler answers on the engine that the first `i` have left.
The clock is read once for every call of the cache. -/
def EachOnce (lib : Lib) (clock : ℕ → Clock) (cmds : List Command) (before after : Engine L)
    (replies : List Reply) : Prop :=
  ∃ (engines : ℕ → Engine L) (calls : ℕ → ℕ),
    engines 0 = before ∧ engines cmds.length = after ∧ calls 0 = 0 ∧
    replies.length = cmds.length ∧
    ∀ i cmd, cmds[i]? = some cmd → ∃ handler : Handler,
      handlers (lib.toUpper cmd.name) = some handler ∧
      ((handler.plan lib cmd).run clock (calls i) (engines i)).1 = engines (i + 1) ∧
      replies[i]? = some ((handler.plan lib cmd).run clock (calls i) (engines i)).2 ∧
      calls (i + 1) = calls i + (handler.plan lib cmd : Plan L).calls.length

section EachOnce

variable {clock : ℕ → Clock}

theorem runQueued_append (clock : ℕ → Clock) (i : ℕ) (e : Engine L)
    (first second : List (Queued lib)) :
    runQueued clock i e (first ++ second) =
      ((runQueued clock
          (i + (first.map fun q => (q.plan : Plan L).calls.length).sum)
          (runQueued clock i e first).1 second).1,
        (runQueued clock i e first).2 ++
          (runQueued clock
            (i + (first.map fun q => (q.plan : Plan L).calls.length).sum)
            (runQueued clock i e first).1 second).2) := by
  induction first generalizing i e with
  | nil => rfl
  | cons q rest ih =>
      simp only [List.cons_append, runQueued, ih, List.map_cons, List.sum_cons, Nat.add_assoc]

theorem length_runQueued (i : ℕ) (e : Engine L) (queued : List (Queued lib)) :
    (runQueued clock i e queued).2.length = queued.length := by
  induction queued generalizing i e with
  | nil => rfl
  | cons q rest ih => simp only [runQueued, List.length_cons, ih]

theorem eachOnce_runQueued (e : Engine L) (queued : List (Queued lib)) :
    EachOnce lib clock (queued.map Queued.cmd) e (runQueued clock 0 e queued).1
      (runQueued clock 0 e queued).2 := by
  refine ⟨fun n => (runQueued clock 0 e (queued.take n)).1,
    fun n => ((queued.take n).map fun q => (q.plan : Plan L).calls.length).sum, rfl, ?_, rfl,
    ?_, ?_⟩
  · simp only [List.length_map, List.take_length]
  · rw [length_runQueued, List.length_map]
  · intro i cmd hcmd
    rw [List.getElem?_map] at hcmd
    obtain ⟨q, hq, rfl⟩ := Option.map_eq_some_iff.mp hcmd
    have hi : i < queued.length := (List.getElem?_eq_some_iff.mp hq).1
    have htake : queued.take (i + 1) = queued.take i ++ [q] := by
      rw [List.take_add_one, hq]
      rfl
    have hone := runQueued_append clock 0 e (queued.take i) [q]
    rw [← htake, Nat.zero_add] at hone
    have hlength : (runQueued clock 0 e (queued.take i)).2.length = i := by
      rw [length_runQueued, List.length_take, Nat.min_eq_left hi.le]
    refine ⟨q.handler, q.found, ?_, ?_, ?_⟩
    · simp only [hone]
      rfl
    · have hall := runQueued_append clock 0 e (queued.take (i + 1))
        (queued.drop (i + 1))
      rw [List.take_append_drop] at hall
      rw [hall, hone, List.append_assoc, List.getElem?_append_right hlength.le, hlength,
        Nat.sub_self]
      rfl
    · simp only [htake, List.map_append, List.sum_append]
      rfl

end EachOnce

/-! ## The ledger -/

/-- The number of `QUEUED` replies so far, and the commands that got one since the
last `MULTI` that was answered with `OK`. -/
structure Ledger where
  issued : ℕ
  pending : List (ℕ × Command)

namespace Ledger

def empty : Ledger := ⟨0, []⟩

def note (lib : Lib) (led : Ledger) (cmd : Command) (replies : List Reply) : Ledger :=
  if replies.any isQueued then
    { issued := led.issued + 1, pending := led.pending ++ [(led.issued, cmd)] }
  else if begins lib cmd replies then { led with pending := [] }
  else led

end Ledger

/-- The server, the two fields as the program keeps them, and the ledger.  Without
a pair, a transaction has been called that was not there. -/
structure Audit (lib : Lib) (L : Layout) where
  state : State lib L
  raw : Option (Pair lib)
  ledger : Ledger

namespace Audit

def start (remoteAddr localAddr : Bytes) (server : Server L) : Audit lib L :=
  ⟨⟨.new remoteAddr localAddr, server⟩, some ⟨none, false⟩, .empty⟩

def serve (lib : Lib) (cfg : Config) (a : Audit lib L) (cmd : Command) (env : Env L) :
    Audit lib L where
  state := ⟨(CacheServer.serve lib cfg a.state cmd env).conn,
    (CacheServer.serve lib cfg a.state cmd env).server⟩
  raw := a.raw.bind fun p => p.serve lib cfg env a.state.conn a.state.server.incCommands cmd
  ledger := a.ledger.note lib cmd (written lib cfg a.state (.command cmd env))

def step (lib : Lib) (cfg : Config) (a : Audit lib L) : Input L → Option (Audit lib L)
  | .command cmd env => some (a.serve lib cfg cmd env)
  | .forward topic =>
      (CacheServer.step lib cfg a.state (.forward topic)).map fun st => { a with state := st }
  | .background f =>
      (CacheServer.step lib cfg a.state (.background f)).map fun st => { a with state := st }

/-- The commands that an `EXEC` settles in this step, each with the number of its
`QUEUED` reply. -/
def settled (lib : Lib) (cfg : Config) (a : Audit lib L) : Input L → List (ℕ × Command)
  | .command cmd env =>
      if succeeds lib cmd (written lib cfg a.state (.command cmd env)) then a.ledger.pending
      else []
  | _ => []

/-! ### What a step can do -/

section Effect

variable {a next : Audit lib L} {input : Input L}

inductive Effect (lib : Lib) (cfg : Config) (a next : Audit lib L) (input : Input L) : Prop where
  | same (hkeeps : a.state.conn.Keeps next.state.conn) (hledger : next.ledger = a.ledger)
      (hsettled : a.settled lib cfg input = [])
  | queued (cmd : Command) (q : Queued lib) (hcmd : q.cmd = cmd)
      (hmulti : a.state.conn.inMulti = true) (hconn : next.state.conn = queue a.state.conn q)
      (hledger : next.ledger =
        ⟨a.ledger.issued + 1, a.ledger.pending ++ [(a.ledger.issued, cmd)]⟩)
      (hsettled : a.settled lib cfg input = [])
  | begun (hmulti : a.state.conn.inMulti = false)
      (hallowed : cfg.password = [] ∨ a.state.conn.authed = true)
      (hconn : next.state.conn = (beginMulti a.state.conn).1)
      (hledger : next.ledger = { a.ledger with pending := [] })
      (hsettled : a.settled lib cfg input = [])
  | ended (hmulti : a.state.conn.inMulti = true) (hconn : next.state.conn = a.state.conn.dropTx)
      (hledger : next.ledger = a.ledger)
      (hsettled : a.settled lib cfg input = a.ledger.pending)
  | dropped (hconn : next.state.conn = a.state.conn.dropTx) (hledger : next.ledger = a.ledger)
      (hsettled : a.settled lib cfg input = [])
  | watched (hmulti : a.state.conn.inMulti = false) (hmulti' : next.state.conn.inMulti = false)
      (hqueue : next.state.conn.theTx.queued = a.state.conn.theTx.queued)
      (hauthed : next.state.conn.authed = a.state.conn.authed)
      (hledger : next.ledger = a.ledger) (hsettled : a.settled lib cfg input = [])

theorem note_eq_self {led : Ledger} {cmd : Command} {replies : List Reply}
    (hqueued : replies.any isQueued = false) (hbegins : ¬ begins lib cmd replies) :
    led.note lib cmd replies = led := by
  rw [Ledger.note, if_neg (by rw [hqueued]; decide), if_neg hbegins]

theorem settled_of_not_succeeds {cmd : Command} {env : Env L}
    (hsucceeds : ¬ succeeds lib cmd (CacheServer.serve lib cfg a.state cmd env).written) :
    a.settled lib cfg (.command cmd env) = [] :=
  if_neg hsucceeds

theorem effect_serve (a : Audit lib L) (cmd : Command) (env : Env L) :
    Effect lib cfg a (a.serve lib cfg cmd env) (.command cmd env) := by
  by_cases hclosed : a.state.conn.closed = true
  · have hturn : CacheServer.serve lib cfg a.state cmd env =
        ⟨a.state.conn, a.state.server, []⟩ := serve_of_closed cmd env hclosed
    refine .same ?_ ?_ (settled_of_not_succeeds ?_)
    · simp only [serve, hturn]
      exact .refl _
    · simp only [serve, written, hturn]
      exact note_eq_self rfl fun hbegins => Bool.false_ne_true hbegins.2
    · rw [hturn]
      exact fun hsucceeds => Bool.false_ne_true hsucceeds.2
  · have hmoves : Moves lib cfg env a.state.conn a.state.server.incCommands cmd
        (CacheServer.serve lib cfg a.state cmd env) :=
      moves_serve cfg cmd env (Bool.eq_false_iff.mpr hclosed)
    cases hmoves with
    | keeps hkeeps hqueued hbegins hsucceeds hdiscards hengine hexec =>
        exact .same hkeeps (note_eq_self hqueued hbegins) (settled_of_not_succeeds hsucceeds)
    | queues q hcmd hmulti hname hnext =>
        refine .queued cmd q hcmd hmulti ?_ ?_ (settled_of_not_succeeds ?_)
        · simp only [serve, hnext]
        · simp only [serve, written, hnext]
          rfl
        · rintro ⟨-, harray⟩
          rw [hnext] at harray
          exact Bool.false_ne_true harray
    | begun hname hmulti hallowed hnext =>
        refine .begun hmulti hallowed ?_ ?_ (settled_of_not_succeeds ?_)
        · simp only [serve, hnext]
        · have hbegins : begins lib cmd [rOK] := ⟨hname, by decide⟩
          have hqueued : ¬ ([rOK] : List Reply).any isQueued = true := by decide
          simp only [serve, written, hnext, Ledger.note]
          rw [if_neg hqueued, if_pos hbegins]
        · rintro ⟨-, harray⟩
          rw [hnext] at harray
          exact Bool.false_ne_true harray
    | executed hname hmulti hconn hengine hwritten =>
        refine .ended hmulti hconn ?_ ?_
        · have hbegins : ¬ begins lib cmd (CacheServer.serve lib cfg a.state cmd env).written := by
            rintro ⟨-, hok⟩
            rw [hwritten] at hok
            exact Bool.false_ne_true hok
          refine note_eq_self ?_ hbegins
          rw [written, hwritten]
          rfl
        · refine if_pos ⟨hname, ?_⟩
          rw [written, hwritten]
          rfl
    | aborted hname hmulti hchanged hconn hengine hwritten =>
        refine .dropped hconn (note_eq_self ?_ ?_) (settled_of_not_succeeds ?_)
        · rw [written, hwritten]
          rfl
        · rintro ⟨-, hok⟩
          rw [written, hwritten] at hok
          exact Bool.false_ne_true hok
        · rintro ⟨-, harray⟩
          rw [hwritten] at harray
          exact Bool.false_ne_true harray
    | dropped hmultiName hexecName hconn hengine hwritten =>
        refine .dropped hconn (note_eq_self ?_ ?_) (settled_of_not_succeeds ?_)
        · rw [written, hwritten]
          decide
        · exact fun hbegins => hmultiName hbegins.1
        · exact fun hsucceeds => hexecName hsucceeds.1
    | watched hname hmulti hmulti' hqueue hauthed hwritten =>
        refine .watched hmulti hmulti' hqueue hauthed (note_eq_self ?_ ?_)
          (settled_of_not_succeeds ?_)
        · rw [written, hwritten]
          decide
        · rintro ⟨heq, -⟩
          rw [hname] at heq
          exact absurd heq (by decide)
        · rintro ⟨heq, -⟩
          rw [hname] at heq
          exact absurd heq (by decide)

theorem conn_of_message {st next : State lib L} {topic : Bytes} {msg : PubSub.Message}
    (hmessage : message st topic = some (msg, next)) : next.conn = st.conn := by
  unfold message at hmessage
  split at hmessage
  · contradiction
  · split at hmessage
    · contradiction
    · split at hmessage
      · contradiction
      · cases hmessage
        rfl

theorem step_effect (hstep : a.step lib cfg input = some next) : Effect lib cfg a next input := by
  cases input with
  | command cmd env =>
      cases hstep
      exact effect_serve a cmd env
  | forward topic =>
      obtain ⟨st, hst, hnext⟩ := Option.map_eq_some_iff.mp hstep
      obtain ⟨r, hr, hst'⟩ := Option.map_eq_some_iff.mp hst
      subst hnext
      refine .same ?_ rfl rfl
      rw [← hst', conn_of_message hr]
      exact .refl _
  | background f =>
      cases hstep
      exact .same (.refl _) rfl rfl

theorem raw_step (hraw : a.raw = some a.state.conn.pair)
    (hstep : a.step lib cfg input = some next) : next.raw = some next.state.conn.pair := by
  cases input with
  | command cmd env =>
      cases hstep
      simp only [serve, hraw, Option.bind_some]
      exact pair_serve a.state cmd env
  | forward topic =>
      obtain ⟨st, hst, hnext⟩ := Option.map_eq_some_iff.mp hstep
      obtain ⟨r, hr, hst'⟩ := Option.map_eq_some_iff.mp hst
      subst hnext
      rw [← hst']
      simp only [hraw, conn_of_message hr]
  | background f =>
      cases hstep
      exact hraw

end Effect

/-! ### Whole runs -/

section Runs

variable {a next final : Audit lib L} {input : Input L} {inputs : List (Input L)} {n : ℕ}

/-- The queue of the transaction holds the commands that the client has been told
of, and is empty outside of `MULTI`. -/
structure Kept (cfg : Config) (a : Audit lib L) : Prop where
  raw : a.raw = some a.state.conn.pair
  queue : a.state.conn.inMulti = true →
    a.state.conn.theTx.queued.map Queued.cmd = a.ledger.pending.map Prod.snd
  outside : a.state.conn.inMulti = false → a.state.conn.theTx.queued = []
  allowed : a.state.conn.inMulti = true → cfg.password = [] ∨ a.state.conn.authed = true
  bound : ∀ p ∈ a.ledger.pending, p.1 < a.ledger.issued
  nodup : (a.ledger.pending.map Prod.fst).Nodup

/-- The command with this number is not waiting for an `EXEC`, and never will be. -/
def Retired (a : Audit lib L) (n : ℕ) : Prop :=
  n < a.ledger.issued ∧ (a.state.conn.inMulti = true → n ∉ a.ledger.pending.map Prod.fst)

theorem Keeps.theTx {c c' : Conn lib} (hkeeps : c.Keeps c') : c'.theTx = c.theTx :=
  congrArg (fun p : Pair lib => p.tx.getD .new) hkeeps.pair

theorem Keeps.inMulti {c c' : Conn lib} (hkeeps : c.Keeps c') : c'.inMulti = c.inMulti :=
  congrArg Pair.inMulti hkeeps.pair

theorem queue_spec {c : Conn lib} {t : Tx lib} (htx : c.tx = some t) (hmulti : c.inMulti = true)
    (q : Queued lib) :
    (CacheServer.queue c q).pair = ⟨some { t with queued := t.queued ++ [q] }, true⟩ ∧
      (CacheServer.queue c q).authed = c.authed := by
  have hin : t.inMulti = true := (c.inStep t htx).trans hmulti
  unfold CacheServer.queue
  split
  · rename_i hnone
    rw [hnone] at htx
    contradiction
  · rename_i t' htx'
    obtain rfl : t = t' := Option.some.inj (htx.symm.trans htx')
    simp [Conn.pair, hin, hmulti]

theorem beginMulti_spec {c : Conn lib} (hmulti : c.inMulti = false) :
    (beginMulti c).1.inMulti = true ∧ (beginMulti c).1.theTx.queued = c.theTx.queued ∧
      (beginMulti c).1.authed = c.authed := by
  unfold beginMulti
  rw [if_neg (by rw [hmulti]; decide)]
  exact ⟨rfl, rfl, rfl⟩

theorem kept_start (remoteAddr localAddr : Bytes) (server : Server L) :
    (start remoteAddr localAddr server : Audit lib L).Kept cfg where
  raw := rfl
  queue := nofun
  outside := fun _ => rfl
  allowed := nofun
  bound := nofun
  nodup := List.nodup_nil

theorem Kept.leaves (hkept : a.Kept cfg) (hraw : next.raw = some next.state.conn.pair)
    (hmulti : next.state.conn.inMulti = false) (hqueued : next.state.conn.theTx.queued = [])
    (hledger : next.ledger = a.ledger) : next.Kept cfg where
  raw := hraw
  queue := by
    rw [hmulti]
    exact nofun
  outside := fun _ => hqueued
  allowed := by
    rw [hmulti]
    exact nofun
  bound := by
    rw [hledger]
    exact hkept.bound
  nodup := by
    rw [hledger]
    exact hkept.nodup

theorem Kept.step (hkept : a.Kept cfg) (hstep : a.step lib cfg input = some next) :
    next.Kept cfg := by
  have hraw := raw_step hkept.raw hstep
  cases step_effect hstep with
  | same hkeeps hledger hsettled =>
      refine ⟨hraw, ?_, ?_, ?_, ?_, ?_⟩
      · rw [Keeps.inMulti hkeeps, Keeps.theTx hkeeps, hledger]
        exact hkept.queue
      · rw [Keeps.inMulti hkeeps, Keeps.theTx hkeeps]
        exact hkept.outside
      · intro hmulti
        rw [Keeps.inMulti hkeeps] at hmulti
        exact (hkept.allowed hmulti).imp_right hkeeps.authed
      · rw [hledger]
        exact hkept.bound
      · rw [hledger]
        exact hkept.nodup
  | queued cmd q hcmd hmulti hconn hledger hsettled =>
      obtain ⟨t, htx⟩ := Option.isSome_iff_exists.mp (a.state.conn.begun hmulti)
      obtain ⟨hpair, hauthed⟩ := queue_spec htx hmulti q
      have hmulti' : (CacheServer.queue a.state.conn q).inMulti = true :=
        congrArg Pair.inMulti hpair
      have hqueued : (CacheServer.queue a.state.conn q).theTx.queued =
          a.state.conn.theTx.queued ++ [q] := by
        have htx' : (CacheServer.queue a.state.conn q).tx =
            some { t with queued := t.queued ++ [q] } := congrArg Pair.tx hpair
        rw [Conn.theTx, Conn.theTx, htx', htx]
        rfl
      refine ⟨hraw, ?_, ?_, ?_, ?_, ?_⟩
      · intro _
        rw [hconn, hqueued, hledger]
        simp [hkept.queue hmulti, hcmd]
      · intro hfalse
        rw [hconn, hmulti'] at hfalse
        contradiction
      · intro _
        rw [hconn, hauthed]
        exact hkept.allowed hmulti
      · rw [hledger]
        intro p hp
        rcases List.mem_append.mp hp with hold | hnew
        · exact Nat.lt_succ_of_lt (hkept.bound p hold)
        · rw [List.mem_singleton.mp hnew]
          exact Nat.lt_succ_self _
      · rw [hledger, List.map_append, List.nodup_append]
        refine ⟨hkept.nodup, List.nodup_singleton _, ?_⟩
        intro m hm m' hm' heq
        obtain ⟨p, hp, rfl⟩ := List.mem_map.mp hm
        rw [List.map_singleton, List.mem_singleton] at hm'
        have hlt := hkept.bound p hp
        rw [heq, hm'] at hlt
        exact lt_irrefl _ hlt
  | begun hmulti hallowed hconn hledger hsettled =>
      obtain ⟨hmulti', hqueued, hauthed⟩ := beginMulti_spec hmulti
      refine ⟨hraw, ?_, ?_, ?_, ?_, ?_⟩
      · intro _
        rw [hconn, hqueued, hkept.outside hmulti, hledger]
        rfl
      · intro hfalse
        rw [hconn, hmulti'] at hfalse
        contradiction
      · intro _
        rw [hconn, hauthed]
        exact hallowed
      · rw [hledger]
        exact fun p hp => absurd hp List.not_mem_nil
      · rw [hledger]
        exact List.nodup_nil
  | ended hmulti hconn hledger hsettled =>
      exact hkept.leaves hraw (by rw [hconn]; rfl) (by rw [hconn]; rfl) hledger
  | dropped hconn hledger hsettled =>
      exact hkept.leaves hraw (by rw [hconn]; rfl) (by rw [hconn]; rfl) hledger
  | watched hmulti hmulti' hqueue hauthed hledger hsettled =>
      exact hkept.leaves hraw hmulti' (hqueue.trans (hkept.outside hmulti)) hledger

theorem Retired.step (hretired : a.Retired n) (hstep : a.step lib cfg input = some next) :
    next.Retired n := by
  obtain ⟨hlt, hwaiting⟩ := hretired
  cases step_effect hstep with
  | same hkeeps hledger hsettled =>
      refine ⟨by rwa [hledger], ?_⟩
      rw [Keeps.inMulti hkeeps, hledger]
      exact hwaiting
  | queued cmd q hcmd hmulti hconn hledger hsettled =>
      refine ⟨by rw [hledger]; exact Nat.lt_succ_of_lt hlt, ?_⟩
      intro _ hmem
      rw [hledger, List.map_append, List.mem_append] at hmem
      rcases hmem with hold | hnew
      · exact hwaiting hmulti hold
      · rw [List.map_singleton, List.mem_singleton] at hnew
        exact absurd hnew hlt.ne
  | begun hmulti hallowed hconn hledger hsettled =>
      refine ⟨by rwa [hledger], ?_⟩
      rw [hledger]
      exact fun _ => List.not_mem_nil
  | ended hmulti hconn hledger hsettled =>
      refine ⟨by rwa [hledger], ?_⟩
      rw [hconn]
      exact nofun
  | dropped hconn hledger hsettled =>
      refine ⟨by rwa [hledger], ?_⟩
      rw [hconn]
      exact nofun
  | watched hmulti hmulti' hqueue hauthed hledger hsettled =>
      refine ⟨by rwa [hledger], ?_⟩
      rw [hmulti']
      exact nofun

theorem Kept.settled_cases (hkept : a.Kept cfg) (hstep : a.step lib cfg input = some next) :
    a.settled lib cfg input = [] ∨
      a.state.conn.inMulti = true ∧ a.settled lib cfg input = a.ledger.pending ∧
        ∀ p ∈ a.ledger.pending, next.Retired p.1 := by
  cases step_effect hstep with
  | same hkeeps hledger hsettled => exact Or.inl hsettled
  | queued cmd q hcmd hmulti hconn hledger hsettled => exact Or.inl hsettled
  | begun hmulti hallowed hconn hledger hsettled => exact Or.inl hsettled
  | ended hmulti hconn hledger hsettled =>
      refine Or.inr ⟨hmulti, hsettled, ?_⟩
      intro p hp
      refine ⟨by rw [hledger]; exact hkept.bound p hp, ?_⟩
      rw [hconn]
      exact nofun
  | dropped hconn hledger hsettled => exact Or.inl hsettled
  | watched hmulti hmulti' hqueue hauthed hledger hsettled => exact Or.inl hsettled

/-- What has been settled along the way, each command once, is over. -/
structure Done (cfg : Config) (a : Audit lib L) (done : List (ℕ × Command)) : Prop where
  kept : a.Kept cfg
  nodup : (done.map Prod.fst).Nodup
  retired : ∀ p ∈ done, a.Retired p.1

theorem Done.step {done : List (ℕ × Command)} (hdone : a.Done cfg done)
    (hstep : a.step lib cfg input = some next) :
    next.Done cfg (done ++ a.settled lib cfg input) := by
  have hretired : ∀ p ∈ done, next.Retired p.1 := fun p hp => (hdone.retired p hp).step hstep
  rcases hdone.kept.settled_cases hstep with hnone | ⟨hmulti, hall, hover⟩
  · rw [hnone, List.append_nil]
    exact ⟨hdone.kept.step hstep, hdone.nodup, hretired⟩
  · rw [hall]
    refine ⟨hdone.kept.step hstep, ?_, ?_⟩
    · rw [List.map_append, List.nodup_append]
      refine ⟨hdone.nodup, hdone.kept.nodup, ?_⟩
      intro m hm m' hm' heq
      obtain ⟨p, hp, rfl⟩ := List.mem_map.mp hm
      rw [← heq] at hm'
      exact (hdone.retired p hp).2 hmulti hm'
    · intro p hp
      exact (List.mem_append.mp hp).elim (hretired p) (hover p)

theorem not_settled_of_retired (hkept : a.Kept cfg) (hretired : a.Retired n)
    (cmd : Command) : (n, cmd) ∉ observe (step lib cfg) (settled lib cfg) a inputs := by
  intro hmem
  obtain ⟨before, input, after, middle, -, hbefore, hsettled⟩ :=
    exists_split_of_mem_observe (step lib cfg) (settled lib cfg) hmem
  obtain ⟨hkept', hretired'⟩ : middle.Kept cfg ∧ middle.Retired n :=
    run_invariant (I := fun b => b.Kept cfg ∧ b.Retired n) (step lib cfg)
      (fun _ _ _ hinv hstep => ⟨hinv.1.step hstep, hinv.2.step hstep⟩) ⟨hkept, hretired⟩ hbefore
  cases input with
  | command cmd' env =>
      have hstep : middle.step lib cfg (.command cmd' env) = some (middle.serve lib cfg cmd' env) :=
        rfl
      rcases hkept'.settled_cases hstep with hnone | ⟨hmulti, hall, -⟩
      · rw [hnone] at hsettled
        exact List.not_mem_nil hsettled
      · rw [hall] at hsettled
        exact hretired'.2 hmulti (List.mem_map_of_mem hsettled)
  | forward topic => exact List.not_mem_nil hsettled
  | background f => exact List.not_mem_nil hsettled

/-- What the client may rely on. -/
structure Honoured (lib : Lib) (cfg : Config) (first : Audit lib L) (inputs : List (Input L))
    (a : Audit lib L) : Prop where
  /-- The flags of the connection and of its transaction agree. -/
  inStep : ∃ p, a.raw = some p ∧ (p.inMulti = true ↔ ∃ t, p.tx = some t ∧ t.inMulti = true)
  /-- A command that is answered `QUEUED` has been appended. -/
  appended : ∀ cmd env, rSimple "QUEUED" ∈ written lib cfg a.state (.command cmd env) →
    ∃ t q, q.cmd = cmd ∧ a.raw = some ⟨some t, true⟩ ∧
      (a.serve lib cfg cmd env).raw = some ⟨some { t with queued := t.queued ++ [q] }, true⟩
  /-- Without interference on the watched keys `EXEC` succeeds. -/
  succeeds : ∀ cmd env, lib.toUpper cmd.name = text "EXEC" →
    a.state.conn.inMulti = true → a.state.conn.closed = false →
    a.state.server.txn.Unchanged (a.state.conn.theTx.view : Txn.Tx L) →
    ∃ items, written lib cfg a.state (.command cmd env) = [rArray items]
  /-- It then settles the pending commands: they are run in their order, once each, and
  their replies are the answer. -/
  replies : ∀ cmd env items, lib.toUpper cmd.name = text "EXEC" →
    written lib cfg a.state (.command cmd env) = [rArray items] →
    a.settled lib cfg (.command cmd env) = a.ledger.pending ∧
      EachOnce lib env.clock (a.ledger.pending.map Prod.snd) a.state.server.engine
        (a.serve lib cfg cmd env).state.server.engine items
  /-- Nothing else touches the cache in `MULTI`. -/
  onlyAtExec : ∀ cmd env, a.state.conn.inMulti = true →
    ¬ CacheServer.succeeds lib cmd (written lib cfg a.state (.command cmd env)) →
    (a.serve lib cfg cmd env).state.server.engine = a.state.server.engine
  /-- Outside of `MULTI` a command runs nothing but itself; `WATCH` lets the others go on. -/
  onlyItself : ∀ cmd env, a.state.conn.inMulti = false →
    lib.toUpper cmd.name ≠ text "WATCH" →
    (a.serve lib cfg cmd env).state.server.engine = a.state.server.engine ∨
      ∃ handler : Handler, handlers (lib.toUpper cmd.name) = some handler ∧
        (a.serve lib cfg cmd env).state.server.engine =
          ((handler.plan lib cmd).run env.clock 0 a.state.server.engine).1
  /-- No command is settled twice. -/
  once : ((observe (step lib cfg) (settled lib cfg) first inputs).map Prod.fst).Nodup
  /-- What is pending at a `DISCARD` is never settled. -/
  discarded : ∀ cmd env rest, lib.toUpper cmd.name = text "DISCARD" →
    written lib cfg a.state (.command cmd env) = [rOK] →
    ∀ p ∈ a.ledger.pending,
      p ∉ observe (step lib cfg) (settled lib cfg) (a.serve lib cfg cmd env) rest

theorem done_of_run {remoteAddr localAddr : Bytes} {server : Server L}
    (hrun : run (step lib cfg) (start remoteAddr localAddr server) inputs = some a) :
    a.Done cfg
      (observe (step lib cfg) (settled lib cfg) (start remoteAddr localAddr server) inputs) := by
  have hstart : (start remoteAddr localAddr server : Audit lib L).Done cfg [] :=
    ⟨kept_start remoteAddr localAddr server, List.nodup_nil, nofun⟩
  have hdone := run_invariant_seen (I := fun b done => b.Done cfg done) (step lib cfg)
    (settled lib cfg) (fun _ _ _ _ hinv hstep => hinv.step hstep) hstart hrun
  rwa [List.nil_append] at hdone

theorem Kept.appended (hkept : a.Kept cfg) {cmd : Command} {env : Env L}
    (hqueued : rSimple "QUEUED" ∈ written lib cfg a.state (.command cmd env)) :
    ∃ t q, q.cmd = cmd ∧ a.raw = some ⟨some t, true⟩ ∧
      (a.serve lib cfg cmd env).raw =
        some ⟨some { t with queued := t.queued ++ [q] }, true⟩ := by
  have hany : (CacheServer.serve lib cfg a.state cmd env).written.any isQueued = true :=
    List.any_eq_true.mpr ⟨_, hqueued, by decide⟩
  cases hclosed : a.state.conn.closed with
  | true =>
      rw [serve_of_closed cmd env hclosed] at hany
      contradiction
  | false =>
      cases moves_serve cfg cmd env hclosed with
      | keeps hkeeps hnone hbegins hsucceeds hdiscards hengine hexec =>
          rw [hnone] at hany
          contradiction
      | queues q hcmd hmulti hname hnext =>
          obtain ⟨t, htx⟩ := Option.isSome_iff_exists.mp (a.state.conn.begun hmulti)
          refine ⟨t, q, hcmd, hkept.raw.trans (by rw [Conn.pair, htx, hmulti]), ?_⟩
          have hraw : (a.serve lib cfg cmd env).raw =
              some (CacheServer.serve lib cfg a.state cmd env).conn.pair :=
            raw_step hkept.raw (show a.step lib cfg (.command cmd env) = _ from rfl)
          rw [hraw, hnext, (queue_spec htx hmulti q).1]
      | begun hname hmulti hallowed hnext =>
          have hok : ([rOK] : List Reply).any isQueued = false := by decide
          rw [hnext] at hany
          exact absurd (hok.symm.trans hany) Bool.false_ne_true
      | executed hname hmulti hconn hengine hwritten =>
          rw [hwritten] at hany
          exact absurd hany Bool.false_ne_true
      | aborted hname hmulti hchanged hconn hengine hwritten =>
          rw [hwritten] at hany
          exact absurd hany (by decide)
      | dropped hmultiName hexecName hconn hengine hwritten =>
          rw [hwritten] at hany
          exact absurd hany (by decide)
      | watched hname hmulti hmulti' hqueue hauthed hwritten =>
          rw [hwritten] at hany
          exact absurd hany (by decide)

theorem Kept.exec_succeeds (hkept : a.Kept cfg) {cmd : Command} {env : Env L}
    (hname : lib.toUpper cmd.name = text "EXEC") (hmulti : a.state.conn.inMulti = true)
    (hclosed : a.state.conn.closed = false)
    (hunchanged : a.state.server.txn.Unchanged (a.state.conn.theTx.view : Txn.Tx L)) :
    ∃ items, written lib cfg a.state (.command cmd env) = [rArray items] := by
  have hother : ∀ {name}, text name ≠ text "EXEC" → lib.toUpper cmd.name ≠ text name := by
    intro name hne heq
    exact hne (heq.symm.trans hname)
  cases moves_serve cfg cmd env hclosed with
  | keeps hkeeps hqueued hbegins hsucceeds hdiscards hengine hexec =>
      obtain ⟨hpassword, hauthed⟩ := hexec hmulti hname
      rcases hkept.allowed hmulti with hnone | htrue
      · exact absurd hnone hpassword
      · rw [hauthed] at htrue
        contradiction
  | queues q hcmd hmulti' hlisted hnext =>
      rw [hname] at hlisted
      exact absurd (by decide) hlisted
  | begun hmultiName hmulti' hallowed hnext => exact absurd hmultiName (hother (by decide))
  | executed hname' hmulti' hconn hengine hwritten => exact ⟨_, hwritten⟩
  | aborted hname' hmulti' hchanged hconn hengine hwritten => exact absurd hunchanged hchanged
  | dropped hmultiName hexecName hconn hengine hwritten => exact absurd hname hexecName
  | watched hwatchName hmulti' hmulti'' hqueue hauthed hwritten =>
      exact absurd hwatchName (hother (by decide))

theorem Kept.exec_replies (hkept : a.Kept cfg) {cmd : Command} {env : Env L}
    {items : List Reply} (hname : lib.toUpper cmd.name = text "EXEC")
    (hwritten : written lib cfg a.state (.command cmd env) = [rArray items]) :
    a.settled lib cfg (.command cmd env) = a.ledger.pending ∧
      EachOnce lib env.clock (a.ledger.pending.map Prod.snd) a.state.server.engine
        (a.serve lib cfg cmd env).state.server.engine items := by
  have hsucceeds : succeeds lib cmd (CacheServer.serve lib cfg a.state cmd env).written := by
    refine ⟨hname, ?_⟩
    rw [written] at hwritten
    rw [hwritten]
    rfl
  cases hclosed : a.state.conn.closed with
  | true =>
      rw [serve_of_closed cmd env hclosed] at hsucceeds
      exact absurd hsucceeds.2 Bool.false_ne_true
  | false =>
      cases moves_serve cfg cmd env hclosed with
      | keeps hkeeps hqueued hbegins hnot hdiscards hengine hexec => exact absurd hsucceeds hnot
      | queues q hcmd hmulti hlisted hnext =>
          rw [hname] at hlisted
          exact absurd (by decide) hlisted
      | begun hmultiName hmulti hallowed hnext =>
          rw [hname] at hmultiName
          exact absurd hmultiName (by decide)
      | executed hname' hmulti hconn hengine hwritten' =>
          refine ⟨if_pos hsucceeds, ?_⟩
          rw [written, hwritten'] at hwritten
          have hitems : (runQueued env.clock 0 a.state.server.engine
              a.state.conn.theTx.queued).2 = items := by
            injection hwritten with hhead
            injection hhead
          rw [← hkept.queue hmulti, ← hitems]
          simp only [serve, hengine]
          exact eachOnce_runQueued _ _
      | aborted hname' hmulti hchanged hconn hengine hwritten' =>
          rw [hwritten'] at hsucceeds
          exact absurd hsucceeds.2 Bool.false_ne_true
      | dropped hmultiName hexecName hconn hengine hwritten' => exact absurd hname hexecName
      | watched hwatchName hmulti hmulti' hqueue hauthed hwritten' =>
          rw [hname] at hwatchName
          exact absurd hwatchName (by decide)

theorem engine_in_multi {cmd : Command} {env : Env L} (hmulti : a.state.conn.inMulti = true)
    (hsucceeds : ¬ succeeds lib cmd (written lib cfg a.state (.command cmd env))) :
    (a.serve lib cfg cmd env).state.server.engine = a.state.server.engine := by
  cases hclosed : a.state.conn.closed with
  | true => simp only [serve, serve_of_closed cmd env hclosed]
  | false =>
      simp only [serve]
      cases moves_serve cfg cmd env hclosed with
      | keeps hkeeps hqueued hbegins hnot hdiscards hengine hexec =>
          rcases hengine with hsame | ⟨hout, -⟩
          · exact hsame
          · rw [hmulti] at hout
            contradiction
      | queues q hcmd hmulti' hlisted hnext =>
          rw [hnext]
          rfl
      | begun hmultiName hmulti' hallowed hnext =>
          rw [hnext]
          rfl
      | executed hname hmulti' hconn hengine hwritten =>
          refine absurd ⟨hname, ?_⟩ hsucceeds
          rw [written, hwritten]
          rfl
      | aborted hname hmulti' hchanged hconn hengine hwritten => exact hengine
      | dropped hmultiName hexecName hconn hengine hwritten => exact hengine
      | watched hwatchName hmulti' hmulti'' hqueue hauthed hwritten =>
          rw [hmulti] at hmulti'
          contradiction

theorem engine_outside {cmd : Command} {env : Env L} (hmulti : a.state.conn.inMulti = false)
    (hwatch : lib.toUpper cmd.name ≠ text "WATCH") :
    (a.serve lib cfg cmd env).state.server.engine = a.state.server.engine ∨
      ∃ handler : Handler, handlers (lib.toUpper cmd.name) = some handler ∧
        (a.serve lib cfg cmd env).state.server.engine =
          ((handler.plan lib cmd).run env.clock 0 a.state.server.engine).1 := by
  have hout : a.state.conn.inMulti ≠ true := by
    rw [hmulti]
    exact Bool.false_ne_true
  cases hclosed : a.state.conn.closed with
  | true => exact Or.inl (by simp only [serve, serve_of_closed cmd env hclosed])
  | false =>
      simp only [serve]
      cases moves_serve cfg cmd env hclosed with
      | keeps hkeeps hqueued hbegins hnot hdiscards hengine hexec =>
          exact hengine.imp_right And.right
      | queues q hcmd hin hlisted hnext => exact absurd hin hout
      | begun hmultiName hmulti' hallowed hnext =>
          rw [hnext]
          exact Or.inl rfl
      | executed hname hin hconn hengine hwritten => exact absurd hin hout
      | aborted hname hin hchanged hconn hengine hwritten => exact Or.inl hengine
      | dropped hmultiName hexecName hconn hengine hwritten => exact Or.inl hengine
      | watched hwatchName hmulti' hmulti'' hqueue hauthed hwritten =>
          exact absurd hwatchName hwatch

theorem Kept.discarded (hkept : a.Kept cfg) {cmd : Command} {env : Env L}
    (hname : lib.toUpper cmd.name = text "DISCARD")
    (hwritten : written lib cfg a.state (.command cmd env) = [rOK]) {p : ℕ × Command}
    (hp : p ∈ a.ledger.pending) : (a.serve lib cfg cmd env).Retired p.1 := by
  have hdiscards : discards lib cmd (CacheServer.serve lib cfg a.state cmd env).written := by
    refine ⟨hname, ?_⟩
    rw [written] at hwritten
    rw [hwritten]
    decide
  have hout : (CacheServer.serve lib cfg a.state cmd env).conn.inMulti = false := by
    cases hclosed : a.state.conn.closed with
    | true =>
        rw [serve_of_closed cmd env hclosed] at hdiscards
        exact absurd hdiscards.2 Bool.false_ne_true
    | false =>
        cases moves_serve cfg cmd env hclosed with
        | keeps hkeeps hqueued hbegins hsucceeds hnot hengine hexec =>
            exact absurd hdiscards hnot
        | queues q hcmd hmulti hlisted hnext =>
            rw [hname] at hlisted
            exact absurd (by decide) hlisted
        | begun hmultiName hmulti hallowed hnext =>
            rw [hname] at hmultiName
            exact absurd hmultiName (by decide)
        | executed hexecName hmulti hconn hengine hwritten' =>
            rw [hconn]
            rfl
        | aborted hexecName hmulti hchanged hconn hengine hwritten' =>
            rw [hconn]
            rfl
        | dropped hmultiName hexecName hconn hengine hwritten' =>
            rw [hconn]
            rfl
        | watched hwatchName hmulti hmulti' hqueue hauthed hwritten' => exact hmulti'
  have hledger : (a.serve lib cfg cmd env).ledger = a.ledger := by
    refine note_eq_self ?_ ?_
    · rw [hwritten]
      decide
    · rintro ⟨heq, -⟩
      rw [hname] at heq
      exact absurd heq (by decide)
  refine ⟨by rw [hledger]; exact hkept.bound p hp, ?_⟩
  intro hmulti
  have hfalse : (a.serve lib cfg cmd env).state.conn.inMulti = false := hout
  rw [hmulti] at hfalse
  contradiction

/-- Whatever is sent on a connection, and whatever happens to the server meanwhile. -/
theorem queued_once_in_order (lib : Lib) (cfg : Config) (remoteAddr localAddr : Bytes)
    (server : Server L) (inputs : List (Input L)) {a : Audit lib L}
    (hrun : run (step lib cfg) (start remoteAddr localAddr server) inputs = some a) :
    Honoured lib cfg (start remoteAddr localAddr server) inputs a := by
  have hdone := done_of_run hrun
  have hkept := hdone.kept
  exact {
    inStep := ⟨a.state.conn.pair, hkept.raw, inMulti_pair_iff a.state.conn⟩
    appended := fun _ _ hqueued => hkept.appended hqueued
    succeeds := fun _ _ hname hmulti hclosed hunchanged =>
      hkept.exec_succeeds hname hmulti hclosed hunchanged
    replies := fun _ _ _ hname hwritten => hkept.exec_replies hname hwritten
    onlyAtExec := fun _ _ hmulti hsucceeds => engine_in_multi hmulti hsucceeds
    onlyItself := fun _ _ hmulti hwatch => engine_outside hmulti hwatch
    once := hdone.nodup
    discarded := by
      intro cmd env rest hname hwritten p hp
      have hkept' : (a.serve lib cfg cmd env).Kept cfg :=
        hkept.step (show a.step lib cfg (.command cmd env) = _ from rfl)
      exact not_settled_of_retired hkept' (hkept.discarded hname hwritten hp) p.2 }

def queuing : List (Input (DistCache.Config.layout ⟨1, 0, 0, .lru⟩ fun _ => 0)) :=
  [send (text "multi") [], send (text "SET") [[97], [49]], send (text "GET") [[97]]]

theorem queued_once_in_order_set_get :
    ∃ a, run (step asciiOnly (Config.new [] [])) (start [] [] emptyServer) queuing = some a ∧
      a.ledger.pending = [(0, ⟨text "SET", [[97], [49]]⟩), (1, ⟨text "GET", [[97]]⟩)] ∧
      Honoured asciiOnly (Config.new [] []) (start [] [] emptyServer) queuing a ∧
      written asciiOnly (Config.new [] []) a.state (send (text "exec") []) =
        [rArray [rOK, .bulk [49]]] :=
  ⟨_, rfl, rfl, queued_once_in_order asciiOnly (Config.new [] []) [] [] emptyServer queuing rfl,
    rfl⟩

end Runs

end Audit

end CacheServer
end DistCache
