import DistCache.ReplyFraming

/-!
# Before the password

A connection that has not given the password reaches three commands: `AUTH`,
`QUIT` and `PING`.  None of them looks at the server.  So what such a connection
writes is a function of its commands alone, the gate below, and a run of the
server against it follows the gate, whatever the server holds and whatever
happens to it meanwhile.
-/

namespace DistCache
namespace CacheServer

open Resp Transition

variable {lib : Lib} {cfg : Config} {L : Layout}

/-! ## The gate -/

def Command.Authenticates (lib : Lib) (cfg : Config) (cmd : Command) : Prop :=
  lib.toUpper cmd.name = text "AUTH" ∧ cmd.args = [cfg.password]

instance (lib : Lib) (cfg : Config) (cmd : Command) :
    Decidable (cmd.Authenticates lib cfg) :=
  inferInstanceAs (Decidable (_ ∧ _))

def pong (cmd : Command) : Reply :=
  match cmd.args with
  | arg :: _ => rBulk (some arg)
  | [] => rSimple "PONG"

def refusal (cmd : Command) : Reply :=
  match cmd.args with
  | [_] => rErr "WRONGPASS invalid username-password pair"
  | _ => rErr "ERR wrong number of arguments for 'auth'"

def gate (lib : Lib) (closed : Bool) (cmd : Command) : Bool × List Reply :=
  if closed then (true, [])
  else if lib.toUpper cmd.name = text "AUTH" then (false, [refusal cmd])
  else if lib.toUpper cmd.name = text "QUIT" then (true, [rOK])
  else if lib.toUpper cmd.name = text "PING" then (false, [pong cmd])
  else (false, [rErr "NOAUTH Authentication required."])

def gateReplies (lib : Lib) : Bool → List Command → List Reply
  | _, [] => []
  | closed, cmd :: rest => (gate lib closed cmd).2 ++ gateReplies lib (gate lib closed cmd).1 rest

structure Conn.Outside (c : Conn lib) : Prop where
  authed : c.authed = false
  tx : c.tx = none
  inMulti : c.inMulti = false
  subs : c.subs = ∅

theorem Conn.outside_new (remoteAddr localAddr : Bytes) :
    (Conn.new remoteAddr localAddr : Conn lib).Outside :=
  ⟨rfl, rfl, rfl, rfl⟩

/-! ## One command -/

section Command

variable {c : Conn lib} {cmd : Command}

theorem cmdAuth_refused (hpassword : cfg.password ≠ [])
    (hwrong : cmd.args ≠ [cfg.password]) : cmdAuth cfg c cmd = (c, refusal cmd) := by
  unfold cmdAuth refusal
  match hargs : cmd.args with
  | [] => rfl
  | [password] =>
      have hne : password ≠ cfg.password := by
        intro heq
        exact hwrong (by rw [hargs, heq])
      simp [hpassword, hne]
  | _ :: _ :: _ => rfl

theorem run_cmdPing (clock : ℕ → Clock) (e : Engine L) :
    (cmdPing cmd : Plan L).run clock 0 e = (e, pong cmd) := by
  unfold cmdPing pong
  cases cmd.args with
  | nil => rfl
  | cons arg rest => rfl

theorem execute_auth (env : Env L) (s : Server L) (hpassword : cfg.password ≠ [])
    (hname : lib.toUpper cmd.name = text "AUTH") (hwrong : cmd.args ≠ [cfg.password]) :
    execute lib cfg env c s cmd = ⟨c, s, [refusal cmd]⟩ := by
  have hverb : verbs (text "AUTH") = some .auth := by decide
  rw [execute, hname, hverb]
  simp only [Verb.run, cmdAuth_refused hpassword hwrong]

theorem execute_quit (env : Env L) (s : Server L) (houtside : c.Outside)
    (hname : lib.toUpper cmd.name = text "QUIT") :
    execute lib cfg env c s cmd = ⟨c.close, s, [rOK]⟩ := by
  have hverb : verbs (text "QUIT") = some .quit := by decide
  rw [execute, hname, hverb]
  simp only [Verb.run, CacheServer.quit, closeSubs_of_empty houtside.subs]

theorem execute_ping (env : Env L) (s : Server L)
    (hname : lib.toUpper cmd.name = text "PING") :
    execute lib cfg env c s cmd = ⟨c, s, [pong cmd]⟩ := by
  have hverb : verbs (text "PING") = none := by decide
  have hhandler : handlers (text "PING") = some .ping := by decide
  rw [execute_of_handler hname hverb hhandler]
  simp only [Handler.plan, run_cmdPing]

theorem dispatch_outside (env : Env L) (s : Server L) (hpassword : cfg.password ≠ [])
    (houtside : c.Outside) (hopen : c.closed = false)
    (hrefused : ¬ cmd.Authenticates lib cfg) :
    (dispatch lib cfg env c s cmd).conn = { c with closed := (gate lib false cmd).1 } ∧
      (dispatch lib cfg env c s cmd).server = s ∧
      (dispatch lib cfg env c s cmd).written = (gate lib false cmd).2 := by
  have hsame : c = { c with closed := false } := by
    rw [← hopen]
  have hexecute : lib.toUpper cmd.name ∈ beforeAuth →
      dispatch lib cfg env c s cmd = execute lib cfg env c s cmd := by
    intro hbefore
    simp [dispatch, hbefore, houtside.inMulti]
  by_cases hauth : lib.toUpper cmd.name = text "AUTH"
  · have hwrong : cmd.args ≠ [cfg.password] := fun hargs => hrefused ⟨hauth, hargs⟩
    rw [hexecute (by simp [beforeAuth, hauth]), execute_auth env s hpassword hauth hwrong]
    simpa [gate, hauth] using hsame
  by_cases hquit : lib.toUpper cmd.name = text "QUIT"
  · have hne : text "QUIT" ≠ text "AUTH" := by decide
    rw [hexecute (by simp [beforeAuth, hquit]), execute_quit env s houtside hquit]
    simp [gate, hquit, hne, Conn.close]
  by_cases hping : lib.toUpper cmd.name = text "PING"
  · have hne : text "PING" ≠ text "AUTH" ∧ text "PING" ≠ text "QUIT" := by decide
    rw [hexecute (by simp [beforeAuth, hping]), execute_ping env s hping]
    simpa [gate, hping, hne] using hsame
  · have hbefore : lib.toUpper cmd.name ∉ beforeAuth := by
      simp [beforeAuth, hauth, hquit, hping]
    have hdispatch : dispatch lib cfg env c s cmd =
        ⟨c, s, [rErr "NOAUTH Authentication required."]⟩ := by
      simp [dispatch, hpassword, houtside.authed, hbefore]
    rw [hdispatch]
    simpa [gate, hauth, hquit, hping] using hsame

theorem serve_outside {st : State lib L} (env : Env L) (hpassword : cfg.password ≠ [])
    (houtside : st.conn.Outside) (hrefused : ¬ cmd.Authenticates lib cfg) :
    (serve lib cfg st cmd env).conn =
        { st.conn with closed := (gate lib st.conn.closed cmd).1 } ∧
      { (serve lib cfg st cmd env).server with metrics := st.server.metrics } = st.server ∧
      (serve lib cfg st cmd env).written = (gate lib st.conn.closed cmd).2 := by
  cases hclosed : st.conn.closed with
  | true =>
      have hsame : st.conn = { st.conn with closed := true } := by
        rw [← hclosed]
      simpa [serve, hclosed, gate] using hsame
  | false =>
      obtain ⟨hconn, hserver, hwritten⟩ :=
        dispatch_outside env st.server.incCommands hpassword houtside hclosed hrefused
      simp only [serve, hclosed, Bool.false_eq_true, if_false, hconn, hserver, hwritten]
      exact ⟨trivial, rfl, trivial⟩

end Command

/-! ## Runs -/

/-- The command leaves everything in the server but the metrics, and the transaction
and the subscriptions of the connection. -/
def Untouched (lib : Lib) (cfg : Config) (st : State lib L) : Input L → Prop
  | .command cmd env => ∀ next, step lib cfg st (.command cmd env) = some next →
      { next.server with metrics := st.server.metrics } = st.server ∧
        next.conn.tx = st.conn.tx ∧ next.conn.inMulti = st.conn.inMulti ∧
        next.conn.subs = st.conn.subs
  | _ => True

theorem untouched_of_outside {st : State lib L} {cmd : Command} (env : Env L)
    (hpassword : cfg.password ≠ []) (houtside : st.conn.Outside)
    (hrefused : ¬ cmd.Authenticates lib cfg) :
    Untouched lib cfg st (.command cmd env) := by
  intro next hnext
  obtain ⟨hconn, hserver, _⟩ := serve_outside env hpassword houtside hrefused
  rw [← Option.some.inj hnext]
  refine ⟨hserver, ?_, ?_, ?_⟩ <;> simp only [hconn]

theorem follows_gate (hpassword : cfg.password ≠ []) {st final : State lib L}
    {inputs : List (Input L)} (houtside : st.conn.Outside)
    (hrefused : ∀ cmd ∈ commands inputs, ¬ cmd.Authenticates lib cfg)
    (hrun : run (step lib cfg) st inputs = some final) :
    observe (step lib cfg) (written lib cfg) st inputs =
        gateReplies lib st.conn.closed (commands inputs) ∧
      Along (step lib cfg) (Untouched lib cfg) st inputs := by
  induction inputs generalizing st with
  | nil => exact ⟨rfl, trivial⟩
  | cons input rest ih =>
      obtain ⟨next, hnext, hrest⟩ := (run_cons_eq_some _).mp hrun
      have hlater : ∀ cmd ∈ commands rest, ¬ cmd.Authenticates lib cfg := by
        intro cmd hmem
        apply hrefused cmd
        rw [commands_cons]
        exact List.mem_append_right _ hmem
      cases input with
      | command cmd env =>
          have hfirst : ¬ cmd.Authenticates lib cfg := hrefused cmd List.mem_cons_self
          obtain ⟨hconn, _, hwritten⟩ := serve_outside env hpassword houtside hfirst
          have hstate : next.conn =
              { st.conn with closed := (gate lib st.conn.closed cmd).1 } := by
            rw [← Option.some.inj hnext]
            exact hconn
          have hinside : next.conn.Outside := by
            rw [hstate]
            exact ⟨houtside.authed, houtside.tx, houtside.inMulti, houtside.subs⟩
          obtain ⟨hreplies, halong⟩ := ih hinside hlater hrest
          constructor
          · rw [observe_cons_of_step _ _ hnext, hreplies, hstate]
            exact congrArg (· ++ _) hwritten
          · exact (along_cons_of_step _ hnext rest).mpr
              ⟨untouched_of_outside env hpassword houtside hfirst, halong⟩
      | forward topic => simp [step, message, houtside.subs] at hnext
      | background f =>
          have hstate : next.conn = st.conn := by
            rw [← Option.some.inj hnext]
          obtain ⟨hreplies, halong⟩ := ih (hstate ▸ houtside) hlater hrest
          constructor
          · rw [observe_cons_of_step _ _ hnext, hreplies, hstate]
            rfl
          · exact (along_cons_of_step _ hnext rest).mpr ⟨trivial, halong⟩

/-- Without the right password a new connection learns nothing about the server and
changes nothing in it. -/
theorem nothing_before_auth (lib : Lib) (cfg : Config) (hpassword : cfg.password ≠ [])
    (remoteAddr localAddr : Bytes) {L₁ L₂ : Layout} (s₁ : Server L₁) (s₂ : Server L₂)
    (inputs₁ : List (Input L₁)) (inputs₂ : List (Input L₂))
    (hsame : commands inputs₁ = commands inputs₂)
    (hrefused : ∀ cmd ∈ commands inputs₁, ¬ cmd.Authenticates lib cfg)
    {final₁ : State lib L₁} {final₂ : State lib L₂}
    (hrun₁ : run (step lib cfg) ⟨.new remoteAddr localAddr, s₁⟩ inputs₁ = some final₁)
    (hrun₂ : run (step lib cfg) ⟨.new remoteAddr localAddr, s₂⟩ inputs₂ = some final₂) :
    observe (step lib cfg) (written lib cfg) ⟨.new remoteAddr localAddr, s₁⟩ inputs₁ =
        observe (step lib cfg) (written lib cfg) ⟨.new remoteAddr localAddr, s₂⟩ inputs₂ ∧
      Along (step lib cfg) (Untouched lib cfg) ⟨.new remoteAddr localAddr, s₁⟩ inputs₁ ∧
      Along (step lib cfg) (Untouched lib cfg) ⟨.new remoteAddr localAddr, s₂⟩ inputs₂ := by
  obtain ⟨hreplies₁, halong₁⟩ :=
    follows_gate hpassword (Conn.outside_new remoteAddr localAddr) hrefused hrun₁
  rw [hsame] at hreplies₁ hrefused
  obtain ⟨hreplies₂, halong₂⟩ :=
    follows_gate hpassword (Conn.outside_new remoteAddr localAddr) hrefused hrun₂
  exact ⟨hreplies₁.trans hreplies₂.symm, halong₁, halong₂⟩

def lockedServer : Server (DistCache.Config.layout ⟨1, 0, 0, .lru⟩ fun _ => 0) :=
  { emptyServer with locks := (Locks.Manager.new.acquire 1 [97] [98] 5 [99]).1 }

def knocking : List (Input (DistCache.Config.layout ⟨1, 0, 0, .lru⟩ fun _ => 0)) :=
  [send (text "LOCK") [[97], text "5"], send (text "AUTH") [text "guess"],
    send (text "PING") [[97]], send (text "QUIT") []]

theorem nothing_before_auth_knocking :
    observe (step asciiOnly (Config.new (text "secret") []))
        (written asciiOnly (Config.new (text "secret") [])) ⟨.new [] [], emptyServer⟩ knocking =
      observe (step asciiOnly (Config.new (text "secret") []))
        (written asciiOnly (Config.new (text "secret") [])) ⟨.new [] [], lockedServer⟩
        (knocking ++ [.background Server.incCommands]) ∧
    Along (step asciiOnly (Config.new (text "secret") []))
      (Untouched asciiOnly (Config.new (text "secret") [])) ⟨.new [] [], lockedServer⟩
      (knocking ++ [.background Server.incCommands]) := by
  obtain ⟨final₁, hrun₁⟩ : ∃ final, run (step asciiOnly (Config.new (text "secret") []))
      ⟨.new [] [], emptyServer⟩ knocking = some final := ⟨_, rfl⟩
  obtain ⟨final₂, hrun₂⟩ : ∃ final, run (step asciiOnly (Config.new (text "secret") []))
      ⟨.new [] [], lockedServer⟩ (knocking ++ [.background Server.incCommands]) =
      some final := ⟨_, rfl⟩
  obtain ⟨hreplies, _, huntouched⟩ := nothing_before_auth asciiOnly
    (Config.new (text "secret") []) (by decide) [] [] emptyServer lockedServer knocking
    (knocking ++ [.background Server.incCommands]) rfl (by decide) hrun₁ hrun₂
  exact ⟨hreplies, huntouched⟩

end CacheServer
end DistCache
