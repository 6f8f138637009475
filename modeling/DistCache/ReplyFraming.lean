import DistCache.CommandServer

/-!
# One reply for each command

Every command that is neither `SUBSCRIBE` nor `UNSUBSCRIBE` is answered with one reply, as
long as the connection is open.  The reply can be read back if its texts are single lines.
All are but those that quote the command: an unknown command, one that is not allowed in
`MULTI` and an unknown subcommand of `CLUSTER` are written into an error as they came.
-/

namespace DistCache
namespace CacheServer

open Resp Transition

variable {lib : Lib} {cfg : Config} {L : Layout}

def unknownSub (lib : Lib) (cmd : Command) : Option Bytes :=
  if clusterSub lib cmd = text "MYID" ∨ clusterSub lib cmd = text "INFO" ∨
    clusterSub lib cmd = text "NODES" then none
  else some (clusterSub lib cmd)

def unknown (lib : Lib) (cmd : Command) : Option Bytes :=
  match verbs (lib.toUpper cmd.name), handlers (lib.toUpper cmd.name) with
  | some .cluster, _ => unknownSub lib cmd
  | some _, _ => none
  | none, some _ => none
  | none, none => some (lib.toUpper cmd.name)

def echoed (lib : Lib) (cfg : Config) (c : Conn lib) (cmd : Command) : Option Bytes :=
  if cfg.password ≠ [] ∧ ¬ c.authed ∧ lib.toUpper cmd.name ∉ beforeAuth then none
  else if c.inMulti ∧ lib.toUpper cmd.name ∉ notQueued then
    match handlers (lib.toUpper cmd.name) with
    | some _ => none
    | none => some (lib.toUpper cmd.name)
  else unknown lib cmd

/-- The reply has texts of one line, or it quotes the text. -/
def Answers : Option Bytes → Reply → Prop
  | none, rep => rep.Plain
  | some quoted, rep => ∃ before after, rep = rErrQuoting before quoted after ∧
      10 ∉ text before ∧ text after ≠ [] ∧ OneLine (text after)

/-! ## Quoting -/

theorem Answers.plain {echo : Option Bytes} {rep : Reply} (hanswers : Answers echo rep)
    (hclean : ∀ quoted, echo = some quoted → 10 ∉ quoted) : rep.Plain := by
  cases echo with
  | none => exact hanswers
  | some quoted =>
      obtain ⟨before, after, rfl, hbefore, hne, hafter⟩ := hanswers
      have hfree := hclean quoted rfl
      refine ⟨?_, ?_⟩
      · simp [hbefore, hfree, hafter.1]
      · rw [List.getLast?_append_of_ne_nil _ hne]
        exact hafter.2

theorem Answers.clean {echo : Option Bytes} {rep : Reply} (hanswers : Answers echo rep)
    (hfree : ∀ s, rep = .error s → 10 ∉ s) : ∀ quoted, echo = some quoted → 10 ∉ quoted := by
  intro quoted hecho hmem
  subst hecho
  obtain ⟨before, after, rfl, _⟩ := hanswers
  apply hfree _ rfl
  simp [hmem]

/-! ## The replies of the commands -/

theorem plain_rErr {s : String} (hline : OneLine (text s)) : (rErr s).Plain := hline

theorem plain_rOK : rOK.Plain := (by decide : OneLine (text "OK"))

theorem plain_cmdAuth (c : Conn lib) (cmd : Command) : (cmdAuth cfg c cmd).2.Plain := by
  unfold cmdAuth
  split
  · split_ifs
    · exact plain_rErr (by decide)
    · exact plain_rErr (by decide)
    · exact plain_rOK
  · exact plain_rErr (by decide)

theorem plain_beginMulti (c : Conn lib) : (beginMulti c).2.Plain := by
  unfold beginMulti
  split_ifs
  · exact plain_rErr (by decide)
  · exact plain_rOK

theorem plain_runQueued (clock : ℕ → Clock) (queued : List (Queued lib)) (i : ℕ)
    (e : Engine L) : PlainAll (runQueued clock i e queued).2 := by
  induction queued generalizing i e with
  | nil => trivial
  | cons q rest ih => exact ⟨plain_plan q.found _, ih _ _⟩

theorem plain_execTx (env : Env L) (c : Conn lib) (s : Server L) :
    (execTx env c s).2.2.Plain := by
  unfold execTx
  split
  · dsimp only
    split
    · exact plain_rErr (by decide)
    · split
      · exact plain_runQueued env.clock c.theTx.queued 0 s.engine
      · trivial
  · exact plain_rErr (by decide)

theorem plain_discard (c : Conn lib) (s : Server L) : (discard c s).2.2.Plain := by
  unfold discard
  split
  · exact plain_rErr (by decide)
  · exact plain_rOK

theorem plain_watch (env : Env L) (c : Conn lib) (s : Server L) (cmd : Command) :
    (watch env c s cmd).2.2.Plain := by
  unfold watch
  split_ifs
  · exact plain_rErr (by decide)
  · split
    · exact plain_rErr (by decide)
    · exact plain_rOK

theorem plain_unwatch (c : Conn lib) (s : Server L) : (unwatch c s).2.2.Plain := by
  unfold unwatch
  split
  · exact plain_rOK
  · split_ifs <;> exact plain_rOK

theorem plain_cmdPublish (s : Server L) (cmd : Command) : (cmdPublish s cmd).2.Plain := by
  unfold cmdPublish
  split
  · trivial
  · exact plain_rErr (by decide)

theorem plain_cmdLock (env : Env L) (c : Conn lib) (s : Server L) (cmd : Command) :
    (cmdLock env c s cmd).2.Plain := by
  unfold cmdLock
  split
  · split
    · exact plain_rErr (by decide)
    · split_ifs
      · exact plain_rErr (by decide)
      · dsimp only
        cases (s.locks.acquire env.now _ _ _ env.token).2 <;> trivial
  · exact plain_rErr (by decide)

theorem plain_cmdUnlock (s : Server L) (cmd : Command) : (cmdUnlock s cmd).2.Plain := by
  unfold cmdUnlock
  split
  · dsimp only
    split_ifs <;> trivial
  · exact plain_rErr (by decide)

theorem plain_cmdRenewLock (env : Env L) (s : Server L) (cmd : Command) :
    (cmdRenewLock env s cmd).2.Plain := by
  unfold cmdRenewLock
  split
  · split
    · exact plain_rErr (by decide)
    · split_ifs
      · exact plain_rErr (by decide)
      · dsimp only
        split_ifs <;> trivial
  · exact plain_rErr (by decide)

/-- `SUBSCRIBE` and `UNSUBSCRIBE` are answered once for each topic. -/
def Command.Subscribes (lib : Lib) (cmd : Command) : Prop :=
  verbs (lib.toUpper cmd.name) = some .subscribe ∨
    verbs (lib.toUpper cmd.name) = some .unsubscribe

instance (lib : Lib) (cmd : Command) : Decidable (cmd.Subscribes lib) :=
  inferInstanceAs (Decidable (_ ∨ _))

theorem written_run (cfg : Config) (env : Env L) (c : Conn lib) (s : Server L)
    (cmd : Command) {v : Verb} (hsubscribe : v ≠ .subscribe) (hunsubscribe : v ≠ .unsubscribe)
    (hcluster : v ≠ .cluster) :
    ∃ rep, (v.run lib cfg env c s cmd).written = [rep] ∧ rep.Plain := by
  cases v with
  | quit => exact ⟨_, rfl, plain_rOK⟩
  | auth => exact ⟨_, rfl, plain_cmdAuth c cmd⟩
  | multi => exact ⟨_, rfl, plain_beginMulti c⟩
  | exec => exact ⟨_, rfl, plain_execTx env c s⟩
  | discard => exact ⟨_, rfl, plain_discard c s⟩
  | watch => exact ⟨_, rfl, plain_watch env c s cmd⟩
  | unwatch => exact ⟨_, rfl, plain_unwatch c s⟩
  | subscribe => exact absurd rfl hsubscribe
  | unsubscribe => exact absurd rfl hunsubscribe
  | publish => exact ⟨_, rfl, plain_cmdPublish s cmd⟩
  | lock => exact ⟨_, rfl, plain_cmdLock env c s cmd⟩
  | unlock => exact ⟨_, rfl, plain_cmdUnlock s cmd⟩
  | renewLock => exact ⟨_, rfl, plain_cmdRenewLock env s cmd⟩
  | info => exact ⟨_, rfl, trivial⟩
  | cluster => exact absurd rfl hcluster
  | command => exact ⟨_, rfl, trivial⟩

theorem answers_cmdCluster (env : Env L) (c : Conn lib) (s : Server L) (cmd : Command) :
    Answers (unknownSub lib cmd) (cmdCluster lib cfg env c s cmd) := by
  unfold cmdCluster unknownSub
  dsimp only
  by_cases hmyid : clusterSub lib cmd = text "MYID"
  · rw [if_pos hmyid, if_pos (Or.inl hmyid)]
    trivial
  · by_cases hinfo : clusterSub lib cmd = text "INFO"
    · rw [if_neg hmyid, if_pos hinfo, if_pos (Or.inr (Or.inl hinfo))]
      split <;> trivial
    · by_cases hnodes : clusterSub lib cmd = text "NODES"
      · rw [if_neg hmyid, if_neg hinfo, if_pos hnodes, if_pos (Or.inr (Or.inr hnodes))]
        split <;> trivial
      · have hunknown : ¬ (clusterSub lib cmd = text "MYID" ∨
            clusterSub lib cmd = text "INFO" ∨ clusterSub lib cmd = text "NODES") := by
          simp [hmyid, hinfo, hnodes]
        rw [if_neg hmyid, if_neg hinfo, if_neg hnodes, if_neg hunknown]
        exact ⟨_, _, rfl, by decide, by decide, by decide⟩

theorem written_execute (env : Env L) (c : Conn lib) (s : Server L) {cmd : Command}
    (hcmd : ¬ cmd.Subscribes lib) :
    ∃ rep, (execute lib cfg env c s cmd).written = [rep] ∧ Answers (unknown lib cmd) rep := by
  rw [Command.Subscribes, not_or] at hcmd
  unfold execute unknown
  cases hverb : verbs (lib.toUpper cmd.name) with
  | some v =>
      rw [hverb] at hcmd
      by_cases hcluster : v = .cluster
      · subst hcluster
        exact ⟨_, rfl, answers_cmdCluster env c s cmd⟩
      · obtain ⟨rep, hwritten, hplain⟩ := written_run cfg env c s cmd
          (fun heq => hcmd.1 (congrArg some heq)) (fun heq => hcmd.2 (congrArg some heq)) hcluster
        refine ⟨rep, hwritten, ?_⟩
        cases v with
        | cluster => exact absurd rfl hcluster
        | _ => exact hplain
  | none =>
      cases hhandler : handlers (lib.toUpper cmd.name) with
      | some h => exact ⟨_, rfl, plain_plan hhandler _⟩
      | none => exact ⟨_, rfl, _, _, rfl, by decide, by decide, by decide⟩

theorem written_enqueue (c : Conn lib) (s : Server L) (cmd : Command) :
    ∃ rep, (enqueue lib c s cmd).written = [rep] ∧
      Answers (match handlers (lib.toUpper cmd.name) with
        | some _ => none
        | none => some (lib.toUpper cmd.name)) rep := by
  unfold enqueue
  split
  · rename_i h hfound
    refine ⟨_, rfl, ?_⟩
    rw [hfound]
    exact (by decide : OneLine (text "QUEUED"))
  · rename_i hfound
    refine ⟨_, rfl, ?_⟩
    rw [hfound]
    exact ⟨_, _, rfl, by decide, by decide, by decide⟩

theorem written_dispatch (cfg : Config) (env : Env L) (c : Conn lib) (s : Server L) {cmd : Command}
    (hcmd : ¬ cmd.Subscribes lib) :
    ∃ rep, (dispatch lib cfg env c s cmd).written = [rep] ∧
      Answers (echoed lib cfg c cmd) rep := by
  unfold dispatch echoed
  split_ifs
  · exact ⟨_, rfl, (by decide : OneLine (text "NOAUTH Authentication required."))⟩
  · exact written_enqueue c s cmd
  · exact written_execute env c s hcmd

/-! ## Subscriptions -/

theorem subs_queue (c : Conn lib) (q : Queued lib) : (queue c q).subs = c.subs := by
  unfold queue
  split <;> rfl

theorem subs_cmdAuth (c : Conn lib) (cmd : Command) : (cmdAuth cfg c cmd).1.subs = c.subs := by
  unfold cmdAuth
  split
  · split_ifs <;> rfl
  · rfl

theorem subs_beginMulti (c : Conn lib) : (beginMulti c).1.subs = c.subs := by
  unfold beginMulti
  split_ifs <;> rfl

theorem subs_execTx (env : Env L) (c : Conn lib) (s : Server L) :
    (execTx env c s).1.subs = c.subs := by
  unfold execTx
  dsimp only
  split_ifs <;> rfl

theorem subs_discard (c : Conn lib) (s : Server L) : (discard c s).1.subs = c.subs := by
  unfold discard
  split <;> rfl

theorem subs_watch (env : Env L) (c : Conn lib) (s : Server L) (cmd : Command) :
    (watch env c s cmd).1.subs = c.subs := by
  unfold watch
  split_ifs
  · rfl
  · split <;> rfl

theorem subs_unwatch (c : Conn lib) (s : Server L) : (unwatch c s).1.subs = c.subs := by
  unfold unwatch
  split
  · rfl
  · split_ifs <;> rfl

theorem subs_dispatch (env : Env L) {c : Conn lib} (s : Server L) {cmd : Command}
    (hcmd : ¬ cmd.Subscribes lib) (hsubs : c.subs = ∅) :
    (dispatch lib cfg env c s cmd).conn.subs = ∅ := by
  rw [Command.Subscribes, not_or] at hcmd
  unfold dispatch
  split_ifs
  · exact hsubs
  · unfold enqueue
    split
    · rw [subs_queue]
      exact hsubs
    · exact hsubs
  · unfold execute
    cases hverb : verbs (lib.toUpper cmd.name) with
    | none =>
        cases handlers (lib.toUpper cmd.name) with
        | none => exact hsubs
        | some h => exact hsubs
    | some v =>
        rw [hverb] at hcmd
        cases v with
        | subscribe => exact absurd rfl hcmd.1
        | unsubscribe => exact absurd rfl hcmd.2
        | quit =>
            simp only [Verb.run, CacheServer.quit, closeSubs_of_empty hsubs]
            exact hsubs
        | auth => exact (subs_cmdAuth c cmd).trans hsubs
        | multi => exact (subs_beginMulti c).trans hsubs
        | exec => exact (subs_execTx env c s).trans hsubs
        | discard => exact (subs_discard c s).trans hsubs
        | watch => exact (subs_watch env c s cmd).trans hsubs
        | unwatch => exact (subs_unwatch c s).trans hsubs
        | publish => exact hsubs
        | lock => exact hsubs
        | unlock => exact hsubs
        | renewLock => exact hsubs
        | info => exact hsubs
        | cluster => exact hsubs
        | command => exact hsubs

/-! ## The stream of the replies -/

def commands (inputs : List (Input L)) : List Command :=
  inputs.filterMap fun
    | .command cmd _ => some cmd
    | _ => none

/-- The connection is open, and no error quotes a line feed. -/
def Clean (lib : Lib) (cfg : Config) (st : State lib L) : Input L → Prop
  | .command cmd _ =>
      st.conn.closed = false ∧ ∀ quoted ∈ echoed lib cfg st.conn cmd, 10 ∉ quoted
  | _ => True

instance (st : State lib L) (input : Input L) : Decidable (Clean lib cfg st input) :=
  match input with
  | .command cmd _ => inferInstanceAs (Decidable (st.conn.closed = false ∧
      ∀ quoted ∈ echoed lib cfg st.conn cmd, 10 ∉ quoted))
  | .forward _ => inferInstanceAs (Decidable True)
  | .background _ => inferInstanceAs (Decidable True)

def Input.Single (lib : Lib) : Input L → Prop
  | .command cmd _ => ¬ cmd.Subscribes lib
  | _ => True

instance (lib : Lib) (input : Input L) : Decidable (input.Single lib) :=
  match input with
  | .command cmd _ => inferInstanceAs (Decidable (¬ cmd.Subscribes lib))
  | .forward _ => inferInstanceAs (Decidable True)
  | .background _ => inferInstanceAs (Decidable True)

section Step

variable {st next : State lib L}

theorem subs_step {input : Input L} (hsubs : st.conn.subs = ∅) (hsingle : input.Single lib)
    (hstep : step lib cfg st input = some next) : next.conn.subs = ∅ := by
  cases input with
  | command cmd env =>
      rw [← Option.some.inj hstep]
      dsimp only
      unfold serve
      split_ifs
      · exact hsubs
      · exact subs_dispatch env _ hsingle hsubs
  | forward topic => simp [step, message, hsubs] at hstep
  | background f =>
      rw [← Option.some.inj hstep]
      exact hsubs

theorem written_cases {input : Input L} (hsubs : st.conn.subs = ∅)
    (hsingle : input.Single lib) (hstep : step lib cfg st input = some next) :
    (written lib cfg st input = [] ∧ commands [input] = [] ∧ Clean lib cfg st input) ∨
      (written lib cfg st input = [] ∧ (commands [input]).length = 1 ∧
        ¬ Clean lib cfg st input) ∨
      ∃ rep, written lib cfg st input = [rep] ∧ (commands [input]).length = 1 ∧
        (Clean lib cfg st input → rep.Plain) ∧
        ((∀ s, rep = .error s → 10 ∉ s) → Clean lib cfg st input) := by
  cases input with
  | command cmd env =>
      right
      cases hclosed : st.conn.closed with
      | true =>
          left
          refine ⟨?_, rfl, ?_⟩
          · simp [written, serve, hclosed]
          · simp [Clean, hclosed]
      | false =>
          right
          obtain ⟨rep, hwritten, hanswers⟩ :=
            written_dispatch cfg env st.conn st.server.incCommands hsingle
          refine ⟨rep, ?_, rfl, fun hclean => hanswers.plain hclean.2,
            fun hfree => ⟨hclosed, hanswers.clean hfree⟩⟩
          simp [written, serve, hclosed, hwritten]
  | forward topic => simp [step, message, hsubs] at hstep
  | background f => exact Or.inl ⟨rfl, rfl, trivial⟩

end Step

theorem commands_cons (input : Input L) (rest : List (Input L)) :
    commands (input :: rest) = commands [input] ++ commands rest := by
  have happend : commands ([input] ++ rest) = commands [input] ++ commands rest :=
    List.filterMap_append
  exact happend

/-- What a run writes: no more replies than commands, and as many, of single lines,
if and only if the run is clean. -/
structure Framed (lib : Lib) (cfg : Config) (st : State lib L) (inputs : List (Input L)) :
    Prop where
  length_le : (observe (step lib cfg) (written lib cfg) st inputs).length ≤
    (commands inputs).length
  complete : Along (step lib cfg) (Clean lib cfg) st inputs →
    (observe (step lib cfg) (written lib cfg) st inputs).length = (commands inputs).length ∧
      ∀ rep ∈ observe (step lib cfg) (written lib cfg) st inputs, rep.Plain
  clean : (observe (step lib cfg) (written lib cfg) st inputs).length =
      (commands inputs).length →
    (∀ s, Value.error s ∈ observe (step lib cfg) (written lib cfg) st inputs → 10 ∉ s) →
    Along (step lib cfg) (Clean lib cfg) st inputs

section Cons

variable {st next : State lib L} {input : Input L} {rest : List (Input L)}

theorem length_commands_cons (input : Input L) (rest : List (Input L)) :
    (commands (input :: rest)).length =
      (commands [input]).length + (commands rest).length := by
  rw [commands_cons, List.length_append]

theorem Framed.silent (hframed : Framed lib cfg next rest)
    (hnext : step lib cfg st input = some next) (hwritten : written lib cfg st input = [])
    (hnone : commands [input] = []) (hclean : Clean lib cfg st input) :
    Framed lib cfg st (input :: rest) := by
  have hobserve := observe_cons_of_step (step lib cfg) (written lib cfg) hnext rest
  have hcommands := length_commands_cons input rest
  have halong := along_cons_of_step (step lib cfg) (P := Clean lib cfg) hnext rest
  rw [hwritten, List.nil_append] at hobserve
  rw [hnone, List.length_nil, Nat.zero_add] at hcommands
  refine ⟨?_, ?_, ?_⟩
  · rw [hobserve, hcommands]
    exact hframed.length_le
  · intro hall
    rw [hobserve, hcommands]
    exact hframed.complete (halong.mp hall).2
  · intro hlength herrors
    rw [hobserve, hcommands] at hlength
    rw [hobserve] at herrors
    exact halong.mpr ⟨hclean, hframed.clean hlength herrors⟩

theorem Framed.dropped (hframed : Framed lib cfg next rest)
    (hnext : step lib cfg st input = some next) (hwritten : written lib cfg st input = [])
    (hone : (commands [input]).length = 1) (hdirty : ¬ Clean lib cfg st input) :
    Framed lib cfg st (input :: rest) := by
  have hobserve := observe_cons_of_step (step lib cfg) (written lib cfg) hnext rest
  have hcommands := length_commands_cons input rest
  have hle := hframed.length_le
  rw [hwritten, List.nil_append] at hobserve
  rw [hone] at hcommands
  refine ⟨?_, ?_, ?_⟩
  · rw [hobserve, hcommands]
    omega
  · intro hall
    exact absurd hall.1 hdirty
  · intro hlength _
    rw [hobserve, hcommands] at hlength
    omega

theorem Framed.answered {rep : Reply} (hframed : Framed lib cfg next rest)
    (hnext : step lib cfg st input = some next) (hwritten : written lib cfg st input = [rep])
    (hone : (commands [input]).length = 1) (hplain : Clean lib cfg st input → rep.Plain)
    (hfree : (∀ s, rep = .error s → 10 ∉ s) → Clean lib cfg st input) :
    Framed lib cfg st (input :: rest) := by
  have hobserve := observe_cons_of_step (step lib cfg) (written lib cfg) hnext rest
  have hcommands := length_commands_cons input rest
  have halong := along_cons_of_step (step lib cfg) (P := Clean lib cfg) hnext rest
  have hle := hframed.length_le
  rw [hwritten, List.singleton_append] at hobserve
  rw [hone] at hcommands
  refine ⟨?_, ?_, ?_⟩
  · rw [hobserve, hcommands, List.length_cons]
    omega
  · intro hall
    obtain ⟨hfirstClean, hrestClean⟩ := halong.mp hall
    obtain ⟨hlength, hrestPlain⟩ := hframed.complete hrestClean
    rw [hobserve, hcommands, List.length_cons, hlength]
    refine ⟨Nat.add_comm _ _, ?_⟩
    intro other hmem
    rcases List.mem_cons.mp hmem with heq | hother
    · rw [heq]
      exact hplain hfirstClean
    · exact hrestPlain other hother
  · intro hlength herrors
    rw [hobserve, hcommands, List.length_cons] at hlength
    rw [hobserve] at herrors
    have hfirst : Clean lib cfg st input := hfree fun s heq => herrors s (by simp [heq])
    have hrest : Along (step lib cfg) (Clean lib cfg) next rest :=
      hframed.clean (by omega) fun s hmem => herrors s (List.mem_cons_of_mem rep hmem)
    exact halong.mpr ⟨hfirst, hrest⟩

end Cons

theorem framed_run {st final : State lib L} {inputs : List (Input L)}
    (hsubs : st.conn.subs = ∅) (hsingle : ∀ input ∈ inputs, input.Single lib)
    (hrun : run (step lib cfg) st inputs = some final) : Framed lib cfg st inputs := by
  induction inputs generalizing st with
  | nil => exact ⟨le_rfl, fun _ => ⟨rfl, fun rep hmem => absurd hmem List.not_mem_nil⟩,
      fun _ _ => trivial⟩
  | cons input rest ih =>
      obtain ⟨next, hnext, hrest⟩ := (run_cons_eq_some _).mp hrun
      have hfirst : input.Single lib := hsingle input List.mem_cons_self
      have hframed := ih (subs_step hsubs hfirst hnext)
        (fun other hmem => hsingle other (List.mem_cons_of_mem input hmem)) hrest
      rcases written_cases hsubs hfirst hnext with
        ⟨hwritten, hnone, hclean⟩ | ⟨hwritten, hone, hdirty⟩ |
          ⟨rep, hwritten, hone, hplain, hfree⟩
      · exact hframed.silent hnext hwritten hnone hclean
      · exact hframed.dropped hnext hwritten hone hdirty
      · exact hframed.answered hnext hwritten hone hplain hfree

/-- The replies of a connection can be read back, one for each command, if and only
if no command follows a `QUIT` and no error quotes a line feed. -/
theorem replies_readable_iff (lib : Lib) (cfg : Config) (st : State lib L)
    (hsubs : st.conn.subs = ∅) (inputs : List (Input L))
    (hsingle : ∀ input ∈ inputs, input.Single lib) {final : State lib L}
    (hrun : run (step lib cfg) st inputs = some final)
    (hfits : ∀ rep ∈ observe (step lib cfg) (written lib cfg) st inputs, rep.Fits) :
    readMany readReply (commands inputs).length
        (writeReplies (observe (step lib cfg) (written lib cfg) st inputs)) =
        .ok (observe (step lib cfg) (written lib cfg) st inputs, []) ↔
      Along (step lib cfg) (Clean lib cfg) st inputs := by
  have hframed := framed_run hsubs hsingle hrun
  constructor
  · intro hread
    apply hframed.clean (length_of_readMany hread)
    intro s hmem
    obtain ⟨before, after, herror⟩ := exists_read_of_mem_readMany hread hmem
    exact not_mem_of_readReply_error herror
  · intro hclean
    obtain ⟨hlength, hplain⟩ := hframed.complete hclean
    have hread := readMany_readReply hplain hfits []
    rw [List.append_nil] at hread
    rw [← hlength]
    exact hread

def emptyServer : Server (DistCache.Config.layout ⟨1, 0, 0, .lru⟩ fun _ => 0) :=
  Server.new (Cache.new ⟨1, 0, 0, .lru⟩ (fun _ => 0) fun _ _ => 0) 0

def send (name : Bytes) (args : List Bytes) :
    Input (DistCache.Config.layout ⟨1, 0, 0, .lru⟩ fun _ => 0) :=
  .command ⟨name, args⟩ ⟨fun _ => ⟨1, 1⟩, 1, [], fun _ => 1, id⟩

def session : List (Input (DistCache.Config.layout ⟨1, 0, 0, .lru⟩ fun _ => 0)) :=
  [send (text "multi") [], send (text "SET") [[97], [10]], send (text "MGET") [[97], [98]],
    send (text "EXEC") [], send (text "FOO") [], send (text "QUIT") []]

theorem replies_readable_iff_session :
    ∃ final, run (step asciiOnly (Config.new [] [])) ⟨.new [] [], emptyServer⟩ session =
        some final ∧
      readMany readReply 6 (writeReplies (observe (step asciiOnly (Config.new [] []))
        (written asciiOnly (Config.new [] [])) ⟨.new [] [], emptyServer⟩ session)) =
      .ok ([rOK, .simple (text "QUEUED"), .simple (text "QUEUED"),
        .array [rOK, .array [.bulk [10], .nil]],
        .error (text "ERR unknown command 'FOO'"), rOK], []) := by
  have hreplies : observe (step asciiOnly (Config.new [] []))
      (written asciiOnly (Config.new [] [])) ⟨.new [] [], emptyServer⟩ session =
      [rOK, .simple (text "QUEUED"), .simple (text "QUEUED"),
        .array [rOK, .array [.bulk [10], .nil]],
        .error (text "ERR unknown command 'FOO'"), rOK] := by
    rfl
  obtain ⟨final, hrun⟩ : ∃ final, run (step asciiOnly (Config.new [] []))
      ⟨.new [] [], emptyServer⟩ session = some final := ⟨_, rfl⟩
  have hfits : ∀ rep ∈ observe (step asciiOnly (Config.new [] []))
      (written asciiOnly (Config.new [] [])) ⟨.new [] [], emptyServer⟩ session, rep.Fits := by
    rw [hreplies]
    simp [Value.Fits, FitsAll, rOK, rSimple, maxLen]
  have hread := (replies_readable_iff asciiOnly (Config.new [] []) ⟨.new [] [], emptyServer⟩
    rfl session (by decide +kernel) hrun hfits).mpr (by decide +kernel)
  rw [hreplies] at hread
  exact ⟨final, hrun, hread⟩

/-- The reply to an unknown command with a line feed in its name leaves bytes that
are no reply. -/
theorem line_feed_splits_reply :
    readMany readReply 1 (writeReplies (observe (step asciiOnly (Config.new [] []))
        (written asciiOnly (Config.new [] [])) ⟨.new [] [], emptyServer⟩
        [send [65, 10, 66] []])) =
        .ok ([.error (text "ERR unknown command 'A")], [66, 39, 13, 10]) ∧
      readReply [66, 39, 13, 10] = .error .errProtocol := by
  exact ⟨rfl, rfl⟩

end CacheServer
end DistCache
