import DistCache.Transactions

/-!
# The calls of the transaction package

Several transactions share a coordinator, which counts for each watched key the
transactions and the events.  `Exec` compares the versions in one step, runs the queued
commands one by one and gives the keys back in its last step; other calls go on in
between.  When it aborts, only the keys are given back: the next `Exec` finds nothing to
compare and runs the same commands.

The numbers of the `Queue` calls tell the commands apart; the program does not have them.
-/

namespace DistCache
namespace TxnCalls

open Transition

/-! ## The maps of the coordinator -/

structure Coordinator where
  versions : AList fun _ : Key => UInt64
  watchers : AList fun _ : Key => ℕ

structure Tx (F : Type*) where
  watched : AList fun _ : Key => UInt64
  queued : List (ℕ × F)
  inMulti : Bool

def Tx.new {F : Type*} : Tx F := ⟨∅, [], false⟩

namespace Coordinator

variable {F : Type*}

def new : Coordinator := ⟨∅, ∅⟩

def version (co : Coordinator) (key : Key) : UInt64 := (co.versions.lookup key).getD 0

def count (co : Coordinator) (key : Key) : ℕ := (co.watchers.lookup key).getD 0

def bump (co : Coordinator) (key : Key) : Coordinator :=
  { co with versions := co.versions.insert key (co.version key + 1) }

def onEvent (co : Coordinator) (ev : Event) : Coordinator :=
  if ev.op = .opFlush then co.watchers.keys.foldl bump co
  else if ev.key ≠ [] ∧ 0 < co.count ev.key then co.bump ev.key
  else co

def watchKey (r : Coordinator × Tx F) (key : Key) : Coordinator × Tx F :=
  if key ∈ r.2.watched then r
  else
    ({ r.1 with watchers := r.1.watchers.insert key (r.1.count key + 1) },
      { r.2 with watched := r.2.watched.insert key (r.1.version key) })

def watch (co : Coordinator) (tx : Tx F) (keys : List Key) : Coordinator × Tx F :=
  keys.foldl watchKey (co, tx)

def unwatchKey (co : Coordinator) (key : Key) : Coordinator :=
  if 0 < co.count key then
    if co.count key = 1 then ⟨co.versions.erase key, co.watchers.erase key⟩
    else { co with watchers := co.watchers.insert key (co.count key - 1) }
  else co

def release (co : Coordinator) (tx : Tx F) : Coordinator := tx.watched.keys.foldl unwatchKey co

def Unchanged (co : Coordinator) (tx : Tx F) : Prop :=
  ∀ entry ∈ tx.watched.entries, co.version entry.1 = entry.2

instance (co : Coordinator) (tx : Tx F) : Decidable (co.Unchanged tx) :=
  inferInstanceAs (Decidable (∀ entry ∈ tx.watched.entries, co.version entry.1 = entry.2))

theorem queued_watch (co : Coordinator) (tx : Tx F) (keys : List Key) :
    (co.watch tx keys).2.queued = tx.queued := by
  have hkeys : ∀ r : Coordinator × Tx F, (keys.foldl watchKey r).2.queued = r.2.queued := by
    induction keys with
    | nil => exact fun r => rfl
    | cons first rest ih =>
        intro r
        rw [List.foldl_cons, ih]
        unfold watchKey
        split_ifs <;> rfl
  exact hkeys (co, tx)

end Coordinator

/-! ## The calls -/

inductive Phase (F R : Type*) where
  | idle
  | running (todo : List (ℕ × F)) (results : List R)
  | aborting

/-- The transactions of one coordinator; `S` is the cache. -/
structure World (T F S R : Type*) where
  co : Coordinator
  execMu : Option T
  txs : T → Option (Tx F)
  phase : T → Phase F R
  cache : S
  issued : ℕ

inductive Action (T F : Type*) where
  | begin (t : T)
  | watch (t : T) (keys : List Key)
  | multi (t : T)
  | queue (t : T) (cmd : F)
  | discard (t : T)
  | exec (t : T)
  | call (t : T)
  | finish (t : T)
  | onEvent (ev : Event)

def Action.tx {T F : Type*} : Action T F → Option T
  | .begin t => some t
  | .watch t _ => some t
  | .multi t => some t
  | .queue t _ => some t
  | .discard t => some t
  | .exec t => some t
  | .call t => some t
  | .finish t => some t
  | .onEvent _ => none

inductive Answer (R : Type*) where
  | ok
  | errInMulti
  | errNoMulti
  | errAborted
  | results (rs : List R)

namespace World

variable {T F S R : Type*} [DecidableEq T]

def start (cache : S) : World T F S R := ⟨.new, none, fun _ => none, fun _ => .idle, cache, 0⟩

def idleTx (s : World T F S R) (t : T) : Option (Tx F) :=
  match s.phase t with
  | .idle => s.txs t
  | _ => none

def setTx (s : World T F S R) (t : T) (tx : Tx F) : World T F S R :=
  { s with txs := Function.update s.txs t (some tx) }

def setPhase (s : World T F S R) (t : T) (phase : Phase F R) : World T F S R :=
  { s with phase := Function.update s.phase t phase }

@[simp] theorem txs_setTx (s : World T F S R) (t other : T) (tx : Tx F) :
    (s.setTx t tx).txs other = if other = t then some tx else s.txs other := by
  simp [setTx, Function.update_apply]

@[simp] theorem phase_setTx (s : World T F S R) (t : T) (tx : Tx F) :
    (s.setTx t tx).phase = s.phase := rfl

@[simp] theorem phase_setPhase (s : World T F S R) (t other : T) (phase : Phase F R) :
    (s.setPhase t phase).phase other = if other = t then phase else s.phase other := by
  simp [setPhase, Function.update_apply]

@[simp] theorem txs_setPhase (s : World T F S R) (t : T) (phase : Phase F R) :
    (s.setPhase t phase).txs = s.txs := rfl

def begin (s : World T F S R) (t : T) : Option (World T F S R) :=
  match s.txs t with
  | none => some (s.setTx t .new)
  | some _ => none

def watch (s : World T F S R) (t : T) (keys : List Key) : Option (World T F S R) :=
  (s.idleTx t).map fun tx =>
    if tx.inMulti then s
    else { s with co := (s.co.watch tx keys).1 }.setTx t (s.co.watch tx keys).2

def multi (s : World T F S R) (t : T) : Option (World T F S R) :=
  (s.idleTx t).map fun tx => if tx.inMulti then s else s.setTx t { tx with inMulti := true }

def queue (s : World T F S R) (t : T) (cmd : F) : Option (World T F S R) :=
  (s.idleTx t).map fun tx =>
    if tx.inMulti then
      { s with issued := s.issued + 1 }.setTx t
        { tx with queued := tx.queued ++ [(s.issued, cmd)] }
    else s

def discard (s : World T F S R) (t : T) : Option (World T F S R) :=
  (s.idleTx t).map fun tx => { s with co := s.co.release tx }.setTx t .new

/-- `Exec` waits for the lock and compares the versions. -/
def exec (s : World T F S R) (t : T) : Option (World T F S R) :=
  (s.idleTx t).bind fun tx =>
    if tx.inMulti then
      if s.execMu.isNone then
        some ({ s with execMu := some t }.setPhase t
          (if s.co.Unchanged tx then .running tx.queued [] else .aborting))
      else none
    else some s

def call (apply : F → S → S × R) (s : World T F S R) (t : T) : Option (World T F S R) :=
  match s.phase t with
  | .running (cmd :: todo) results =>
      some ({ s with cache := (apply cmd.2 s.cache).1 }.setPhase t
        (.running todo (results ++ [(apply cmd.2 s.cache).2])))
  | _ => none

def finish (s : World T F S R) (t : T) : Option (World T F S R) :=
  (s.txs t).bind fun tx =>
    match s.phase t with
    | .running [] _ =>
        some (({ s with co := s.co.release tx, execMu := none }.setTx t .new).setPhase t .idle)
    | .aborting =>
        some (({ s with co := s.co.release tx, execMu := none }.setTx t
          { tx with watched := ∅ }).setPhase t .idle)
    | _ => none

def step (apply : F → S → S × R) (s : World T F S R) : Action T F → Option (World T F S R)
  | .begin t => s.begin t
  | .watch t keys => s.watch t keys
  | .multi t => s.multi t
  | .queue t cmd => s.queue t cmd
  | .discard t => s.discard t
  | .exec t => s.exec t
  | .call t => s.call apply t
  | .finish t => s.finish t
  | .onEvent ev => some { s with co := s.co.onEvent ev }

def answer (s : World T F S R) : Action T F → Option (Answer R)
  | .begin _ => some .ok
  | .watch t _ => (s.idleTx t).map fun tx => if tx.inMulti then .errInMulti else .ok
  | .multi t => (s.idleTx t).map fun tx => if tx.inMulti then .errInMulti else .ok
  | .queue t _ => (s.idleTx t).map fun tx => if tx.inMulti then .ok else .errNoMulti
  | .discard _ => some .ok
  | .exec t => (s.idleTx t).bind fun tx => if tx.inMulti then none else some .errNoMulti
  | .call _ => none
  | .finish t =>
      match s.phase t with
      | .running [] results => some (.results results)
      | .aborting => some .errAborted
      | _ => none
  | .onEvent _ => none

/-- The commands that an `Exec` of this transaction sets out to run. -/
def executes (t : T) (s : World T F S R) : Action T F → List (ℕ × F)
  | .exec other =>
      if other = t then
        match s.idleTx t with
        | some tx => if tx.inMulti ∧ s.co.Unchanged tx then tx.queued else []
        | none => []
      else []
  | _ => []

/-! ## What a step can do -/

inductive Effect (apply : F → S → S × R) (s next : World T F S R) : Action T F → Prop where
  | began (t : T) (hnone : s.txs t = none) (hnext : next = s.setTx t .new) :
      Effect apply s next (.begin t)
  | refused (a : Action T F)
      (hrefused : s.answer a = some .errInMulti ∨ s.answer a = some .errNoMulti)
      (hnext : next = s) : Effect apply s next a
  | watched (t : T) (keys : List Key) (tx : Tx F) (htx : s.idleTx t = some tx)
      (hmulti : tx.inMulti = false)
      (hnext : next =
        { s with co := (s.co.watch tx keys).1 }.setTx t (s.co.watch tx keys).2) :
      Effect apply s next (.watch t keys)
  | entered (t : T) (tx : Tx F) (htx : s.idleTx t = some tx) (hmulti : tx.inMulti = false)
      (hnext : next = s.setTx t { tx with inMulti := true }) : Effect apply s next (.multi t)
  | queued (t : T) (cmd : F) (tx : Tx F) (htx : s.idleTx t = some tx)
      (hmulti : tx.inMulti = true)
      (hnext : next = { s with issued := s.issued + 1 }.setTx t
        { tx with queued := tx.queued ++ [(s.issued, cmd)] }) :
      Effect apply s next (.queue t cmd)
  | discarded (t : T) (tx : Tx F) (htx : s.idleTx t = some tx)
      (hnext : next = { s with co := s.co.release tx }.setTx t .new) :
      Effect apply s next (.discard t)
  | compared (t : T) (tx : Tx F) (htx : s.idleTx t = some tx) (hmulti : tx.inMulti = true)
      (hnext : next = { s with execMu := some t }.setPhase t
        (if s.co.Unchanged tx then .running tx.queued [] else .aborting)) :
      Effect apply s next (.exec t)
  | called (t : T) (cmd : ℕ × F) (todo : List (ℕ × F)) (results : List R)
      (hphase : s.phase t = .running (cmd :: todo) results)
      (hnext : next = { s with cache := (apply cmd.2 s.cache).1 }.setPhase t
        (.running todo (results ++ [(apply cmd.2 s.cache).2]))) :
      Effect apply s next (.call t)
  | succeeded (t : T) (tx : Tx F) (results : List R) (htx : s.txs t = some tx)
      (hphase : s.phase t = .running [] results)
      (hnext : next =
        ({ s with co := s.co.release tx, execMu := none }.setTx t .new).setPhase t .idle) :
      Effect apply s next (.finish t)
  | aborted (t : T) (tx : Tx F) (htx : s.txs t = some tx) (hphase : s.phase t = .aborting)
      (hnext : next = ({ s with co := s.co.release tx, execMu := none }.setTx t
        { tx with watched := ∅ }).setPhase t .idle) :
      Effect apply s next (.finish t)
  | delivered (ev : Event) (hnext : next = { s with co := s.co.onEvent ev }) :
      Effect apply s next (.onEvent ev)

section Effect

variable {apply : F → S → S × R} {s next : World T F S R} {a : Action T F} {t : T} {tx : Tx F}

omit [DecidableEq T] in
theorem idleTx_eq_some : s.idleTx t = some tx ↔ s.phase t = .idle ∧ s.txs t = some tx := by
  unfold idleTx
  cases hphase : s.phase t <;> simp

theorem effect_watch {keys : List Key} (hstep : s.watch t keys = some next) :
    Effect apply s next (.watch t keys) := by
  obtain ⟨tx, htx, hnext⟩ := Option.map_eq_some_iff.mp hstep
  cases hmulti : tx.inMulti with
  | true =>
      rw [hmulti, if_pos rfl] at hnext
      exact .refused _ (Or.inl (by simp [answer, htx, hmulti])) hnext.symm
  | false =>
      rw [hmulti, if_neg (by decide)] at hnext
      exact .watched t keys tx htx hmulti hnext.symm

theorem effect_multi (hstep : s.multi t = some next) : Effect apply s next (.multi t) := by
  obtain ⟨tx, htx, hnext⟩ := Option.map_eq_some_iff.mp hstep
  cases hmulti : tx.inMulti with
  | true =>
      rw [hmulti, if_pos rfl] at hnext
      exact .refused _ (Or.inl (by simp [answer, htx, hmulti])) hnext.symm
  | false =>
      rw [hmulti, if_neg (by decide)] at hnext
      exact .entered t tx htx hmulti hnext.symm

theorem effect_queue {cmd : F} (hstep : s.queue t cmd = some next) :
    Effect apply s next (.queue t cmd) := by
  obtain ⟨tx, htx, hnext⟩ := Option.map_eq_some_iff.mp hstep
  cases hmulti : tx.inMulti with
  | true =>
      rw [if_pos hmulti] at hnext
      exact .queued t cmd tx htx hmulti hnext.symm
  | false =>
      rw [hmulti, if_neg (by decide)] at hnext
      exact .refused _ (Or.inr (by simp [answer, htx, hmulti])) hnext.symm

theorem effect_exec (hstep : s.exec t = some next) : Effect apply s next (.exec t) := by
  obtain ⟨tx, htx, hnext⟩ := Option.bind_eq_some_iff.mp hstep
  cases hmulti : tx.inMulti with
  | true =>
      rw [if_pos hmulti] at hnext
      by_cases hfree : s.execMu.isNone = true
      · rw [if_pos hfree] at hnext
        exact .compared t tx htx hmulti (Option.some.inj hnext).symm
      · rw [if_neg hfree] at hnext
        contradiction
  | false =>
      rw [hmulti, if_neg (by decide)] at hnext
      exact .refused _ (Or.inr (by simp [answer, htx, hmulti])) (Option.some.inj hnext).symm

theorem effect_call (hstep : s.call apply t = some next) : Effect apply s next (.call t) := by
  unfold call at hstep
  split at hstep
  · rename_i cmd todo results hphase
    exact .called t cmd todo results hphase (Option.some.inj hstep).symm
  · contradiction

theorem effect_finish (hstep : s.finish t = some next) : Effect apply s next (.finish t) := by
  obtain ⟨tx, htx, hnext⟩ := Option.bind_eq_some_iff.mp hstep
  split at hnext
  · rename_i results hphase
    exact .succeeded t tx results htx hphase (Option.some.inj hnext).symm
  · rename_i hphase
    exact .aborted t tx htx hphase (Option.some.inj hnext).symm
  · contradiction

theorem step_effect (hstep : s.step apply a = some next) : Effect apply s next a := by
  cases a with
  | begin t =>
      cases htx : s.txs t with
      | none =>
          simp only [step, World.begin, htx] at hstep
          exact .began t htx (Option.some.inj hstep).symm
      | some tx => simp [step, World.begin, htx] at hstep
  | watch t keys => exact effect_watch hstep
  | multi t => exact effect_multi hstep
  | queue t cmd => exact effect_queue hstep
  | discard t =>
      obtain ⟨tx, htx, hnext⟩ := Option.map_eq_some_iff.mp hstep
      exact .discarded t tx htx hnext.symm
  | exec t => exact effect_exec hstep
  | call t => exact effect_call hstep
  | finish t => exact effect_finish hstep
  | onEvent ev => exact .delivered ev (Option.some.inj hstep).symm

end Effect

/-! ## The queued commands -/

section Queue

variable {apply : F → S → S × R} {s next : World T F S R} {a : Action T F} {t other : T}

def queuedOf (s : World T F S R) (t : T) : List (ℕ × F) := ((s.txs t).map Tx.queued).getD []

omit [DecidableEq T] in
theorem queuedOf_of_tx {tx : Tx F} (htx : s.txs t = some tx) : s.queuedOf t = tx.queued := by
  rw [queuedOf, htx]
  rfl

@[simp] theorem queuedOf_setTx (s : World T F S R) (t other : T) (tx : Tx F) :
    (s.setTx t tx).queuedOf other = if other = t then tx.queued else s.queuedOf other := by
  by_cases hother : other = t
  · subst hother
    simp [queuedOf, setTx]
  · simp [queuedOf, setTx, hother]

theorem queue_step (hstep : s.step apply a = some next) (t : T) :
    s.issued ≤ next.issued ∧
      (next.queuedOf t = s.queuedOf t ∨ next.queuedOf t = [] ∨
        ∃ cmd, next.queuedOf t = s.queuedOf t ++ [(s.issued, cmd)] ∧
          next.issued = s.issued + 1) := by
  cases step_effect hstep with
  | began other hnone hnext =>
      subst hnext
      refine ⟨le_rfl, ?_⟩
      rw [queuedOf_setTx]
      split_ifs
      · exact Or.inr (Or.inl rfl)
      · exact Or.inl rfl
  | refused a hrefused hnext =>
      subst hnext
      exact ⟨le_rfl, Or.inl rfl⟩
  | watched other keys tx htx hmulti hnext =>
      subst hnext
      refine ⟨le_rfl, Or.inl ?_⟩
      rw [queuedOf_setTx]
      split_ifs with hother
      · rw [hother, queuedOf_of_tx (idleTx_eq_some.mp htx).2]
        exact Coordinator.queued_watch s.co tx keys
      · rfl
  | entered other tx htx hmulti hnext =>
      subst hnext
      refine ⟨le_rfl, Or.inl ?_⟩
      rw [queuedOf_setTx]
      split_ifs with hother
      · rw [hother, queuedOf_of_tx (idleTx_eq_some.mp htx).2]
      · rfl
  | queued other cmd tx htx hmulti hnext =>
      subst hnext
      refine ⟨Nat.le_succ s.issued, ?_⟩
      rw [queuedOf_setTx]
      split_ifs with hother
      · rw [hother, queuedOf_of_tx (idleTx_eq_some.mp htx).2]
        exact Or.inr (Or.inr ⟨cmd, rfl, rfl⟩)
      · exact Or.inl rfl
  | discarded other tx htx hnext =>
      subst hnext
      refine ⟨le_rfl, ?_⟩
      rw [queuedOf_setTx]
      split_ifs
      · exact Or.inr (Or.inl rfl)
      · exact Or.inl rfl
  | compared other tx htx hmulti hnext =>
      subst hnext
      exact ⟨le_rfl, Or.inl rfl⟩
  | called other cmd todo results hphase hnext =>
      subst hnext
      exact ⟨le_rfl, Or.inl rfl⟩
  | succeeded other tx results htx hphase hnext =>
      subst hnext
      refine ⟨le_rfl, ?_⟩
      change _ ∨ (setTx _ _ _).queuedOf t = [] ∨ _
      rw [queuedOf_setTx]
      split_ifs with hother
      · exact Or.inr (Or.inl rfl)
      · refine Or.inl ?_
        change (setTx _ _ _).queuedOf t = _
        rw [queuedOf_setTx, if_neg hother]
        rfl
  | aborted other tx htx hphase hnext =>
      subst hnext
      refine ⟨le_rfl, Or.inl ?_⟩
      change (setTx _ _ _).queuedOf t = _
      rw [queuedOf_setTx]
      split_ifs with hother
      · rw [hother, queuedOf_of_tx htx]
      · rfl
  | delivered ev hnext =>
      subst hnext
      exact ⟨le_rfl, Or.inl rfl⟩

theorem numbers_lt {cache : S} {actions : List (Action T F)}
    (hrun : run (step apply) (start cache) actions = some s) (t : T) :
    ∀ cmd ∈ s.queuedOf t, cmd.1 < s.issued := by
  refine run_invariant (step apply) (I := fun s => ∀ cmd ∈ s.queuedOf t, cmd.1 < s.issued)
    ?_ ?_ hrun
  · intro s a next hbelow hstep cmd hmem
    obtain ⟨hissued, hkept | hempty | ⟨new, hqueued, hnew⟩⟩ := queue_step hstep t
    · rw [hkept] at hmem
      exact (hbelow cmd hmem).trans_le hissued
    · rw [hempty] at hmem
      contradiction
    · rw [hqueued, List.mem_append, List.mem_singleton] at hmem
      rcases hmem with hold | rfl
      · exact (hbelow cmd hold).trans_le hissued
      · rw [hnew]
        exact Nat.lt_succ_self s.issued
  · intro cmd hmem
    contradiction

/-- Whatever is queued after a queue was emptied has a later number. -/
structure Renumbered (n : ℕ) (s : World T F S R) (t : T) : Prop where
  issued : n ≤ s.issued
  above : ∀ cmd ∈ s.queuedOf t, n ≤ cmd.1

theorem Renumbered.step {n : ℕ} (hnumbered : Renumbered n s t)
    (hstep : s.step apply a = some next) : Renumbered n next t := by
  obtain ⟨hissued, hqueue⟩ := queue_step hstep t
  refine ⟨hnumbered.issued.trans hissued, ?_⟩
  intro cmd hmem
  rcases hqueue with hkept | hempty | ⟨new, hqueued, -⟩
  · rw [hkept] at hmem
    exact hnumbered.above cmd hmem
  · rw [hempty] at hmem
    contradiction
  · rw [hqueued, List.mem_append, List.mem_singleton] at hmem
    rcases hmem with hold | rfl
    · exact hnumbered.above cmd hold
    · exact hnumbered.issued

theorem queuedOf_discard (hstep : s.step apply (.discard t) = some next) :
    next.queuedOf t = [] := by
  obtain ⟨tx, -, hnext⟩ := Option.map_eq_some_iff.mp hstep
  rw [← hnext, queuedOf_setTx, if_pos rfl]
  rfl

end Queue

/-! ## After an abort -/

section Abort

variable {apply : F → S → S × R} {s next last : World T F S R} {a : Action T F} {t : T}
  {tx : Tx F}

theorem same_of_other (hstep : s.step apply a = some next) (hother : a.tx ≠ some t) :
    next.phase t = s.phase t ∧ next.txs t = s.txs t := by
  have hne : ∀ {other : T}, a.tx = some other → t ≠ other := by
    rintro other htx rfl
    exact hother htx
  cases step_effect hstep with
  | began other hnone hnext =>
      subst hnext
      exact ⟨rfl, by simp [hne rfl]⟩
  | refused a hrefused hnext =>
      subst hnext
      exact ⟨rfl, rfl⟩
  | watched other keys tx htx hmulti hnext =>
      subst hnext
      exact ⟨rfl, by simp [hne rfl]⟩
  | entered other tx htx hmulti hnext =>
      subst hnext
      exact ⟨rfl, by simp [hne rfl]⟩
  | queued other cmd tx htx hmulti hnext =>
      subst hnext
      exact ⟨rfl, by simp [hne rfl]⟩
  | discarded other tx htx hnext =>
      subst hnext
      exact ⟨rfl, by simp [hne rfl]⟩
  | compared other tx htx hmulti hnext =>
      subst hnext
      exact ⟨by simp [hne rfl], rfl⟩
  | called other cmd todo results hphase hnext =>
      subst hnext
      exact ⟨by simp [hne rfl], rfl⟩
  | succeeded other tx results htx hphase hnext =>
      subst hnext
      exact ⟨by simp [hne rfl], by simp [hne rfl]⟩
  | aborted other tx htx hphase hnext =>
      subst hnext
      exact ⟨by simp [hne rfl], by simp [hne rfl]⟩
  | delivered ev hnext =>
      subst hnext
      exact ⟨rfl, rfl⟩

def BusyInMulti (s : World T F S R) (t : T) : Prop :=
  s.phase t = .idle ∨ ∃ tx, s.txs t = some tx ∧ tx.inMulti = true

theorem BusyInMulti.step (hbusy : s.BusyInMulti t) (hstep : s.step apply a = some next) :
    next.BusyInMulti t := by
  by_cases hown : a.tx = some t
  · cases step_effect hstep with
    | began other hnone hnext =>
        cases hown
        subst hnext
        rcases hbusy with hidle | ⟨tx, htx, -⟩
        · exact Or.inl hidle
        · rw [hnone] at htx
          contradiction
    | refused a hrefused hnext =>
        subst hnext
        exact hbusy
    | watched other keys tx htx hmulti hnext =>
        cases hown
        subst hnext
        exact Or.inl (idleTx_eq_some.mp htx).1
    | entered other tx htx hmulti hnext =>
        cases hown
        subst hnext
        exact Or.inl (idleTx_eq_some.mp htx).1
    | queued other cmd tx htx hmulti hnext =>
        cases hown
        subst hnext
        exact Or.inl (idleTx_eq_some.mp htx).1
    | discarded other tx htx hnext =>
        cases hown
        subst hnext
        exact Or.inl (idleTx_eq_some.mp htx).1
    | compared other tx htx hmulti hnext =>
        cases hown
        subst hnext
        exact Or.inr ⟨tx, (idleTx_eq_some.mp htx).2, hmulti⟩
    | called other cmd todo results hphase hnext =>
        cases hown
        subst hnext
        rcases hbusy with hidle | hmulti
        · rw [hphase] at hidle
          contradiction
        · exact Or.inr hmulti
    | succeeded other tx results htx hphase hnext =>
        cases hown
        subst hnext
        exact Or.inl (by simp)
    | aborted other tx htx hphase hnext =>
        cases hown
        subst hnext
        exact Or.inl (by simp)
    | delivered ev hnext => contradiction
  · obtain ⟨hphase, htxs⟩ := same_of_other hstep hown
    unfold BusyInMulti
    rw [hphase, htxs]
    exact hbusy

/-- The transaction is in `MULTI` without a watched key, and these commands are at the
front of its queue. -/
def Stuck (s : World T F S R) (t : T) (old : List (ℕ × F)) : Prop :=
  ∃ tx new, s.idleTx t = some tx ∧ tx.inMulti = true ∧ tx.watched = ∅ ∧ tx.queued = old ++ new

theorem Stuck.step {old : List (ℕ × F)} (hstuck : s.Stuck t old)
    (hstep : s.step apply a = some next) (hexec : a ≠ .exec t) (hdiscard : a ≠ .discard t) :
    next.Stuck t old := by
  obtain ⟨tx, new, htx, hmulti, hwatched, hqueued⟩ := hstuck
  obtain ⟨hidle, htxs⟩ := idleTx_eq_some.mp htx
  by_cases hown : a.tx = some t
  · cases step_effect hstep with
    | began other hnone hnext =>
        cases hown
        rw [hnone] at htxs
        contradiction
    | refused a hrefused hnext =>
        subst hnext
        exact ⟨tx, new, htx, hmulti, hwatched, hqueued⟩
    | watched other keys tx' htx' hmulti' hnext =>
        cases hown
        rw [htx] at htx'
        cases htx'
        rw [hmulti] at hmulti'
        contradiction
    | entered other tx' htx' hmulti' hnext =>
        cases hown
        rw [htx] at htx'
        cases htx'
        rw [hmulti] at hmulti'
        contradiction
    | queued other cmd tx' htx' hmulti' hnext =>
        cases hown
        rw [htx] at htx'
        cases htx'
        subst hnext
        refine ⟨{ tx with queued := tx.queued ++ [(s.issued, cmd)] }, new ++ [(s.issued, cmd)],
          idleTx_eq_some.mpr ⟨hidle, by simp⟩, hmulti, hwatched, ?_⟩
        rw [hqueued, List.append_assoc]
    | discarded other tx' htx' hnext =>
        cases hown
        exact absurd rfl hdiscard
    | compared other tx' htx' hmulti' hnext =>
        cases hown
        exact absurd rfl hexec
    | called other cmd todo results hphase hnext =>
        cases hown
        rw [hidle] at hphase
        contradiction
    | succeeded other tx' results htx' hphase hnext =>
        cases hown
        rw [hidle] at hphase
        contradiction
    | aborted other tx' htx' hphase hnext =>
        cases hown
        rw [hidle] at hphase
        contradiction
    | delivered ev hnext => contradiction
  · obtain ⟨hphase, hsame⟩ := same_of_other hstep hown
    refine ⟨tx, new, idleTx_eq_some.mpr ⟨?_, ?_⟩, hmulti, hwatched, hqueued⟩
    · rw [hphase, hidle]
    · rw [hsame, htxs]

theorem Stuck.executes {old : List (ℕ × F)} (hstuck : s.Stuck t old) :
    ∃ new, s.executes t (.exec t) = old ++ new := by
  obtain ⟨tx, new, htx, hmulti, hwatched, hqueued⟩ := hstuck
  have hunchanged : s.co.Unchanged tx := by
    intro entry hmem
    rw [hwatched] at hmem
    contradiction
  refine ⟨new, ?_⟩
  simp only [World.executes, htx, hmulti, hunchanged, and_self, if_true, hqueued]

theorem finish_of_aborting (hphase : s.phase t = .aborting) (htx : s.txs t = some tx)
    (hfinish : s.step apply (.finish t) = some next) :
    next.txs t = some { tx with watched := ∅ } ∧ next.phase t = .idle ∧
      next.issued = s.issued := by
  cases step_effect hfinish with
  | refused a hrefused hnext => simp [answer, hphase] at hrefused
  | succeeded t tx' results htx' hphase' hnext =>
      rw [hphase] at hphase'
      contradiction
  | aborted t tx' htx' hphase' hnext =>
      rw [htx] at htx'
      cases htx'
      subst hnext
      exact ⟨by simp, by simp, rfl⟩

theorem rerun_of_stuck {old : List (ℕ × F)} {before after : List (Action T F)}
    (hstuck : s.Stuck t old)
    (hrun : run (step apply) s (before ++ .exec t :: after) = some last)
    (hexec : .exec t ∉ before) (hdiscard : .discard t ∉ before) :
    ∀ cmd ∈ old, cmd ∈ observe (step apply) (executes t) s (before ++ .exec t :: after) := by
  obtain ⟨middle, hbefore, hafter⟩ := (run_append_eq_some (step apply)).mp hrun
  have hmiddle : middle.Stuck t old := by
    refine run_invariant_along (step apply) (I := fun s => s.Stuck t old)
      (P := fun _ a => a ≠ .exec t ∧ a ≠ .discard t)
      (fun s a next hs ha hstep => hs.step hstep ha.1 ha.2) hstuck ?_ hbefore
    rw [along_iff_forall_split]
    intro first a rest hsplit middle' _
    have hmem : a ∈ before := by simp [hsplit]
    exact ⟨fun heq => hexec (heq ▸ hmem), fun heq => hdiscard (heq ▸ hmem)⟩
  obtain ⟨new, hexecutes⟩ := hmiddle.executes
  obtain ⟨next, hnext, -⟩ := (run_cons_eq_some (step apply)).mp hafter
  intro cmd hmem
  rw [observe_append (step apply) (executes t) hbefore,
    observe_cons_of_step (step apply) (executes t) hnext, hexecutes]
  simp [hmem]

theorem not_rerun {old : List (ℕ × F)} {later : List (Action T F)}
    (hold : ∀ cmd ∈ old, cmd.1 < s.issued)
    (hdiscards : ∀ before after, later = before ++ .exec t :: after → .discard t ∈ before) :
    ∀ cmd ∈ old, cmd ∉ observe (step apply) (executes t) s later := by
  intro cmd hmem hobserved
  obtain ⟨before, a, after, middle, hsplit, hbefore, hseen⟩ :=
    exists_split_of_mem_observe (step apply) (executes t) hobserved
  have hexec : a = .exec t ∧ cmd ∈ middle.queuedOf t := by
    cases a with
    | exec other =>
        simp only [executes] at hseen
        split_ifs at hseen with hother
        · subst hother
          cases htx : middle.idleTx other with
          | none => simp [htx] at hseen
          | some tx =>
              rw [queuedOf_of_tx (idleTx_eq_some.mp htx).2]
              simp only [htx] at hseen
              split_ifs at hseen
              · exact ⟨rfl, hseen⟩
              · contradiction
        · contradiction
    | _ => simp [executes] at hseen
  obtain ⟨rfl, hqueued⟩ := hexec
  obtain ⟨first, rest, rfl⟩ := List.append_of_mem (hdiscards before after hsplit)
  obtain ⟨start, hfirst, hrest⟩ := (run_append_eq_some (step apply)).mp hbefore
  obtain ⟨emptied, hdiscard, hrest⟩ := (run_cons_eq_some (step apply)).mp hrest
  have hissued : s.issued ≤ emptied.issued := by
    have hstart : s.issued ≤ start.issued :=
      run_invariant (step apply) (I := fun later => s.issued ≤ later.issued)
        (fun s' a next hs hstep => hs.trans (queue_step hstep t).1) le_rfl hfirst
    exact hstart.trans (queue_step hdiscard t).1
  have hempty : Renumbered s.issued emptied t := by
    refine ⟨hissued, ?_⟩
    rw [queuedOf_discard hdiscard]
    intro cmd hmem
    contradiction
  have hmiddle : Renumbered s.issued middle t :=
    run_invariant (step apply) (I := fun later => Renumbered s.issued later t)
      (fun s' a next hs hstep => hs.step hstep) hempty hrest
  have hlt := hold cmd hmem
  have hle := hmiddle.above cmd hqueued
  omega

/-- After `ErrAborted` the transaction has no watched keys, but it is in `MULTI` with
its queue, which is not what `Discard` leaves.  The commands that were queued are
never run exactly if there are none or every `Exec` that comes has a `Discard` in
front of it. -/
theorem aborted_never_runs_iff {cache : S} {actions later : List (Action T F)}
    (hrun : run (step apply) (start cache) actions = some s) (htx : s.txs t = some tx)
    (hanswer : s.answer (.finish t) = some .errAborted)
    (hfinish : s.step apply (.finish t) = some next)
    (hlater : run (step apply) next later = some last) :
    (next.txs t = some { tx with watched := ∅ } ∧ tx.inMulti = true ∧
        next.txs t ≠ some .new) ∧
      ((∀ cmd ∈ tx.queued, cmd ∉ observe (step apply) (executes t) next later) ↔
        tx.queued = [] ∨
          ∀ before after, later = before ++ .exec t :: after → .discard t ∈ before) := by
  have hphase : s.phase t = .aborting := by
    simp only [answer] at hanswer
    split at hanswer
    · simp at hanswer
    · assumption
    · contradiction
  obtain ⟨hnext, hidle, hissued⟩ := finish_of_aborting hphase htx hfinish
  have hmulti : tx.inMulti = true := by
    have hbusy : s.BusyInMulti t :=
      run_invariant (step apply) (I := fun s => s.BusyInMulti t)
        (fun s a next hs hstep => hs.step hstep) (Or.inl rfl) hrun
    rcases hbusy with hidle | ⟨tx', htx', hmulti⟩
    · rw [hphase] at hidle
      contradiction
    · rw [htx] at htx'
      cases htx'
      exact hmulti
  have hold : ∀ cmd ∈ tx.queued, cmd.1 < next.issued := by
    rw [hissued, ← queuedOf_of_tx htx]
    exact numbers_lt hrun t
  have hstuck : next.Stuck t tx.queued :=
    ⟨{ tx with watched := ∅ }, [], idleTx_eq_some.mpr ⟨hidle, hnext⟩, hmulti, rfl, by simp⟩
  refine ⟨⟨hnext, hmulti, ?_⟩, ?_, ?_⟩
  · rw [hnext]
    intro heq
    have hnew := congrArg Tx.inMulti (Option.some.inj heq)
    rw [show (Tx.new : Tx F).inMulti = false from rfl, hmulti] at hnew
    contradiction
  · intro hnever
    by_contra hcondition
    rw [not_or] at hcondition
    obtain ⟨hnonempty, hundiscarded⟩ := hcondition
    push Not at hundiscarded
    obtain ⟨before, after, hsplit, hdiscard⟩ := hundiscarded
    obtain ⟨first, rest, hfirst, hexec⟩ : ∃ first rest,
        later = first ++ .exec t :: rest ∧ .exec t ∉ first ∧ .discard t ∉ first := by
      by_cases hmem : .exec t ∈ before
      · obtain ⟨first, rest, heq, hnone⟩ := List.eq_append_cons_of_mem hmem
        refine ⟨first, rest ++ .exec t :: after, by rw [hsplit, heq]; simp, hnone, ?_⟩
        intro hin
        exact hdiscard (by rw [heq]; simp [hin])
      · exact ⟨before, after, hsplit, hmem, hdiscard⟩
    subst hfirst
    obtain ⟨cmd, hcmd⟩ := List.exists_mem_of_ne_nil tx.queued hnonempty
    exact hnever cmd hcmd (rerun_of_stuck hstuck hlater hexec.1 hexec.2 cmd hcmd)
  · rintro (hempty | hdiscards)
    · intro cmd hmem
      rw [hempty] at hmem
      contradiction
    · exact not_rerun hold hdiscards

/-- A watched key is set before `Exec`; the caller calls `Discard` and starts again. -/
theorem aborted_never_runs_discarded :
    ∃ (s next last : World Unit Unit Unit Unit) (tx : Tx Unit),
      run (step fun _ s => (s, ())) (start ())
          [.begin (), .watch () [[107]], .multi (), .queue () (), .onEvent (.set [107] [1] 0),
            .exec ()] = some s ∧
        s.txs () = some tx ∧ s.answer (.finish ()) = some .errAborted ∧
        s.step (fun _ s => (s, ())) (.finish ()) = some next ∧
        run (step fun _ s => (s, ())) next [.discard (), .multi (), .queue () (), .exec ()] =
          some last ∧
        ∀ cmd ∈ tx.queued, cmd ∉ observe (step fun _ s => (s, ())) (executes ()) next
          [.discard (), .multi (), .queue () (), .exec ()] := by
  have hdiscards : ∀ before after, ([.discard (), .multi (), .queue () (), .exec ()] :
      List (Action Unit Unit)) = before ++ .exec () :: after → .discard () ∈ before := by
    intro before after hsplit
    cases before with
    | nil => simp at hsplit
    | cons first rest =>
        rw [List.cons_append, List.cons.injEq] at hsplit
        rw [← hsplit.1]
        exact List.mem_cons_self
  refine ⟨_, _, _, _, rfl, rfl, rfl, rfl, rfl, ?_⟩
  have hrun : run (step fun _ s => (s, ())) (start (R := Unit) ())
      [.begin (), .watch () [[107]], .multi (), .queue () (), .onEvent (.set [107] [1] 0),
        .exec ()] = some _ := rfl
  exact (aborted_never_runs_iff hrun rfl rfl rfl rfl).2.mpr (Or.inr hdiscards)

/-- The same without `Discard`: the second `Exec` runs what the first one has
aborted. -/
theorem aborted_runs_again :
    ∃ s next : World Unit Unit Unit Unit,
      run (step fun _ s => (s, ())) (start ())
          [.begin (), .watch () [[107]], .multi (), .queue () (), .onEvent (.set [107] [1] 0),
            .exec ()] = some s ∧
        s.answer (.finish ()) = some .errAborted ∧
        s.step (fun _ s => (s, ())) (.finish ()) = some next ∧
        observe (step fun _ s => (s, ())) (executes ()) next [.exec ()] = [(0, ())] :=
  ⟨_, _, rfl, rfl, rfl, rfl⟩

end Abort

end World
end TxnCalls
end DistCache
