import DistCache.RefCounts
import DistCache.Transactions

/-!
# What WATCH and EXEC notice

A change of a watched key counts up the version of the key when the dispatcher hands its
event to the coordinator, not before.  `EXEC` compares the versions without waiting for
the events, and the comparison is one step, the first queued command another; a change
can slip by in both places.  Events of the empty key are not counted either.
-/

namespace DistCache
namespace Txn

open DeadlineStore Eviction Transition RefCounts

variable {C : Type*} [DecidableEq C] {L : Layout}

def Action.calling : Action C L → Option (C × Clock)
  | .call i clock => some (i, clock)
  | _ => none

def Action.checking : Action C L → Option C
  | .check i => some i
  | _ => none

namespace Server

/-- The step is a write of another connection that changes the key. -/
def Disturbs (s : Server C L) (j : C) (key : Key) (a : Action C L) : Prop :=
  ∃ r ∈ a.calling, r.1 ≠ j ∧ ∃ op ∈ (s.conns r.1).activity.ops.head?, op.IsWrite ∧
    ∃ m ∈ mutations (s.engine.cache.exec ⟨r.2, op⟩).2.1, m.Touches key

instance (s : Server C L) (j : C) (key : Key) (a : Action C L) :
    Decidable (s.Disturbs j key a) :=
  inferInstanceAs (Decidable (∃ r ∈ a.calling, _))

/-- When the versions are compared, no event of a watched key is on its way and
no watched key is empty; and between the comparison and the first queued command
no other connection changes a watched key. -/
def Settled (s : Server C L) (a : Action C L) : Prop :=
  (∀ i ∈ a.checking, ∀ key ∈ (s.conns i).watched.keys, key ≠ [] ∧
      ∀ m ∈ mutations s.engine.backlog, ¬ m.Touches key) ∧
    ∀ j, (s.conns j).activity.stage = .checked →
      ∀ key ∈ (s.conns j).watched.keys, ¬ s.Disturbs j key a

instance [Fintype C] (s : Server C L) (a : Action C L) : Decidable (s.Settled a) :=
  inferInstanceAs (Decidable (_ ∧ _))

/-! ## What a step does to the watched keys -/

def StageMove (s next : Server C L) (a : Action C L) (j : C) : Prop :=
  (next.conns j).activity.stage = (s.conns j).activity.stage ∨
    (a = .check j ∧ (s.conns j).activity.stage = .before ∧
      s.co.Unchanged (s.conns j).theTx) ∨
    ((s.conns j).activity.stage = .checked ∧ (next.conns j).activity.stage = .started)

/-- The steps as far as the watched keys are concerned. -/
inductive Shape (s next : Server C L) (a : Action C L) : Prop where
  | keeps (hversions : next.co.versions = s.co.versions)
      (hwatchers : next.co.watchers = s.co.watchers)
      (hwatched : ∀ j, (next.conns j).watched = (s.conns j).watched)
      (hstage : ∀ j, StageMove s next a j)
      (hlog : ∃ more, mutations next.engine.backlog = mutations s.engine.backlog ++ more)
  | drops (i : C) (hversions : next.co.versions = (s.co.release (s.conns i).theTx).versions)
      (hwatchers : next.co.watchers = (s.co.release (s.conns i).theTx).watchers)
      (hconns : next.conns = Function.update s.conns i .new)
      (hengine : next.engine = s.engine)
  | registers (i : C) (keys : List Key)
      (hco : next.co = (s.co.watch (s.conns i).theTx keys).1)
      (hbefore : (s.conns i).activity.stage = .before)
      (hconns : next.conns = Function.update s.conns i { s.conns i with
        tx := some (s.co.watch (s.conns i).theTx keys).2
        activity := .idle })
      (hengine : next.engine = s.engine)
  | delivers (ev : Event) (hdeliver : s.engine.deliver = some (ev, next.engine))
      (hco : next.co = s.co.onEvent ev) (hconns : next.conns = s.conns)

section Shape

variable {s next : Server C L} {a : Action C L} {i : C}

theorem shape_setConn {c : Conn L} (hversions : next.co.versions = s.co.versions)
    (hwatchers : next.co.watchers = s.co.watchers)
    (hconns : next.conns = Function.update s.conns i c)
    (hwatched : c.watched = (s.conns i).watched)
    (hstage : StageMove s next a i)
    (hlog : ∃ more, mutations next.engine.backlog = mutations s.engine.backlog ++ more) :
    Shape s next a := by
  refine .keeps hversions hwatchers ?_ ?_ hlog
  · intro j
    by_cases hj : j = i
    · subst j
      rw [hconns, Function.update_self, hwatched]
    · rw [hconns, Function.update_of_ne hj]
  · intro j
    by_cases hj : j = i
    · subst j
      exact hstage
    · left
      rw [hconns, Function.update_of_ne hj]

omit [DecidableEq C] in
theorem backlog_same (hlog : mutations next.engine.backlog = mutations s.engine.backlog) :
    ∃ more, mutations next.engine.backlog = mutations s.engine.backlog ++ more :=
  ⟨[], by rw [hlog, List.append_nil]⟩

omit [DecidableEq C] in
theorem backlog_emitted {r : Cache L × List Event × Reply}
    (hengine : next.engine = s.engine.emit r) :
    ∃ more, mutations next.engine.backlog = mutations s.engine.backlog ++ more :=
  ⟨mutations r.2.1, by rw [hengine, Engine.backlog_emit, mutations_append]⟩

theorem step_shape (hstep : s.step a = some next) : Shape s next a := by
  cases step_effect hstep with
  | turns i c hconns hwatched hnumber hstage hversions hwatchers hengine hbegun =>
      refine shape_setConn hversions hwatchers hconns hwatched ?_ (backlog_same ?_)
      · unfold StageMove
        rw [hconns, Function.update_self]
        rcases hstage with ⟨hbefore, hafter⟩ | ⟨ha, hbefore, hunchanged⟩
        · exact Or.inl (hafter.trans hbefore.symm)
        · exact Or.inr (Or.inl ⟨ha, hbefore, hunchanged⟩)
      · rcases hengine with hengine | hengine
        · rw [hengine]
        · rw [hengine, Engine.backlog_sync]
  | drops i hversions hwatchers hconns hengine hbegun =>
      exact .drops i hversions hwatchers hconns hengine
  | registers i keys hco hbefore hconns hengine hbegun =>
      exact .registers i keys hco hbefore hconns hengine
  | calls i clock op activity ha hops hnumber hstage hconns hco hengine hbegun =>
      refine shape_setConn (by rw [hco]) (by rw [hco]) hconns rfl ?_ (backlog_emitted hengine)
      unfold StageMove
      rw [hconns, Function.update_self]
      exact hstage.imp_right Or.inr
  | sweeps clock shard sample order ha hconns hco hengine hbegun =>
      exact .keeps (by rw [hco]) (by rw [hco]) (fun j => by rw [hconns])
        (fun j => Or.inl (by rw [hconns])) (backlog_emitted hengine)
  | dispatches hconns hco hcache hlog hbegun =>
      exact .keeps (by rw [hco]) (by rw [hco]) (fun j => by rw [hconns])
        (fun j => Or.inl (by rw [hconns])) (backlog_same hlog)
  | delivers ev hdeliver hco hconns hbegun => exact .delivers ev hdeliver hco hconns

end Shape

end Server

/-! ## The maps of the coordinator -/

namespace Coordinator

variable {co : Coordinator C} {tx : Tx L} {key : Key}

omit [DecidableEq C] in
theorem registers_watchKey (r : Coordinator C × Tx L) (first key : Key) :
    Registers (r.1.versions key) (r.2.watched.lookup key) ((watchKey r first).2.watched.lookup key)
      (r.1.watchers key) ((watchKey r first).1.watchers key) := by
  unfold watchKey
  split_ifs with hmem
  · exact .refl _ _ _
  · by_cases heq : key = first
    · subst key
      right
      simp [AList.lookup_eq_none.mpr hmem]
    · left
      simp [AList.lookup_insert_ne heq, Function.update_of_ne heq]

omit [DecidableEq C] in
theorem versions_watchKey (r : Coordinator C × Tx L) (first : Key) :
    (watchKey r first).1.versions = r.1.versions := by
  unfold watchKey
  split_ifs <;> rfl

omit [DecidableEq C] in
theorem registers_watch (r : Coordinator C × Tx L) (keys : List Key) :
    (keys.foldl watchKey r).1.versions = r.1.versions ∧
      ∀ key, Registers (r.1.versions key) (r.2.watched.lookup key)
        ((keys.foldl watchKey r).2.watched.lookup key) (r.1.watchers key)
        ((keys.foldl watchKey r).1.watchers key) := by
  induction keys generalizing r with
  | nil => exact ⟨rfl, fun key => .refl _ _ _⟩
  | cons first rest ih =>
      obtain ⟨hversions, hrest⟩ := ih (watchKey r first)
      rw [versions_watchKey] at hversions hrest
      exact ⟨hversions, fun key => (registers_watchKey r first key).trans (hrest key)⟩

omit [DecidableEq C] in
theorem watchers_onEvent (co : Coordinator C) (ev : Event) :
    (co.onEvent ev).watchers = co.watchers := by
  unfold onEvent
  split_ifs <;> rfl

omit [DecidableEq C] in
theorem versions_le_onEvent (co : Coordinator C) (ev : Event) (key : Key) :
    co.versions key ≤ (co.onEvent ev).versions key := by
  unfold onEvent
  split_ifs with hflush hkey
  · simp only
    split_ifs <;> omega
  · by_cases heq : key = ev.key
    · subst key
      simp
    · simp [Function.update_of_ne heq]
  · exact le_rfl

theorem flush_or_key_of_touches {ev : Event} (htouch : ∃ m ∈ mutations [ev], m.Touches key) :
    ev.op = .opFlush ∨ ev.key = key := by
  obtain ⟨seq, op, other, value, expireAt⟩ := ev
  obtain ⟨m, hmem, htouch⟩ := htouch
  cases op with
  | opSet =>
      rw [List.mem_singleton.mp hmem] at htouch
      exact Or.inr htouch
  | opDel =>
      rw [List.mem_singleton.mp hmem] at htouch
      exact Or.inr htouch
  | opExpire =>
      rw [List.mem_singleton.mp hmem] at htouch
      exact Or.inr htouch
  | opFlush => exact Or.inl rfl
  | other code => exact absurd hmem List.not_mem_nil

omit [DecidableEq C] in
theorem versions_lt_onEvent {ev : Event} (hne : key ≠ []) (hwatched : 0 < co.watchers key)
    (htouch : ∃ m ∈ mutations [ev], m.Touches key) :
    co.versions key < (co.onEvent ev).versions key := by
  by_cases hflush : ev.op = .opFlush
  · simp [onEvent, hflush, hwatched]
  · have hkey := (flush_or_key_of_touches htouch).resolve_left hflush
    subst key
    simp [onEvent, hflush, hne, hwatched]

end Coordinator

namespace Server

variable {s next : Server C L} {a : Action C L} {i j : C} {key : Key}

/-! ## Every watched key is registered -/

def held (s : Server C L) (i : C) : Set Key := {key | key ∈ (s.conns i).watched}

theorem held_update {c : Conn L} (hconns : next.conns = Function.update s.conns i c) :
    next.held = Function.update s.held i {key | key ∈ c.watched} := by
  funext j
  by_cases hj : j = i
  · subst hj
    simp [held, hconns]
  · simp [held, hconns, hj]

theorem held_new : {key | key ∈ (Conn.new : Conn L).watched} = ∅ :=
  Set.eq_empty_of_forall_notMem AList.notMem_empty

omit [DecidableEq C] in
theorem counts_start (c : Cache L) (clock : ℤ) :
    Counts (start c clock : Server C L).held (start c clock : Server C L).co.watchers :=
  counts_zero fun _ => held_new

theorem counts_step (hcounts : Counts s.held s.co.watchers) (hstep : s.step a = some next) :
    Counts next.held next.co.watchers := by
  cases step_shape hstep with
  | keeps hversions hwatchers hwatched hstage hlog =>
      have hheld : next.held = s.held := by
        funext i
        simp only [held, hwatched]
      rwa [hheld, hwatchers]
  | drops i hversions hwatchers hconns hengine =>
      rw [held_update hconns, held_new, hwatchers]
      apply hcounts.clear
      · intro key hmem
        exact if_pos hmem
      · intro key habsent
        exact if_neg habsent
  | registers i keys hco hbefore hconns hengine =>
      rw [held_update hconns, hco]
      apply hcounts.take
      intro key
      exact ((Coordinator.registers_watch (s.co, (s.conns i).theTx) keys).2 key).mem_cases
  | delivers ev hdeliver hco hconns =>
      have hheld : next.held = s.held := by
        funext i
        simp only [held, hconns]
      rwa [hheld, hco, Coordinator.watchers_onEvent]

/-- The coordinator counts the transactions that watch a key, and the version
they have taken is not ahead of it. -/
structure Registered (s : Server C L) : Prop where
  counted : Counts s.held s.co.watchers
  le_version : ∀ i key version, (s.conns i).watched.lookup key = some version →
    version ≤ s.co.versions key

omit [DecidableEq C] in
theorem registered_start (c : Cache L) (clock : ℤ) :
    (start c clock : Server C L).Registered where
  counted := counts_start c clock
  le_version := by
    intro i key version hlookup
    contradiction

omit [DecidableEq C] in
theorem Registered.watchers_pos (hregistered : s.Registered)
    (hwatched : key ∈ (s.conns i).watched) : 0 < s.co.watchers key :=
  (hregistered.counted.pos_iff key).mpr ⟨i, hwatched⟩

omit [DecidableEq C] in
theorem Registered.versions_release (hregistered : s.Registered) (hne : j ≠ i)
    (hwatched : key ∈ (s.conns j).watched) :
    (s.co.release (s.conns i).theTx).versions key = s.co.versions key := by
  apply if_neg
  rintro ⟨hmem, hone⟩
  exact hregistered.counted.ne_one (i := i) hmem hwatched hne hone

theorem Registered.le_version_drops (hregistered : s.Registered)
    (hversions : next.co.versions = (s.co.release (s.conns i).theTx).versions)
    (hconns : next.conns = Function.update s.conns i .new) {version : ℕ}
    (hlookup : (next.conns j).watched.lookup key = some version) :
    version ≤ next.co.versions key := by
  rw [hconns] at hlookup
  by_cases hj : j = i
  · subst j
    rw [Function.update_self] at hlookup
    contradiction
  · rw [Function.update_of_ne hj] at hlookup
    have hwatched : key ∈ (s.conns j).watched :=
      AList.lookup_isSome.mp (Option.isSome_iff_exists.mpr ⟨version, hlookup⟩)
    rw [hversions, hregistered.versions_release hj hwatched]
    exact hregistered.le_version j key version hlookup

theorem Registered.le_version_registers {keys : List Key} (hregistered : s.Registered)
    (hco : next.co = (s.co.watch (s.conns i).theTx keys).1)
    (hconns : next.conns = Function.update s.conns i { s.conns i with
      tx := some (s.co.watch (s.conns i).theTx keys).2
      activity := .idle }) {version : ℕ}
    (hlookup : (next.conns j).watched.lookup key = some version) :
    version ≤ next.co.versions key := by
  obtain ⟨hversions, hkeys⟩ := Coordinator.registers_watch (s.co, (s.conns i).theTx) keys
  have hversions' : next.co.versions key = s.co.versions key := by
    rw [hco]
    exact congrFun hversions key
  rw [hversions']
  rw [hconns] at hlookup
  by_cases hj : j = i
  · subst j
    rw [Function.update_self] at hlookup
    have hnow : (s.co.watch (s.conns i).theTx keys).2.watched.lookup key = some version := hlookup
    rcases hkeys key with ⟨hsame, _⟩ | ⟨_, hcurrent, _⟩
    · exact hregistered.le_version i key version (hsame.symm.trans hnow)
    · have heq : some (s.co.versions key) = some version := hcurrent.symm.trans hnow
      exact (Option.some.inj heq).ge
  · rw [Function.update_of_ne hj] at hlookup
    exact hregistered.le_version j key version hlookup

theorem Registered.step (hregistered : s.Registered) (hstep : s.step a = some next) :
    next.Registered := by
  refine ⟨counts_step hregistered.counted hstep, ?_⟩
  intro j key version hlookup
  cases step_shape hstep with
  | keeps hversions hwatchers hwatched hstage hlog =>
      rw [hwatched] at hlookup
      rw [hversions]
      exact hregistered.le_version j key version hlookup
  | drops i hversions hwatchers hconns hengine =>
      exact hregistered.le_version_drops hversions hconns hlookup
  | registers i keys hco hbefore hconns hengine =>
      exact hregistered.le_version_registers hco hconns hlookup
  | delivers ev hdeliver hco hconns =>
      rw [hconns] at hlookup
      rw [hco]
      exact (hregistered.le_version j key version hlookup).trans
        (Coordinator.versions_le_onEvent s.co ev key)

/-! ## A transaction that comes too late -/

/-- The key has changed for the transaction: its version has moved, or an event
of it is on its way, or it is the empty key, of which the coordinator never
hears. -/
def Late (s : Server C L) (j : C) (key : Key) : Prop :=
  key = [] ∨
    (∃ version, (s.conns j).watched.lookup key = some version ∧
      version < s.co.versions key) ∨
    ∃ m ∈ mutations s.engine.backlog, m.Touches key

omit [DecidableEq C] in
theorem Late.mono (hlate : s.Late j key)
    (hlookup : (next.conns j).watched.lookup key = (s.conns j).watched.lookup key)
    (hversions : s.co.versions key ≤ next.co.versions key)
    (hlog : ∃ more, mutations next.engine.backlog = mutations s.engine.backlog ++ more) :
    next.Late j key := by
  rcases hlate with hempty | ⟨version, hversion, hlt⟩ | ⟨m, hmem, htouch⟩
  · exact Or.inl hempty
  · exact Or.inr (Or.inl ⟨version, hlookup.trans hversion, hlt.trans_le hversions⟩)
  · obtain ⟨more, hmore⟩ := hlog
    refine Or.inr (Or.inr ⟨m, ?_, htouch⟩)
    rw [hmore]
    exact List.mem_append_left more hmem

omit [DecidableEq C] in
theorem Late.delivers {ev : Event} (hlate : s.Late j key) (hregistered : s.Registered)
    (hwatched : key ∈ (s.conns j).watched)
    (hdeliver : s.engine.deliver = some (ev, next.engine))
    (hco : next.co = s.co.onEvent ev) (hconns : next.conns = s.conns) : next.Late j key := by
  obtain ⟨version, hversion⟩ := Option.isSome_iff_exists.mp (AList.lookup_isSome.mpr hwatched)
  have hversion' : (next.conns j).watched.lookup key = some version := by
    rw [hconns]
    exact hversion
  have hcurrent := hregistered.le_version j key version hversion
  obtain ⟨hbacklog, _, _⟩ := Engine.backlog_deliver hdeliver
  by_cases hempty : key = []
  · exact Or.inl hempty
  · right
    rcases hlate with hkey | ⟨taken, htaken, hlt⟩ | ⟨m, hmem, htouch⟩
    · exact absurd hkey hempty
    · left
      refine ⟨taken, ?_, ?_⟩
      · rw [hconns]
        exact htaken
      · rw [hco]
        exact hlt.trans_le (Coordinator.versions_le_onEvent s.co ev key)
    · have hsplit : mutations s.engine.backlog =
          mutations [ev] ++ mutations next.engine.backlog := by
        rw [hbacklog]
        exact mutations_append [ev] next.engine.backlog
      rw [hsplit] at hmem
      rcases List.mem_append.mp hmem with hnow | hlater
      · left
        refine ⟨version, hversion', ?_⟩
        rw [hco]
        exact hcurrent.trans_lt (Coordinator.versions_lt_onEvent hempty
          (hregistered.watchers_pos hwatched) ⟨m, hnow, htouch⟩)
      · exact Or.inr ⟨m, hlater, htouch⟩

/-- The connection cannot come to its first queued command any more, unless it
has run it already. -/
structure Missed (s : Server C L) (j : C) (key : Key) : Prop where
  not_checked : (s.conns j).activity.stage ≠ .checked
  late : key ∈ (s.conns j).watched → (s.conns j).activity.stage = .started ∨ s.Late j key

omit [DecidableEq C] in
theorem Missed.congr (hmissed : s.Missed j key) (hconn : next.conns j = s.conns j)
    (hlate : s.Late j key → next.Late j key) : next.Missed j key := by
  constructor
  · rw [hconn]
    exact hmissed.not_checked
  · intro hwatched
    rw [hconn] at hwatched ⊢
    exact (hmissed.late hwatched).imp_right hlate

omit [DecidableEq C] in
theorem Late.not_unchanged (hlate : s.Late j key) (hwatched : key ∈ (s.conns j).watched)
    (hsettled : s.Settled (.check j)) : ¬ s.co.Unchanged (s.conns j).theTx := by
  intro hunchanged
  obtain ⟨hne, hnone⟩ := hsettled.1 j rfl key (AList.mem_keys.mp hwatched)
  rcases hlate with hempty | ⟨version, hversion, hlt⟩ | ⟨m, hmem, htouch⟩
  · exact hne hempty
  · have hentry := AList.mem_lookup_iff.mp hversion
    have heq := hunchanged ⟨key, version⟩ hentry
    simp only at heq
    omega
  · exact hnone m hmem htouch

theorem Missed.step (hmissed : s.Missed j key) (hregistered : s.Registered)
    (hwatched : key ∈ (s.conns j).watched) (hsettled : s.Settled a)
    (hstep : s.step a = some next) : next.Missed j key := by
  cases step_shape hstep with
  | keeps hversions hwatchers hkept hstage hlog =>
      have hlate : s.Late j key → next.Late j key := fun h =>
        h.mono (by rw [hkept]) (by rw [hversions]) hlog
      rcases hstage j with hsame | ⟨rfl, hbefore, hunchanged⟩ | ⟨hchecked, _⟩
      · constructor
        · rw [hsame]
          exact hmissed.not_checked
        · intro _
          rw [hsame]
          exact (hmissed.late hwatched).imp_right hlate
      · rcases hmissed.late hwatched with hstarted | hlate'
        · rw [hbefore] at hstarted
          contradiction
        · exact absurd hunchanged (hlate'.not_unchanged hwatched hsettled)
      · exact absurd hchecked hmissed.not_checked
  | drops i hversions hwatchers hconns hengine =>
      by_cases hj : j = i
      · subst j
        have hnew : next.conns i = .new := by rw [hconns, Function.update_self]
        constructor
        · rw [hnew]
          simp [Conn.new, Activity.stage]
        · intro hmem
          rw [hnew] at hmem
          exact absurd hmem (AList.notMem_empty key)
      · have hconn : next.conns j = s.conns j := by rw [hconns, Function.update_of_ne hj]
        have hsame : s.co.versions key = next.co.versions key := by
          rw [hversions, hregistered.versions_release hj hwatched]
        exact hmissed.congr hconn fun h =>
          h.mono (by rw [hconn]) hsame.le (backlog_same (by rw [hengine]))
  | registers i keys hco hbefore hconns hengine =>
      obtain ⟨hversions, hkeys⟩ := Coordinator.registers_watch (s.co, (s.conns i).theTx) keys
      have hsame : s.co.versions key = next.co.versions key := by
        rw [hco]
        exact congrFun hversions.symm key
      by_cases hj : j = i
      · subst j
        have hlookup : (next.conns i).watched.lookup key =
            (s.conns i).watched.lookup key := by
          rw [hconns, Function.update_self]
          rcases hkeys key with ⟨hlookup, _⟩ | ⟨habsent, _⟩
          · exact hlookup
          · exact absurd hwatched (AList.lookup_eq_none.mp habsent)
        constructor
        · rw [hconns, Function.update_self]
          simp [Activity.stage]
        · intro _
          rcases hmissed.late hwatched with hstarted | hlate
          · rw [hbefore] at hstarted
            contradiction
          · exact Or.inr (hlate.mono hlookup hsame.le (backlog_same (by rw [hengine])))
      · have hconn : next.conns j = s.conns j := by rw [hconns, Function.update_of_ne hj]
        exact hmissed.congr hconn fun h =>
          h.mono (by rw [hconn]) hsame.le (backlog_same (by rw [hengine]))
  | delivers ev hdeliver hco hconns =>
      exact hmissed.congr (by rw [hconns]) fun h =>
        h.delivers hregistered hwatched hdeliver hco hconns

/-! ## Changes of other connections -/

theorem Disturbs.late (hdisturbs : s.Disturbs j key a) (hstep : s.step a = some next) :
    next.Late j key ∧ next.conns j = s.conns j := by
  obtain ⟨⟨i, clock⟩, hcall, hne, op, hop, _, m, hmem, htouch⟩ := hdisturbs
  have ha : a = .call i clock := by
    cases a <;> cases hcall
    rfl
  subst ha
  obtain ⟨op', activity, hops, _, _, hconns, _, hengine, _⟩ := call_eq_some hstep
  have heq : op' = op := by
    simp only [hops, List.head?_cons] at hop
    exact Option.some.inj hop
  subst op'
  constructor
  · refine Or.inr (Or.inr ⟨m, ?_, htouch⟩)
    rw [hengine, Engine.backlog_emit, mutations_append]
    exact List.mem_append_right _ hmem
  · rw [hconns, Function.update_of_ne (Ne.symm hne)]

theorem Disturbs.missed (hdisturbs : s.Disturbs j key a) (hsettled : s.Settled a)
    (hwatched : key ∈ (s.conns j).watched) (hstep : s.step a = some next) :
    next.Missed j key := by
  obtain ⟨hlate, hconn⟩ := hdisturbs.late hstep
  refine ⟨?_, fun _ => Or.inr hlate⟩
  rw [hconn]
  intro hchecked
  exact hsettled.2 j hchecked key (AList.mem_keys.mp hwatched) hdisturbs

/-- From the completion of `WATCH` to the first queued command of an `EXEC` that
has passed its comparison, no other connection has changed the watched key, in
every run whose steps are settled. -/
theorem watched_undisturbed
    {c : Cache L} {clock : ℤ} {before during : List (Action C L)} {first last : Server C L}
    (hbefore : run step (start c clock) before = some first)
    (hduring : run step first during = some last)
    {j : C} {key : Key}
    (hwatched : Along step (fun s _ => key ∈ (s.conns j).watched) first during)
    (hchecked : (last.conns j).activity.stage = .checked)
    (hsettled : Along step Settled (start c clock) (before ++ during)) :
    Along step (fun s a => ¬ s.Disturbs j key a) first during := by
  rw [along_iff_forall_split]
  intro earlier a later hsplit s hearlier hdisturbs
  subst hsplit
  have hsettled' := ((along_append step).mp hsettled).2 first hbefore
  obtain ⟨hnow, hafter⟩ := ((along_append step).mp hsettled').2 s hearlier
  obtain ⟨hkey, hkept⟩ := ((along_append step).mp hwatched).2 s hearlier
  obtain ⟨s', hearlier', hrest⟩ := (run_append_eq_some step).mp hduring
  have hs : s' = s := Option.some.inj (hearlier'.symm.trans hearlier)
  subst s'
  obtain ⟨next, hstep, hlater⟩ := (run_cons_eq_some step).mp hrest
  have hregistered : next.Registered := by
    have hreach : run step (start c clock) (before ++ earlier ++ [a]) = some next := by
      rw [List.append_assoc, run_append, hbefore]
      simp only [Option.bind_some]
      rw [run_append, hearlier]
      simp only [Option.bind_some]
      exact (run_cons_eq_some step).mpr ⟨next, hstep, rfl⟩
    exact run_invariant step (fun _ _ _ h hs => h.step hs) (registered_start c clock) hreach
  have hmissed : next.Missed j key := hdisturbs.missed hnow hkey hstep
  have hboth : Along step (fun s a => key ∈ (s.conns j).watched ∧ s.Settled a) next later :=
    Along.and step (hkept next hstep) (hafter next hstep)
  have hend : last.Registered ∧ last.Missed j key :=
    run_invariant_along (I := fun s => s.Registered ∧ s.Missed j key) step
      (fun _ _ _ hinv hcond hs => ⟨hinv.1.step hs, hinv.2.step hinv.1 hcond.1 hcond.2 hs⟩)
      ⟨hregistered, hmissed⟩ hboth hlater
  exact hend.2.not_checked hchecked

def small : Cache (Config.layout ⟨1, 0, 0, .noEviction⟩ fun _ => 0) :=
  Cache.unlimited 1 .noEviction (fun _ => 0) fun _ _ => 0

def watchA : List (Action Bool (Config.layout ⟨1, 0, 0, .noEviction⟩ fun _ => 0)) :=
  [.watch false [[97]], .dequeue, .watched false]

def setByOther (key : Key) :
    List (Action Bool (Config.layout ⟨1, 0, 0, .noEviction⟩ fun _ => 0)) :=
  [.plain true [.setTTL key [50] 0], .call true unread, .finish true]

def dispatched : List (Action Bool (Config.layout ⟨1, 0, 0, .noEviction⟩ fun _ => 0)) :=
  [.dequeue, .onEvent, .publish]

def multiExec : List (Action Bool (Config.layout ⟨1, 0, 0, .noEviction⟩ fun _ => 0)) :=
  [.multi false, .queue false [.setTTL [97] [49] 0], .exec false, .check false]

/-- Another connection sets the watched key, and `EXEC` compares the versions
before the dispatcher has handed on the event: it runs and overwrites the
change. -/
theorem exec_misses_undelivered_set :
    let actions := setByOther [97] ++ multiExec
    (∃ first last,
      run step (start small 0) watchA = some first ∧
      run step first actions = some last ∧
      Along step (fun s _ => [97] ∈ (s.conns false).watched) first actions ∧
      (last.conns false).activity.stage = .checked ∧
      ¬ Along step (fun s a => ¬ s.Disturbs false [97] a) first actions ∧
      last.engine.cache.contents [97] = some ⟨[50], 0⟩) ∧
    ∃ final, run step (start small 0)
        (watchA ++ actions ++ [.call false unread, .finish false]) = some final ∧
      final.engine.cache.contents [97] = some ⟨[49], 0⟩ := by
  intro actions
  have hrun : ∃ first ∈ run step (start small 0) watchA,
      ∃ last ∈ run step first actions,
        Along step (fun s _ => [97] ∈ (s.conns false).watched) first actions ∧
        (last.conns false).activity.stage = .checked ∧
        ¬ Along step (fun s a => ¬ s.Disturbs false [97] a) first actions ∧
        last.engine.cache.contents [97] = some ⟨[50], 0⟩ := by
    decide +kernel
  have hfinal : ∃ final ∈ run step (start small 0)
      (watchA ++ actions ++ [.call false unread, .finish false]),
        final.engine.cache.contents [97] = some ⟨[49], 0⟩ := by
    decide +kernel
  obtain ⟨first, hfirst, last, hlast, hfacts⟩ := hrun
  exact ⟨⟨first, last, hfirst, hlast, hfacts⟩, hfinal⟩

/-- Another key is set and its event is handed on before `EXEC`. -/
theorem watched_undisturbed_otherKey :
    ∃ first last,
      run step (start small 0) watchA = some first ∧
      run step first (setByOther [98] ++ dispatched ++ multiExec) = some last ∧
      (last.conns false).activity.stage = .checked ∧
      Along step (fun s a => ¬ s.Disturbs false [97] a) first
        (setByOther [98] ++ dispatched ++ multiExec) := by
  have hrun : ∃ first ∈ run step (start small 0) watchA,
      ∃ last ∈ run step first (setByOther [98] ++ dispatched ++ multiExec),
        Along step (fun s _ => [97] ∈ (s.conns false).watched) first
          (setByOther [98] ++ dispatched ++ multiExec) ∧
        (last.conns false).activity.stage = .checked := by
    decide +kernel
  have hsettled : Along step Settled (start small 0)
      (watchA ++ (setByOther [98] ++ dispatched ++ multiExec)) := by
    decide +kernel
  obtain ⟨first, hfirst, last, hlast, hwatched, hchecked⟩ := hrun
  exact ⟨first, last, hfirst, hlast, hchecked,
    watched_undisturbed hfirst hlast hwatched hchecked hsettled⟩

end Server

end Txn
end DistCache
