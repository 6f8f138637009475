import DistCache.WatchMaps

/-!
# Connections that come and go

A connection is served until its loop returns: on `QUIT`, on an error of `ReadCommand`,
or when the server shuts down.  On its way out it closes the subscriptions and the
socket; the pending transaction is left as it is, and its keys stay registered.  The
coordinator counts those of ended connections as well.
-/

namespace DistCache
namespace Txn

open DeadlineStore Eviction Transition RefCounts

variable {C : Type*} [DecidableEq C] {L : Layout}

def Action.conn : Action C L → Option C
  | .watch i _ => some i
  | .watched i => some i
  | .multi i => some i
  | .queue i _ => some i
  | .discard i => some i
  | .unwatch i => some i
  | .plain i _ => some i
  | .exec i => some i
  | .check i => some i
  | .call i _ => some i
  | .finish i => some i
  | .sweep _ _ _ _ => none
  | .dequeue => none
  | .onEvent => none
  | .publish => none

namespace Server

variable {s next : Server C L} {a : Action C L} {i j : C}

theorem conns_setConn_of_ne (s : Server C L) (c : Conn L) (hne : j ≠ i) :
    (s.setConn i c).conns j = s.conns j := by
  simp [setConn, hne]

theorem conns_drop_of_ne (s : Server C L) (hne : j ≠ i) : (s.drop i).conns j = s.conns j := by
  simp [drop, setConn, hne]

theorem conns_of_other (hstep : s.step a = some next) (hother : a.conn ≠ some j) :
    next.conns j = s.conns j := by
  have hne : ∀ i, a.conn = some i → j ≠ i := by
    intro i hconn hj
    rw [hj] at hother
    exact hother hconn
  cases a with
  | watch i keys =>
      simp only [step, watch] at hstep
      split at hstep
      · split_ifs at hstep
        · cases hstep
          rfl
        · cases hstep
          exact conns_setConn_of_ne _ _ (hne i rfl)
      · contradiction
  | watched i =>
      simp only [step, watched] at hstep
      split at hstep
      · split_ifs at hstep
        cases hstep
        exact conns_setConn_of_ne _ _ (hne i rfl)
      · contradiction
  | multi i =>
      simp only [step, multi] at hstep
      split at hstep
      · split_ifs at hstep
        · cases hstep
          rfl
        · cases hstep
          exact conns_setConn_of_ne _ _ (hne i rfl)
      · contradiction
  | queue i cmd =>
      simp only [step, queue] at hstep
      split at hstep
      · split_ifs at hstep
        cases hstep
        exact conns_setConn_of_ne _ _ (hne i rfl)
      · contradiction
  | discard i =>
      simp only [step, discard] at hstep
      split at hstep
      · split_ifs at hstep
        · cases hstep
          rfl
        · cases hstep
          exact conns_drop_of_ne _ (hne i rfl)
      · contradiction
  | unwatch i =>
      simp only [step, unwatch] at hstep
      split at hstep
      · split_ifs at hstep
        · cases hstep
          exact conns_drop_of_ne _ (hne i rfl)
        · cases hstep
          rfl
      · contradiction
  | plain i cmd =>
      simp only [step, plain] at hstep
      split at hstep
      · split_ifs at hstep
        cases hstep
        exact conns_setConn_of_ne _ _ (hne i rfl)
      · contradiction
  | exec i =>
      simp only [step, exec] at hstep
      split at hstep
      · split_ifs at hstep
        · cases hstep
          exact conns_setConn_of_ne _ _ (hne i rfl)
        · cases hstep
          rfl
      · contradiction
  | check i =>
      simp only [step, check] at hstep
      split at hstep
      · cases hstep
        exact conns_setConn_of_ne _ _ (hne i rfl)
      · contradiction
  | call i clock =>
      obtain ⟨r, _, hnext⟩ := Option.map_eq_some_iff.mp hstep
      rw [← hnext]
      exact conns_setConn_of_ne _ _ (hne i rfl)
  | finish i =>
      simp only [step, finish] at hstep
      split at hstep
      · cases hstep
        exact conns_setConn_of_ne _ _ (hne i rfl)
      · cases hstep
        exact conns_drop_of_ne _ (hne i rfl)
      · cases hstep
        exact conns_drop_of_ne _ (hne i rfl)
      · contradiction
  | sweep clock shard sample order =>
      cases hstep
      rfl
  | dequeue =>
      obtain ⟨e, _, hnext⟩ := Option.map_eq_some_iff.mp hstep
      rw [← hnext]
  | onEvent =>
      obtain ⟨r, _, hnext⟩ := Option.map_eq_some_iff.mp hstep
      rw [← hnext]
  | publish =>
      obtain ⟨e, _, hnext⟩ := Option.map_eq_some_iff.mp hstep
      rw [← hnext]

/-! ## The maps behind the counters -/

/-- There are maps with these counters, and transactions with these versions. -/
def HasMaps (s : Server C L) : Prop :=
  ∃ (maps : TxnCalls.Coordinator) (txs : C → TxnCalls.Tx Unit),
    TxnCalls.Represents maps s.co ∧ ∀ i, TxnCalls.SameWatched (txs i) (s.conns i).theTx

omit [DecidableEq C] in
theorem hasMaps_start (c : Cache L) (clock : ℤ) : (start c clock : Server C L).HasMaps :=
  ⟨.new, fun _ => .new, TxnCalls.represents_new, fun _ _ => rfl⟩

theorem hasMaps_step (hmaps : s.HasMaps) (hstep : s.step a = some next) : next.HasMaps := by
  obtain ⟨maps, txs, hrepresents, hsame⟩ := hmaps
  cases step_shape hstep with
  | keeps hversions hwatchers hwatched hstage hlog =>
      refine ⟨maps, txs, hrepresents.congr hwatchers hversions, ?_⟩
      intro i key
      rw [hsame]
      exact congrArg (fun watched => (AList.lookup key watched).map _) (hwatched i).symm
  | drops i hversions hwatchers hconns hengine =>
      refine ⟨maps.release (txs i), Function.update txs i .new,
        (hrepresents.release (hsame i)).congr hwatchers hversions, ?_⟩
      intro j
      rw [hconns]
      by_cases hj : j = i
      · subst hj
        rw [Function.update_self, Function.update_self]
        exact fun _ => rfl
      · rw [Function.update_of_ne hj, Function.update_of_ne hj]
        exact hsame j
  | registers i keys hco hbefore hconns hengine =>
      obtain ⟨hrepresents', hsame'⟩ := hrepresents.watch (hsame i) keys
      refine ⟨(maps.watch (txs i) keys).1, Function.update txs i (maps.watch (txs i) keys).2,
        by rw [hco]; exact hrepresents', ?_⟩
      intro j
      rw [hconns]
      by_cases hj : j = i
      · subst hj
        rw [Function.update_self, Function.update_self]
        exact hsame'
      · rw [Function.update_of_ne hj, Function.update_of_ne hj]
        exact hsame j
  | delivers ev hdeliver hco hconns =>
      refine ⟨maps.onEvent ev, txs, by rw [hco]; exact hrepresents.onEvent ev, ?_⟩
      rw [hconns]
      exact hsame

end Server

/-! ## Accepting and ending connections -/

inductive Life where
  | unopened
  | serving
  | ended
  deriving DecidableEq

/-- The server with the connections that it serves.  A connection that has not
been opened is as `newConn` makes it. -/
structure Listener (C : Type*) (L : Layout) where
  server : Server C L
  life : C → Life

namespace Listener

inductive Action (C : Type*) (L : Layout) where
  | accept (i : C)
  | act (a : Txn.Action C L)
  | leave (i : C)

def start (c : Cache L) (clock : ℤ) : Listener C L := ⟨.start c clock, fun _ => .unopened⟩

def accept (s : Listener C L) (i : C) : Option (Listener C L) :=
  if s.life i = .unopened then some { s with life := Function.update s.life i .serving }
  else none

def act (s : Listener C L) (a : Txn.Action C L) : Option (Listener C L) :=
  if ∀ i ∈ a.conn, s.life i = .serving then
    (s.server.step a).map fun server => { s with server := server }
  else none

/-- The loop of `serve` returns.  The subscriptions and the socket are closed, the
transaction is not touched. -/
def leave (s : Listener C L) (i : C) : Option (Listener C L) :=
  match (s.server.conns i).activity with
  | .idle =>
      if s.life i = .serving then some { s with life := Function.update s.life i .ended }
      else none
  | _ => none

def step (s : Listener C L) : Action C L → Option (Listener C L)
  | .accept i => s.accept i
  | .act a => s.act a
  | .leave i => s.leave i

def openWatching (s : Listener C L) (key : Key) : Set C :=
  {i | s.life i = .serving ∧ key ∈ (s.server.conns i).watched}

/-- The connection that ends watches no key. -/
def LeavesClean (s : Listener C L) (a : Action C L) : Prop :=
  ∀ i, a = .leave i → (s.server.conns i).watched = ∅

instance (s : Listener C L) (a : Action C L) : Decidable (s.LeavesClean a) :=
  match a with
  | .accept _ => .isTrue nofun
  | .act _ => .isTrue nofun
  | .leave i => decidable_of_iff ((s.server.conns i).watched.entries = [])
      (by simp [LeavesClean, AList.ext_iff])

/-! ### What a step can do -/

section Effect

variable {s next : Listener C L} {a : Action C L} {i j : C}

inductive Effect (s next : Listener C L) : Action C L → Prop where
  | accepts (i : C) (hfresh : s.life i = .unopened)
      (hnext : next = { s with life := Function.update s.life i .serving }) :
      Effect s next (.accept i)
  | acts (a : Txn.Action C L) (hserving : ∀ i ∈ a.conn, s.life i = .serving)
      (hstep : s.server.step a = some next.server) (hlife : next.life = s.life) :
      Effect s next (.act a)
  | leaves (i : C) (hserving : s.life i = .serving)
      (hnext : next = { s with life := Function.update s.life i .ended }) :
      Effect s next (.leave i)

theorem step_effect (hstep : s.step a = some next) : Effect s next a := by
  cases a with
  | accept i =>
      simp only [step, accept] at hstep
      split_ifs at hstep with hfresh
      cases hstep
      exact .accepts i hfresh rfl
  | act a =>
      simp only [step, act] at hstep
      split_ifs at hstep with hserving
      obtain ⟨server, hserver, hnext⟩ := Option.map_eq_some_iff.mp hstep
      subst hnext
      exact .acts a hserving hserver rfl
  | leave i =>
      simp only [step, leave] at hstep
      split at hstep
      · split_ifs at hstep with hserving
        cases hstep
        exact .leaves i hserving rfl
      · contradiction

theorem conns_of_not_serving (hstep : s.step a = some next) (hlife : s.life i ≠ .serving) :
    next.server.conns i = s.server.conns i := by
  cases step_effect hstep with
  | accepts j hfresh hnext => rw [hnext]
  | acts a hserving hserver hsame =>
      exact Server.conns_of_other hserver fun hconn => hlife (hserving i hconn)
  | leaves j hserving hnext => rw [hnext]

theorem ended_step (hstep : s.step a = some next) (hended : s.life i = .ended) :
    next.life i = .ended := by
  cases step_effect hstep with
  | accepts j hfresh hnext =>
      have hne : i ≠ j := by
        rintro rfl
        rw [hfresh] at hended
        contradiction
      rw [hnext]
      simp [hne, hended]
  | acts a hserving hserver hsame => rw [hsame, hended]
  | leaves j hserving hnext =>
      rw [hnext]
      by_cases hj : i = j
      · simp [hj]
      · simp [hj, hended]

end Effect

/-! ### Whole runs -/

section Runs

variable {s next final : Listener C L} {a : Action C L} {actions : List (Action C L)} {i : C}

/-- What holds whatever the connections do. -/
structure Counted (s : Listener C L) : Prop where
  counts : Counts s.server.held s.server.co.watchers
  hasMaps : s.server.HasMaps

theorem Counted.step (hcounted : s.Counted) (hstep : s.step a = some next) : next.Counted := by
  cases step_effect hstep with
  | accepts i hfresh hnext =>
      rw [hnext]
      exact ⟨hcounted.counts, hcounted.hasMaps⟩
  | acts a hserving hserver hsame =>
      exact ⟨Server.counts_step hcounted.counts hserver,
        Server.hasMaps_step hcounted.hasMaps hserver⟩
  | leaves i hserving hnext =>
      rw [hnext]
      exact ⟨hcounted.counts, hcounted.hasMaps⟩

theorem counted_of_run {c : Cache L} {clock : ℤ}
    (hrun : run step (start c clock) actions = some final) : final.Counted := by
  have hstart : (start c clock : Listener C L).Counted :=
    ⟨Server.counts_start c clock, Server.hasMaps_start c clock⟩
  exact run_invariant step (fun _ _ _ hcounted hstep => hcounted.step hstep) hstart hrun

def Clean (s : Listener C L) : Prop := ∀ i, s.life i ≠ .serving → s.server.held i = ∅

omit [DecidableEq C] in
theorem held_eq_empty_iff (s : Server C L) (i : C) :
    s.held i = ∅ ↔ (s.conns i).watched = ∅ := by
  rw [Set.eq_empty_iff_forall_notMem, TxnCalls.alist_eq_empty_iff]
  rfl

theorem Clean.step (hclean : s.Clean) (hleaves : s.LeavesClean a)
    (hstep : s.step a = some next) : next.Clean := by
  intro j hlife
  cases step_effect hstep with
  | accepts i hfresh hnext =>
      subst hnext
      refine hclean j fun hserving => hlife ?_
      by_cases hj : j = i
      · simp [hj]
      · simp [hj, hserving]
  | acts a hserving hserver hsame =>
      rw [hsame] at hlife
      rw [held_eq_empty_iff, conns_of_not_serving hstep hlife, ← held_eq_empty_iff]
      exact hclean j hlife
  | leaves i hserving hnext =>
      by_cases hj : j = i
      · subst hj
        rw [held_eq_empty_iff, hnext]
        exact hleaves j rfl
      · rw [hnext] at hlife ⊢
        refine hclean j ?_
        simpa [hj] using hlife

theorem conns_of_ended (hended : s.life i = .ended) (hrun : run step s actions = some final) :
    final.life i = .ended ∧ final.server.conns i = s.server.conns i := by
  refine run_invariant (I := fun t => t.life i = .ended ∧ t.server.conns i = s.server.conns i)
    step ?_ ⟨hended, rfl⟩ hrun
  rintro t a next ⟨hlife, hconns⟩ hstep
  refine ⟨ended_step hstep hlife, ?_⟩
  rw [conns_of_not_serving hstep (by rw [hlife]; decide), hconns]

theorem clean_iff (hclean : s.Clean) (hrun : run step s actions = some final) :
    final.Clean ↔ Along step LeavesClean s actions := by
  constructor
  · intro hfinal
    rw [along_iff_forall_split]
    rintro before a after hsplit middle hbefore i rfl
    rw [hsplit, run_append_eq_some] at hrun
    obtain ⟨middle', hmiddle, hrest⟩ := hrun
    have heq : middle' = middle := Option.some.inj (hmiddle.symm.trans hbefore)
    subst heq
    obtain ⟨next, hleave, hafter⟩ := (run_cons_eq_some step).mp hrest
    cases step_effect hleave with
    | leaves i hserving hnext =>
        have hended : next.life i = .ended := by simp [hnext]
        obtain ⟨hlife, hconns⟩ := conns_of_ended hended hafter
        have hempty := hfinal i (by rw [hlife]; decide)
        rw [held_eq_empty_iff, hconns, hnext] at hempty
        exact hempty
  · intro halong
    exact run_invariant_along step (fun _ _ _ hs hleaves hstep => hs.step hleaves hstep)
      hclean halong hrun

/-- The coordinator counts the open connections that watch a key, and holds no key
when there are none, exactly if no connection has ended while its pending
transaction watched a key. -/
theorem watchers_count_open_iff (c : Cache L) (clock : ℤ)
    (hrun : run step (start c clock) actions = some final) :
    ((∀ key, (final.openWatching key).encard = final.server.co.watchers key) ↔
      Along step LeavesClean (start c clock) actions) ∧
    ∃ maps : TxnCalls.Coordinator, TxnCalls.Represents maps final.server.co ∧
      ((∀ i, final.life i ≠ .serving) →
        (maps.watchers = ∅ ∧ maps.versions = ∅ ↔
          Along step LeavesClean (start c clock) actions)) := by
  obtain ⟨hcounts, maps, txs, hrepresents, -⟩ := counted_of_run hrun
  have hstart : (start c clock : Listener C L).Clean := fun _ _ => Server.held_new
  rw [← clean_iff hstart hrun]
  refine ⟨hcounts.restrict_iff fun i => final.life i = .serving, maps, hrepresents, ?_⟩
  intro hgone
  rw [hrepresents.empty_iff]
  constructor
  · intro hzero i _
    rw [Set.eq_empty_iff_forall_notMem]
    intro key hmem
    have hpos := (hcounts.pos_iff key).mpr ⟨i, hmem⟩
    rw [hzero key] at hpos
    exact absurd hpos (lt_irrefl 0)
  · intro hclean key
    by_contra hne
    obtain ⟨i, hmem⟩ := (hcounts.pos_iff key).mp (Nat.pos_of_ne_zero hne)
    rw [hclean i (hgone i)] at hmem
    exact hmem

def watchAndLeave (finish : List (Txn.Action Bool (Config.layout ⟨1, 0, 0, .noEviction⟩
    fun _ => 0))) :
    List (Action Bool (Config.layout ⟨1, 0, 0, .noEviction⟩ fun _ => 0)) :=
  [.accept false] ++ (Server.watchA ++ finish).map .act ++ [.leave false]

/-- With `UNWATCH` before the end, nothing is left. -/
theorem watchers_count_open_unwatched :
    ∃ final, run step (start Server.small 0) (watchAndLeave [.unwatch false]) = some final ∧
      Along step LeavesClean (start Server.small 0) (watchAndLeave [.unwatch false]) ∧
      ∀ key, (final.openWatching key).encard = final.server.co.watchers key := by
  have hrun : (run step (start Server.small 0) (watchAndLeave [.unwatch false])).isSome = true := by
    decide +kernel
  obtain ⟨final, hfinal⟩ := Option.isSome_iff_exists.mp hrun
  have halong : Along step LeavesClean (start Server.small 0) (watchAndLeave [.unwatch false]) := by
    decide +kernel
  exact ⟨final, hfinal, halong, (watchers_count_open_iff Server.small 0 hfinal).1.mpr halong⟩

/-- Without it the key stays registered, with no connection there. -/
theorem watch_outlives_connection :
    ∃ final, run step (start Server.small 0) (watchAndLeave []) = some final ∧
      (∀ i, final.life i ≠ .serving) ∧ final.openWatching [97] = ∅ ∧
      final.server.co.watchers [97] = 1 := by
  have hrun : ∃ final ∈ run step (start Server.small 0) (watchAndLeave []),
      (∀ i, final.life i ≠ .serving) ∧ final.server.co.watchers [97] = 1 := by
    decide +kernel
  obtain ⟨final, hfinal, hgone, hwatchers⟩ := hrun
  refine ⟨final, hfinal, hgone, ?_, hwatchers⟩
  exact Set.eq_empty_of_forall_notMem fun i hi => hgone i hi.1

end Runs

end Listener
end Txn
end DistCache
