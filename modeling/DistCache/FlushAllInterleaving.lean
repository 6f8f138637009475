import DistCache.Transition
import DistCache.CacheEvents

/-!
# FlushAll while other clients write

`FlushAll` clears one shard after the other and puts one `OpFlush` into the stream for
each, and every `OpFlush` clears all shards where it is applied.  A write that lands in
a shard already cleared, before the last shard is, survives in the cache and is wiped
out downstream.  Any number of calls may be in progress; stream and cache are compared
when none is.
-/

namespace DistCache
namespace FlushAll

open DeadlineStore Eviction Transition

variable {L : Layout}

structure State (L : Layout) where
  cache : Cache L
  stream : List Event
  running : List ℕ

inductive Action (L : Layout) where
  | client (step : Step L)
  | call
  | flushNext (caller : ℕ)

def State.emit (s : State L) (r : Cache L × List Event × Reply) : State L :=
  { s with cache := r.1, stream := s.stream ++ r.2.1 }

def advance (running : List ℕ) (caller i n : ℕ) : List ℕ :=
  if i + 1 < n then running.set caller (i + 1) else running.eraseIdx caller

def step (s : State L) : Action L → Option (State L)
  | .client st =>
      if st.op.IsFlush then none else some (s.emit (s.cache.exec st))
  | .call => some { s with running := s.running ++ [0] }
  | .flushNext caller =>
      match s.running[caller]? with
      | none => none
      | some i =>
          if h : i < L.shards then
            some { s.emit (s.cache.exec ⟨unread, .flush ⟨i, h⟩⟩) with
              running := advance s.running caller i L.shards }
          else none

def initial (cfg : Config) (hash : Key → ℕ) (rng : ℕ → ℕ → ℕ) :
    State (cfg.layout hash) :=
  ⟨Cache.new cfg hash rng, [], []⟩

/-- Applying the stream to an empty cache without limits gives the cache. -/
def Reproduced (s : State L) : Prop :=
  ∀ shards policy hash rng,
    ((Cache.unlimited shards policy hash rng).applyEvents s.stream).contents =
      s.cache.contents

/-- When a step ends the last call in progress, the shards cleared before are
still empty. -/
def ClearedStayEmpty (s : State L) : Action L → Prop
  | .flushNext _ =>
      s.running = [L.shards - 1] →
        ∀ i : Fin L.shards, (i : ℕ) ≠ L.shards - 1 → (s.cache.shards i).len = 0
  | _ => True

theorem reproduced_iff {s : State L} :
    Reproduced s ↔
      replay (mutations s.stream) (fun _ => none) = s.cache.contents := by
  constructor
  · intro hreproduced
    rw [← hreproduced 1 .noEviction (fun _ => 0) (fun _ _ => 0),
      Cache.contents_unlimited_applyEvents]
  · intro hreplay shards policy hash rng
    rw [Cache.contents_unlimited_applyEvents, hreplay]

theorem len_eq_zero_iff (s : Shard) :
    s.len = 0 ↔ ∀ key, s.view key = none := by
  constructor
  · intro hlen key
    have hkeys : s.items.keys = [] := List.eq_nil_of_length_eq_zero hlen
    apply AList.lookup_eq_none.mpr
    rw [AList.mem_keys, hkeys]
    simp
  · intro hview
    have hkeys : s.items.keys = [] := by
      rw [List.eq_nil_iff_forall_not_mem]
      intro key hmem
      exact AList.lookup_eq_none.mp (hview key) (AList.mem_keys.mpr hmem)
    unfold Shard.len
    rw [hkeys]
    rfl

/-! ## One step -/

theorem replay_stream_flush (stream : List Event) (store : Contents) :
    replay (mutations (stream ++ [Event.flush])) store = fun _ => none := by
  have hsnoc : mutations (stream ++ [Event.flush]) = mutations stream ++ [.flush] := by
    rw [mutations_append]
    rfl
  rw [hsnoc, replay_snoc]
  rfl

theorem advance_eq_nil {running : List ℕ} {caller i n : ℕ}
    (hcaller : running[caller]? = some i) (hi : i < n)
    (hnil : advance running caller i n = []) :
    running = [n - 1] ∧ i = n - 1 := by
  have hlt := (List.getElem?_eq_some_iff.mp hcaller).1
  unfold advance at hnil
  split_ifs at hnil with hnext
  · have hlength := congrArg List.length hnil
    simp only [List.length_set, List.length_nil] at hlength
    omega
  · have hlength := congrArg List.length hnil
    rw [List.length_eraseIdx_of_lt hlt, List.length_nil] at hlength
    obtain ⟨only, honly⟩ := List.length_eq_one_iff.mp
      (show running.length = 1 by omega)
    subst running
    have hzero : caller = 0 := by simpa using hlt
    subst caller
    have honly : only = i := by simpa using hcaller
    have hlast : i = n - 1 := by omega
    exact ⟨by rw [honly, hlast], hlast⟩

structure Consistent (s : State L) : Prop where
  placed : s.cache.Placed
  reproduced : s.running = [] → Reproduced s

theorem placed_step {s next : State L} {a : Action L}
    (hplaced : s.cache.Placed) (hstep : step s a = some next) :
    next.cache.Placed := by
  cases a with
  | client st =>
      simp only [step] at hstep
      split_ifs at hstep
      cases hstep
      exact Cache.placed_exec hplaced st
  | call =>
      cases hstep
      exact hplaced
  | flushNext caller =>
      simp only [step] at hstep
      cases hcaller : s.running[caller]? with
      | none => simp [hcaller] at hstep
      | some i =>
          simp only [hcaller] at hstep
          split_ifs at hstep
          cases hstep
          exact Cache.placed_exec hplaced _

theorem consistent_step {s next : State L} {a : Action L}
    (hconsistent : Consistent s) (hclean : ClearedStayEmpty s a)
    (hstep : step s a = some next) : Consistent next := by
  refine ⟨placed_step hconsistent.placed hstep, ?_⟩
  intro hquiet
  rw [reproduced_iff]
  cases a with
  | client st =>
      simp only [step] at hstep
      split_ifs at hstep with hflush
      cases hstep
      have hbefore := reproduced_iff.mp (hconsistent.reproduced hquiet)
      have hafter := Cache.contents_exec hconsistent.placed hflush
      simp only [State.emit, mutations_append, replay_append]
      rw [hbefore, ← hafter]
  | call =>
      cases hstep
      simp at hquiet
  | flushNext caller =>
      simp only [step] at hstep
      cases hcaller : s.running[caller]? with
      | none => simp [hcaller] at hstep
      | some i =>
          simp only [hcaller] at hstep
          split_ifs at hstep with hi
          cases hstep
          obtain ⟨hrunning, hlast⟩ := advance_eq_nil hcaller hi hquiet
          have hempty := hclean hrunning
          have hstream : replay (mutations (s.stream ++ [Event.flush]))
              (fun _ => none) = fun _ => none := replay_stream_flush _ _
          refine hstream.trans ?_
          funext key
          symm
          change (s.cache.exec ⟨unread, .flush ⟨i, hi⟩⟩).1.contents key = none
          rw [Cache.contents_exec_flush]
          by_cases hshard : L.index key = ⟨i, hi⟩
          · rw [if_pos hshard]
          · rw [if_neg hshard]
            apply (len_eq_zero_iff _).mp
            apply hempty
            intro hval
            apply hshard
            apply Fin.ext
            exact hval.trans hlast.symm

theorem clearedStayEmpty_of_reproduced {s next : State L} {a : Action L}
    (hplaced : s.cache.Placed) (hstep : step s a = some next)
    (hreproduced : next.running = [] → Reproduced next) :
    ClearedStayEmpty s a := by
  cases a with
  | client st => trivial
  | call => trivial
  | flushNext caller =>
      intro hrunning i hne
      have hpos := L.pos
      simp only [step, hrunning] at hstep
      cases caller with
      | succ other => simp at hstep
      | zero =>
          have hlast : L.shards - 1 < L.shards := by omega
          simp only [List.getElem?_cons_zero, dif_pos hlast] at hstep
          cases hstep
          have hquiet : advance [L.shards - 1] 0 (L.shards - 1) L.shards = [] := by
            unfold advance
            rw [if_neg (by omega)]
            rfl
          have hreplay := reproduced_iff.mp (hreproduced hquiet)
          have hstream : replay (mutations (s.stream ++ [Event.flush]))
              (fun _ => none) = fun _ => none := replay_stream_flush _ _
          have hcontents : ∀ key,
              (s.cache.exec ⟨unread, .flush ⟨L.shards - 1, hlast⟩⟩).1.contents key =
                none := by
            intro key
            exact congrFun (hreplay.symm.trans hstream) key
          rw [len_eq_zero_iff]
          intro key
          by_contra hheld
          have hshard : L.index key = i := hplaced i key hheld
          have hkey := hcontents key
          rw [Cache.contents_exec_flush, if_neg] at hkey
          · rw [Cache.contents, hshard] at hkey
            exact hheld hkey
          · intro heq
            apply hne
            rw [← hshard, heq]

/-! ## Runs -/

theorem consistent_initial (cfg : Config) (hash : Key → ℕ) (rng : ℕ → ℕ → ℕ) :
    Consistent (initial cfg hash rng) := by
  refine ⟨Cache.placed_new cfg hash rng, fun _ => ?_⟩
  rw [reproduced_iff]
  rfl

/-- In every run, the stream reproduces the cache in each state without a call
in progress exactly when each step that ends the last call finds the shards
cleared before it still empty. -/
theorem reproduced_iff_clearedStayEmpty
    (cfg : Config) (hash : Key → ℕ) (rng : ℕ → ℕ → ℕ)
    (actions : List (Action (cfg.layout hash))) {final : State (cfg.layout hash)}
    (hrun : run step (initial cfg hash rng) actions = some final) :
    (∀ before after s, actions = before ++ after →
        run step (initial cfg hash rng) before = some s →
        s.running = [] → Reproduced s) ↔
      Along step ClearedStayEmpty (initial cfg hash rng) actions := by
  constructor
  · intro hreproduced
    rw [along_iff_forall_split]
    intro before a after hsplit s hbefore
    have hplaced : s.cache.Placed :=
      run_invariant (I := fun s => s.cache.Placed) step
        (fun _ _ _ hp hs => placed_step hp hs)
        (Cache.placed_new cfg hash rng) hbefore
    have hall := hrun
    rw [hsplit, run_append_eq_some] at hall
    obtain ⟨middle, hmiddle, hafter⟩ := hall
    have heq : middle = s := Option.some.inj (hmiddle.symm.trans hbefore)
    subst middle
    obtain ⟨next, hstep, _⟩ := (run_cons_eq_some step).mp hafter
    apply clearedStayEmpty_of_reproduced hplaced hstep
    intro hquiet
    apply hreproduced (before ++ [a]) after next (by rw [hsplit]; simp) _ hquiet
    rw [run_append_eq_some]
    exact ⟨s, hbefore, (run_cons_eq_some step).mpr ⟨next, hstep, rfl⟩⟩
  · intro halong before after s hsplit hbefore hquiet
    subst actions
    have hprefix := ((along_append step).mp halong).1
    have hconsistent : Consistent s :=
      run_invariant_along step (fun _ _ _ hc hp hs => consistent_step hc hp hs)
        (consistent_initial cfg hash rng) hprefix hbefore
    exact hconsistent.reproduced hquiet

/-! ## A lost write -/

def twoShards : Config := ⟨2, 0, 0, .noEviction⟩

def start : State (twoShards.layout List.length) :=
  initial twoShards List.length fun _ _ => 0

def writeBehindFlush : List (Action (twoShards.layout List.length)) :=
  [.call, .flushNext 0, .client ⟨unread, .setTTL [107, 48] [118] 0⟩, .flushNext 0]

theorem flushAll_loses_concurrent_write :
    ∃ final, run step start writeBehindFlush = some final ∧
      final.running = [] ∧ ¬ Reproduced final := by
  refine ⟨_, rfl, rfl, ?_⟩
  intro hreproduced
  have hkey := congrFun (reproduced_iff.mp hreproduced) [107, 48]
  revert hkey
  decide

def writeAheadOfFlush : List (Action (twoShards.layout List.length)) :=
  [.call, .flushNext 0, .client ⟨unread, .setTTL [107] [118] 0⟩, .flushNext 0]

theorem writeAheadOfFlush_reproduced :
    ∃ final, run step start writeAheadOfFlush = some final ∧
      final.running = [] ∧ Reproduced final := by
  have halong : Along step ClearedStayEmpty start writeAheadOfFlush := by
    refine ⟨trivial, ?_⟩
    intro called hcall
    cases hcall
    refine ⟨fun hlast => absurd hlast (by decide), ?_⟩
    intro cleared hclear
    cases hclear
    refine ⟨trivial, ?_⟩
    intro written hwrite
    cases hwrite
    refine ⟨fun _ => by decide, fun _ _ => trivial⟩
  have hreproduced := (reproduced_iff_clearedStayEmpty twoShards List.length
    (fun _ _ => 0) writeAheadOfFlush rfl).mpr halong
  exact ⟨_, rfl, rfl, hreproduced writeAheadOfFlush [] _ rfl rfl rfl⟩

end FlushAll
end DistCache
