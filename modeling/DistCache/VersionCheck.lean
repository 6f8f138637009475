import DistCache.WatchMaps

/-!
# What the version check of EXEC sees

The version of a key starts at zero when the first transaction watches it and is
deleted when the last one gives it back.  In between it counts the events of the
key that are delivered, so that the version that a transaction has taken tells
from the current one how many of them came since.  The counter has 64 bits:
`Exec` aborts exactly if the number of these events is no multiple of `2 ^ 64`
for some watched key.
-/

namespace DistCache
namespace TxnCalls

open RefCounts Transition

def delivered {T F : Type*} (key : Key) (actions : List (Action T F)) : ℕ :=
  actions.countP fun a =>
    match a with
    | .onEvent ev => decide (Concerns ev key)
    | _ => false

namespace World

variable {T F S R : Type*} [DecidableEq T] {apply : F → S → S × R} {cache : S}
  {s next : World T F S R} {a : Action T F} {t : T} {key : Key}
  {history after : List (Action T F)}

/-! ## The watched keys of the transactions -/

def watchedOf (s : World T F S R) (t : T) : AList fun _ : Key => UInt64 :=
  ((s.txs t).map Tx.watched).getD ∅

def Watches (s : World T F S R) (t : T) (key : Key) : Prop := key ∈ s.watchedOf t

omit [DecidableEq T] in
theorem watchedOf_of_tx {tx : Tx F} (htx : s.txs t = some tx) : s.watchedOf t = tx.watched := by
  rw [watchedOf, htx]
  rfl

theorem watchedOf_setTx (s : World T F S R) (t : T) (tx : Tx F) :
    (s.setTx t tx).watchedOf = Function.update s.watchedOf t tx.watched := by
  funext other
  by_cases hother : other = t
  · subst hother
    simp [watchedOf]
  · simp [watchedOf, hother]

theorem held_update {watched : AList fun _ : Key => UInt64}
    (hwatched : next.watchedOf = Function.update s.watchedOf t watched) :
    (fun u => {key | next.Watches u key}) =
      Function.update (fun u => {key | s.Watches u key}) t {key | key ∈ watched} := by
  funext u
  by_cases hu : u = t
  · subst hu
    simp [Watches, hwatched]
  · simp [Watches, hwatched, hu]

/-- The steps as far as the watched keys are concerned. -/
inductive Shape (s next : World T F S R) (a : Action T F) : Prop where
  | keeps (hco : next.co = s.co) (hwatched : next.watchedOf = s.watchedOf)
      (hquiet : ∀ ev, a ≠ .onEvent ev)
  | registers (t : T) (keys : List Key) (tx : Tx F) (ha : a = .watch t keys)
      (htx : s.txs t = some tx) (hco : next.co = (s.co.watch tx keys).1)
      (hwatched : next.watchedOf =
        Function.update s.watchedOf t (s.co.watch tx keys).2.watched)
  | releases (t : T) (tx : Tx F) (htx : s.txs t = some tx) (hco : next.co = s.co.release tx)
      (hwatched : next.watchedOf = Function.update s.watchedOf t ∅)
      (hquiet : ∀ ev, a ≠ .onEvent ev)
  | delivers (ev : Event) (ha : a = .onEvent ev) (hco : next.co = s.co.onEvent ev)
      (hwatched : next.watchedOf = s.watchedOf)

theorem watchedOf_setTx_of_same {tx : Tx F} (hsame : tx.watched = s.watchedOf t) :
    (s.setTx t tx).watchedOf = s.watchedOf := by
  rw [watchedOf_setTx, hsame, Function.update_eq_self]

theorem step_shape (hstep : s.step apply a = some next) : Shape s next a := by
  cases step_effect hstep with
  | began t hnone hnext =>
      subst hnext
      refine .keeps rfl (watchedOf_setTx_of_same ?_) (by simp)
      rw [watchedOf, hnone]
      rfl
  | refused a hrefused hnext =>
      subst hnext
      refine .keeps rfl rfl ?_
      rintro ev rfl
      simp [answer] at hrefused
  | watched t keys tx htx hmulti hnext =>
      subst hnext
      exact .registers t keys tx rfl (idleTx_eq_some.mp htx).2 rfl (watchedOf_setTx _ t _)
  | entered t tx htx hmulti hnext =>
      subst hnext
      refine .keeps rfl (watchedOf_setTx_of_same ?_) (by simp)
      rw [watchedOf_of_tx (idleTx_eq_some.mp htx).2]
  | queued t cmd tx htx hmulti hnext =>
      subst hnext
      refine .keeps rfl (watchedOf_setTx_of_same ?_) (by simp)
      exact (watchedOf_of_tx (idleTx_eq_some.mp htx).2).symm
  | discarded t tx htx hnext =>
      subst hnext
      exact .releases t tx (idleTx_eq_some.mp htx).2 rfl (watchedOf_setTx _ t _) (by simp)
  | compared t tx htx hmulti hnext =>
      subst hnext
      exact .keeps rfl rfl (by simp)
  | called t cmd todo results hphase hnext =>
      subst hnext
      exact .keeps rfl rfl (by simp)
  | succeeded t tx results htx hphase hnext | aborted t tx htx hphase hnext =>
      subst hnext
      exact .releases t tx htx rfl (watchedOf_setTx _ t _) (by simp)
  | delivered ev hnext =>
      subst hnext
      exact .delivers ev rfl rfl rfl

/-! ## The call that has added a key -/

theorem run_snoc (hrun : run (step apply) (start cache) history = some s)
    (hstep : s.step apply a = some next) :
    run (step apply) (start cache) (history ++ [a]) = some next :=
  (run_append_eq_some (step apply)).mpr
    ⟨s, hrun, (run_cons_eq_some (step apply)).mpr ⟨next, hstep, rfl⟩⟩

/-- The key was added by a `Watch` of the transaction, which has watched it since;
`after` is what came then. -/
def AddedBy (apply : F → S → S × R) (cache : S) (history : List (Action T F)) (t : T) (key : Key)
    (after : List (Action T F)) : Prop :=
  ∃ before keys middle, history = before ++ .watch t keys :: after ∧
    run (step apply) (start cache) before = some middle ∧ ¬ Watches middle t key ∧
    ∀ part, part <+: after → ∃ s : World T F S R,
      run (step apply) (start cache) (before ++ .watch t keys :: part) = some s ∧ s.Watches t key

theorem AddedBy.snoc (hadded : AddedBy apply cache history t key after)
    (hrun : run (step apply) (start cache) (history ++ [a]) = some next)
    (hwatches : next.Watches t key) :
    AddedBy apply cache (history ++ [a]) t key (after ++ [a]) := by
  obtain ⟨before, keys, middle, hhistory, hbefore, hfresh, hsince⟩ := hadded
  have hsplit : history ++ [a] = before ++ .watch t keys :: (after ++ [a]) := by
    rw [hhistory, List.append_assoc, List.cons_append]
  refine ⟨before, keys, middle, hsplit, hbefore, hfresh, ?_⟩
  intro part hpart
  rcases List.prefix_concat_iff.mp hpart with rfl | hpart
  · exact ⟨next, by rw [← hsplit, hrun], hwatches⟩
  · exact hsince part hpart

theorem addedBy_watch {keys : List Key}
    (hrun : run (step apply) (start cache) history = some s) (hfresh : ¬ s.Watches t key)
    (hstep : s.step apply (.watch t keys) = some next) (hwatches : next.Watches t key) :
    AddedBy apply cache (history ++ [.watch t keys]) t key [] := by
  refine ⟨history, keys, s, rfl, hrun, hfresh, ?_⟩
  intro part hpart
  rw [List.prefix_nil.mp hpart]
  exact ⟨next, run_snoc hrun hstep, hwatches⟩

theorem AddedBy.not_shorter {part rest : List (Action T F)} {keys : List Key}
    (hadded : AddedBy apply cache history t key after)
    (hafter : after = part ++ .watch t keys :: rest) :
    ¬ AddedBy apply cache history t key rest := by
  obtain ⟨before, keys', middle, hhistory, hbefore, hfresh, hsince⟩ := hadded
  rintro ⟨before', keys'', middle', hhistory', hbefore', hfresh', -⟩
  obtain ⟨s, hs, hwatches⟩ := hsince part (by rw [hafter]; exact List.prefix_append _ _)
  have hsame : before' = before ++ .watch t keys' :: part := by
    have heq : before' ++ .watch t keys'' :: rest =
        (before ++ .watch t keys' :: part) ++ .watch t keys :: rest := by
      rw [← hhistory', hhistory, hafter]
      simp
    exact List.append_inj_left' heq rfl
  rw [hsame, hs] at hbefore'
  cases hbefore'
  exact hfresh' hwatches

theorem AddedBy.unique {after' : List (Action T F)}
    (hadded : AddedBy apply cache history t key after)
    (hadded' : AddedBy apply cache history t key after') : after = after' := by
  have hfirst := hadded
  have hsecond := hadded'
  obtain ⟨before, keys, middle, hhistory, -⟩ := hadded
  obtain ⟨before', keys', middle', hhistory', -⟩ := hadded'
  have heq := hhistory.symm.trans hhistory'
  rcases List.append_eq_append_iff.mp heq with ⟨more, hbefore, hrest⟩ | ⟨more, hbefore, hrest⟩
  · cases more with
    | nil => exact (List.cons.inj hrest).2
    | cons first part =>
        have hafter := (List.cons.inj hrest).2
        exact absurd hsecond (hfirst.not_shorter hafter)
  · cases more with
    | nil => exact (List.cons.inj hrest).2.symm
    | cons first part =>
        have hafter := (List.cons.inj hrest).2
        exact absurd hfirst (hsecond.not_shorter hafter)

/-! ## Versions count what was delivered -/

omit [DecidableEq T] in
theorem delivered_snoc_quiet (hquiet : ∀ ev, a ≠ .onEvent ev) (key : Key)
    (after : List (Action T F)) : delivered key (after ++ [a]) = delivered key after := by
  rw [delivered, delivered, List.countP_append]
  cases a with
  | onEvent ev => exact absurd rfl (hquiet ev)
  | _ => rfl

omit [DecidableEq T] in
theorem delivered_snoc_event (ev : Event) (key : Key) (after : List (Action T F)) :
    delivered key (after ++ [.onEvent ev]) =
      delivered key after + if Concerns ev key then 1 else 0 := by
  rw [delivered, delivered, List.countP_append, List.countP_singleton]
  by_cases hconcerns : Concerns ev key <;> simp [hconcerns]

/-- What the maps say about a run: who watches a key is counted, and the version that
a transaction has taken is behind by the events that were delivered since. -/
structure Recorded (apply : F → S → S × R) (cache : S) (s : World T F S R)
    (history : List (Action T F)) : Prop where
  ran : run (step apply) (start cache) history = some s
  tidy : s.co.Tidy
  counted : Counts (fun t => {key | s.Watches t key}) s.co.count
  snapped : ∀ t key snap, (s.watchedOf t).lookup key = some snap →
    ∃ after, AddedBy apply cache history t key after ∧
      s.co.version key = snap + UInt64.ofNat (delivered key after)

theorem recorded_start (apply : F → S → S × R) (cache : S) :
    Recorded apply cache (start cache : World T F S R) [] where
  ran := rfl
  tidy := ⟨fun key hmem => absurd hmem (AList.notMem_empty key),
    fun key hmem => absurd hmem (AList.notMem_empty key)⟩
  counted := counts_zero fun t => by simp [Watches, watchedOf, start]
  snapped := by
    intro t key snap hlookup
    contradiction

omit [DecidableEq T] in
theorem watches_of_lookup {snap : UInt64} (hlookup : (s.watchedOf t).lookup key = some snap) :
    s.Watches t key :=
  AList.lookup_isSome.mp (Option.isSome_iff_exists.mpr ⟨snap, hlookup⟩)

theorem Recorded.snapped_snoc (hrecorded : Recorded apply cache s history) {snap : UInt64}
    (hstep : s.step apply a = some next) (hquiet : ∀ ev, a ≠ .onEvent ev)
    (hlookup : (s.watchedOf t).lookup key = some snap) (hwatches : next.Watches t key)
    (hversion : next.co.version key = s.co.version key) :
    ∃ after, AddedBy apply cache (history ++ [a]) t key after ∧
      next.co.version key = snap + UInt64.ofNat (delivered key after) := by
  obtain ⟨after, hadded, hbehind⟩ := hrecorded.snapped t key snap hlookup
  have hrun := run_snoc hrecorded.ran hstep
  refine ⟨after ++ [a], hadded.snoc hrun hwatches, ?_⟩
  rw [hversion, hbehind, delivered_snoc_quiet hquiet]

theorem Recorded.registers {keys : List Key} {tx : Tx F}
    (hrecorded : Recorded apply cache s history)
    (hstep : s.step apply (.watch t keys) = some next) (htx : s.txs t = some tx)
    (hco : next.co = (s.co.watch tx keys).1)
    (hwatched : next.watchedOf =
      Function.update s.watchedOf t (s.co.watch tx keys).2.watched) :
    Recorded apply cache next (history ++ [.watch t keys]) := by
  obtain ⟨htidy, hversions, hspec⟩ := Coordinator.foldl_watchKey_spec keys (s.co, tx) hrecorded.tidy
  have htx' := watchedOf_of_tx htx
  have hversion : ∀ key, next.co.version key = s.co.version key := by
    intro key
    rw [hco]
    exact Coordinator.version_congr hversions key
  refine ⟨run_snoc hrecorded.ran hstep, by rw [hco]; exact htidy, ?_, ?_⟩
  · have hheld : (fun u => {key | next.Watches u key}) =
        Function.update (fun u => {key | s.Watches u key}) t
          {key | key ∈ (s.co.watch tx keys).2.watched} := held_update hwatched
    have hbefore : ∀ key, s.Watches t key ↔ key ∈ tx.watched := by
      intro key
      rw [Watches, htx']
    rw [hheld, hco]
    apply hrecorded.counted.take
    intro key
    have hcases := (hspec key).mem_cases
    rwa [← hbefore] at hcases
  · intro u key snap hlookup
    have hwatches := watches_of_lookup hlookup
    rw [hwatched] at hlookup
    by_cases hu : u = t
    · subst hu
      rw [Function.update_self] at hlookup
      rcases hspec key with ⟨hsame, -⟩ | ⟨habsent, hnew, -⟩
      · have hold : (s.watchedOf u).lookup key = some snap := by
          rw [htx']
          exact hsame.symm.trans hlookup
        exact hrecorded.snapped_snoc hstep nofun hold hwatches (hversion key)
      · have hfresh : ¬ s.Watches u key := by
          rw [Watches, htx']
          exact AList.lookup_eq_none.mp habsent
        refine ⟨[], addedBy_watch hrecorded.ran hfresh hstep hwatches, ?_⟩
        have hsnap : s.co.version key = snap := Option.some.inj (hnew.symm.trans hlookup)
        rw [hversion, hsnap]
        simp [delivered]
    · rw [Function.update_of_ne hu] at hlookup
      exact hrecorded.snapped_snoc hstep nofun hlookup hwatches (hversion key)

theorem Recorded.releases {tx : Tx F} (hrecorded : Recorded apply cache s history)
    (hstep : s.step apply a = some next) (htx : s.txs t = some tx)
    (hco : next.co = s.co.release tx)
    (hwatched : next.watchedOf = Function.update s.watchedOf t ∅)
    (hquiet : ∀ ev, a ≠ .onEvent ev) : Recorded apply cache next (history ++ [a]) := by
  obtain ⟨htidy, hcount, hversion⟩ :=
    Coordinator.release_spec tx.watched.keys_nodup s.co hrecorded.tidy
  have htx' := watchedOf_of_tx htx
  refine ⟨run_snoc hrecorded.ran hstep, by rw [hco]; exact htidy, ?_, ?_⟩
  · have hempty : {key | key ∈ (∅ : AList fun _ : Key => UInt64)} = ∅ :=
      Set.eq_empty_of_forall_notMem AList.notMem_empty
    have hheld : (fun u => {key | next.Watches u key}) =
        Function.update (fun u => {key | s.Watches u key}) t ∅ := by
      rw [held_update hwatched, hempty]
    have hbefore : ∀ key, s.Watches t key ↔ key ∈ tx.watched.keys := by
      intro key
      rw [Watches, htx']
      rfl
    rw [hheld, hco]
    apply hrecorded.counted.clear
    · intro key hold
      exact (hcount key).trans (if_pos ((hbefore key).mp hold))
    · intro key hold
      exact (hcount key).trans (if_neg fun hmem => hold ((hbefore key).mpr hmem))
  · intro u key snap hlookup
    have hwatches := watches_of_lookup hlookup
    rw [hwatched] at hlookup
    by_cases hu : u = t
    · subst hu
      rw [Function.update_self] at hlookup
      contradiction
    · rw [Function.update_of_ne hu] at hlookup
      refine hrecorded.snapped_snoc hstep hquiet hlookup hwatches ?_
      rw [hco]
      refine (hversion key).trans (if_neg ?_)
      rintro ⟨hmem, hone⟩
      have ht : s.Watches t key := by
        rw [Watches, htx']
        exact hmem
      exact hrecorded.counted.ne_one ht (watches_of_lookup hlookup) hu hone

theorem Recorded.delivers {ev : Event} (hrecorded : Recorded apply cache s history)
    (hstep : s.step apply (.onEvent ev) = some next) (hco : next.co = s.co.onEvent ev)
    (hwatched : next.watchedOf = s.watchedOf) :
    Recorded apply cache next (history ++ [.onEvent ev]) := by
  have hrun := run_snoc hrecorded.ran hstep
  have hsame : ∀ t key, next.Watches t key ↔ s.Watches t key := by
    intro t key
    rw [Watches, Watches, hwatched]
  refine ⟨hrun, by rw [hco]; exact hrecorded.tidy.onEvent ev, ?_, ?_⟩
  · have hcount : next.co.count = s.co.count := by
      funext key
      rw [hco, Coordinator.count_onEvent]
    simpa only [hsame, hcount] using hrecorded.counted
  · intro t key snap hlookup
    have hwatches := watches_of_lookup hlookup
    rw [hwatched] at hlookup
    obtain ⟨after, hadded, hbehind⟩ := hrecorded.snapped t key snap hlookup
    refine ⟨after ++ [.onEvent ev], hadded.snoc hrun hwatches, ?_⟩
    have hpos := (hrecorded.counted.pos_iff key).mpr ⟨t, (hsame t key).mp hwatches⟩
    rw [hco, Coordinator.version_onEvent hrecorded.tidy, hbehind, delivered_snoc_event]
    simp only [hpos, true_and]
    split_ifs with hconcerns
    · rw [UInt64.ofNat_add, UInt64.add_assoc]
      rfl
    · rw [Nat.add_zero]

theorem Recorded.step (hrecorded : Recorded apply cache s history)
    (hstep : s.step apply a = some next) : Recorded apply cache next (history ++ [a]) := by
  cases step_shape hstep with
  | keeps hco hwatched hquiet =>
      refine ⟨run_snoc hrecorded.ran hstep, by rw [hco]; exact hrecorded.tidy, ?_, ?_⟩
      · rw [hco]
        simpa only [Watches, hwatched] using hrecorded.counted
      · intro t key snap hlookup
        have hwatches := watches_of_lookup hlookup
        rw [hwatched] at hlookup
        exact hrecorded.snapped_snoc hstep hquiet hlookup hwatches (by rw [hco])
  | registers t keys tx ha htx hco hwatched =>
      subst ha
      exact hrecorded.registers hstep htx hco hwatched
  | releases t tx htx hco hwatched hquiet =>
      exact hrecorded.releases hstep htx hco hwatched hquiet
  | delivers ev ha hco hwatched =>
      subst ha
      exact hrecorded.delivers hstep hco hwatched

theorem recorded_of_run (hrun : run (World.step apply) (start cache) history = some s) :
    Recorded apply cache s history := by
  have hrecorded := run_invariant_history (World.step apply) (I := Recorded apply cache)
    (fun s earlier a next hs hstep => hs.step hstep) (recorded_start apply cache) hrun
  rwa [List.nil_append] at hrecorded

/-! ## The comparison -/

theorem add_ofNat_eq_self_iff (snap : UInt64) (n : ℕ) :
    snap + UInt64.ofNat n = snap ↔ 2 ^ 64 ∣ n := by
  have hzero : snap + UInt64.ofNat n = snap ↔ UInt64.ofNat n = 0 := by
    constructor
    · intro heq
      have hsub := congrArg (fun x => x - snap) heq
      simpa [UInt64.add_comm snap] using hsub
    · intro heq
      rw [heq, UInt64.add_zero]
  rw [hzero, ← UInt64.toNat_inj, UInt64.toNat_ofNat']
  exact (Nat.dvd_iff_mod_eq_zero).symm

theorem Recorded.unchanged_iff {tx : Tx F} (hrecorded : Recorded apply cache s history)
    (htx : s.txs t = some tx) :
    s.co.Unchanged tx ↔ ∀ key after, s.Watches t key →
      AddedBy apply cache history t key after → 2 ^ 64 ∣ delivered key after := by
  have htx' := watchedOf_of_tx htx
  constructor
  · intro hunchanged key after hwatches hadded
    obtain ⟨snap, hlookup⟩ := Option.isSome_iff_exists.mp (AList.lookup_isSome.mpr hwatches)
    obtain ⟨after', hadded', hbehind⟩ := hrecorded.snapped t key snap hlookup
    rw [htx'] at hlookup
    have hentry := hunchanged ⟨key, snap⟩ (AList.mem_lookup_iff.mp hlookup)
    rw [hadded.unique hadded', ← add_ofNat_eq_self_iff snap, ← hbehind]
    exact hentry
  · intro hmultiple entry hmem
    obtain ⟨key, snap⟩ := entry
    have hlookup : (s.watchedOf t).lookup key = some snap := by
      rw [htx']
      exact AList.mem_lookup_iff.mpr hmem
    obtain ⟨after, hadded, hbehind⟩ := hrecorded.snapped t key snap hlookup
    have hdvd := hmultiple key after (watches_of_lookup hlookup) hadded
    exact hbehind.trans ((add_ofNat_eq_self_iff snap _).mpr hdvd)

theorem phase_of_busy (hstep : s.step apply a = some next) (hbusy : s.phase t ≠ .idle)
    (hfinish : a ≠ .finish t) :
    next.phase t = s.phase t ∨ ∃ todo results todo' results',
      s.phase t = .running todo results ∧ next.phase t = .running todo' results' := by
  by_cases hown : a.tx = some t
  · cases step_effect hstep with
    | began other hnone hnext =>
        subst hnext
        exact Or.inl rfl
    | refused a hrefused hnext =>
        subst hnext
        exact Or.inl rfl
    | watched other keys tx htx hmulti hnext =>
        cases hown
        exact absurd (idleTx_eq_some.mp htx).1 hbusy
    | entered other tx htx hmulti hnext =>
        cases hown
        exact absurd (idleTx_eq_some.mp htx).1 hbusy
    | queued other cmd tx htx hmulti hnext =>
        cases hown
        exact absurd (idleTx_eq_some.mp htx).1 hbusy
    | discarded other tx htx hnext =>
        cases hown
        exact absurd (idleTx_eq_some.mp htx).1 hbusy
    | compared other tx htx hmulti hnext =>
        cases hown
        exact absurd (idleTx_eq_some.mp htx).1 hbusy
    | called other cmd todo results hphase hnext =>
        cases hown
        subst hnext
        exact Or.inr ⟨_, _, _, _, hphase, by simp; exact ⟨rfl, rfl⟩⟩
    | succeeded other tx results htx hphase hnext =>
        cases hown
        exact absurd rfl hfinish
    | aborted other tx htx hphase hnext =>
        cases hown
        exact absurd rfl hfinish
    | delivered ev hnext => contradiction
  · exact Or.inl (same_of_other hstep hown).1

theorem answer_of_exec {last : World T F S R} {tx : Tx F} {middle : List (Action T F)}
    {answer : Answer R} (htx : s.txs t = some tx) (hmulti : tx.inMulti = true)
    (hexec : s.step apply (.exec t) = some next)
    (hmiddle : run (step apply) next middle = some last) (hopen : .finish t ∉ middle)
    (hanswer : last.answer (.finish t) = some answer) :
    answer = .errAborted ↔ ¬ s.co.Unchanged tx := by
  have hcompared : next.phase t =
      if s.co.Unchanged tx then .running tx.queued [] else .aborting := by
    cases step_effect hexec with
    | refused a hrefused hnext =>
        exfalso
        simp only [World.answer] at hrefused
        cases hidle : s.idleTx t with
        | none => simp [hidle] at hrefused
        | some tx' =>
            obtain ⟨-, htx'⟩ := idleTx_eq_some.mp hidle
            rw [htx] at htx'
            cases htx'
            simp [hidle, hmulti] at hrefused
    | compared t tx' htx' hmulti' hnext =>
        obtain ⟨-, htx'⟩ := idleTx_eq_some.mp htx'
        rw [htx] at htx'
        cases htx'
        subst hnext
        simp
  have hkept : (next.phase t = .aborting → last.phase t = .aborting) ∧
      ((∃ todo results, next.phase t = .running todo results) →
        ∃ todo results, last.phase t = .running todo results) := by
    have hquiet : Along (step apply) (fun _ a => a ≠ .finish t) next middle := by
      rw [along_iff_forall_split]
      intro first a rest hsplit middle' _
      have hmem : a ∈ middle := by simp [hsplit]
      exact fun heq => hopen (heq ▸ hmem)
    constructor
    · intro haborting
      refine run_invariant_along (step apply) (I := fun s => s.phase t = .aborting) ?_ haborting
        hquiet hmiddle
      intro s a next hphase hfinish hstep
      rcases phase_of_busy hstep (by simp [hphase]) hfinish with hsame | hrunning
      · rw [hsame, hphase]
      · obtain ⟨todo, results, todo', results', hrunning, -⟩ := hrunning
        rw [hphase] at hrunning
        contradiction
    · intro hrunning
      refine run_invariant_along (step apply)
        (I := fun s => ∃ todo results, s.phase t = .running todo results) ?_ hrunning hquiet hmiddle
      rintro s a next ⟨todo, results, hphase⟩ hfinish hstep
      rcases phase_of_busy hstep (by simp [hphase]) hfinish with hsame | hmoved
      · exact ⟨todo, results, by rw [hsame, hphase]⟩
      · obtain ⟨-, -, todo', results', -, hnext⟩ := hmoved
        exact ⟨todo', results', hnext⟩
  by_cases hunchanged : s.co.Unchanged tx
  · rw [if_pos hunchanged] at hcompared
    obtain ⟨todo, results, hlast⟩ := hkept.2 ⟨_, _, hcompared⟩
    rw [World.answer, hlast] at hanswer
    cases todo with
    | nil =>
        cases hanswer
        simp [hunchanged]
    | cons cmd todo => contradiction
  · rw [if_neg hunchanged] at hcompared
    have hlast := hkept.1 hcompared
    rw [World.answer, hlast] at hanswer
    cases hanswer
    simp [hunchanged]

/-- An `Exec` inside of `MULTI` returns `ErrAborted` exactly if for some key that it
watches the number of the events delivered since the `Watch` that added it is no
multiple of `2 ^ 64`; and the maps hold only keys that some transaction watches. -/
theorem version_check_exact (hrun : run (step apply) (start cache) history = some s) :
    (∀ t tx next middle last answer, s.txs t = some tx → tx.inMulti = true →
        s.step apply (.exec t) = some next → run (step apply) next middle = some last →
        .finish t ∉ middle → last.answer (.finish t) = some answer →
        (answer = .errAborted ↔ ∃ key after, s.Watches t key ∧
          AddedBy apply cache history t key after ∧ ¬ 2 ^ 64 ∣ delivered key after)) ∧
      ∀ key, key ∈ s.co.versions ∨ key ∈ s.co.watchers → ∃ t, s.Watches t key := by
  have hrecorded := recorded_of_run hrun
  constructor
  · intro t tx next middle last answer htx hmulti hexec hmiddle hopen hanswer
    rw [answer_of_exec htx hmulti hexec hmiddle hopen hanswer, hrecorded.unchanged_iff htx]
    push Not
    rfl
  · intro key hmem
    have hpos : 0 < s.co.count key := by
      rcases hmem with hversions | hwatchers
      · exact hrecorded.tidy.versions key hversions
      · exact hrecorded.tidy.watchers key hwatchers
    exact (hrecorded.counted.pos_iff key).mp hpos

/-- A watched key is set before `Exec`. -/
theorem version_check_exact_set :
    ∃ s : World Unit Unit Unit Unit,
      run (step fun _ s => (s, ())) (start ())
          [.begin (), .watch () [[107]], .multi (), .onEvent (.set [107] [1] 0)] = some s ∧
        ∃ (key : Key) (after : List (Action Unit Unit)), s.Watches () key ∧
          AddedBy (R := Unit) (fun _ s => (s, ())) ()
            [.begin (), .watch () [[107]], .multi (), .onEvent (.set [107] [1] 0)] () key after ∧
          ¬ 2 ^ 64 ∣ delivered key after := by
  have hrun : run (step fun _ s => (s, ())) (start (F := Unit) (R := Unit) ())
      [.begin (), .watch () [[107]], .multi (), .onEvent (.set [107] [1] 0)] = some _ := rfl
  refine ⟨_, hrun, ?_⟩
  exact ((version_check_exact hrun).1 () _ _ [] _ .errAborted rfl rfl rfl rfl
    List.not_mem_nil rfl).mp rfl

theorem run_events (ev : Event) (n : ℕ) (s : World T F S R) :
    run (step apply) s (List.replicate n (.onEvent ev)) =
      some { s with co := (fun co => co.onEvent ev)^[n] s.co } := by
  induction n generalizing s with
  | zero => rfl
  | succ n ih =>
      rw [List.replicate_succ, run_cons, Function.iterate_succ_apply]
      exact ih { s with co := s.co.onEvent ev }

omit [DecidableEq T] in
theorem version_iterate {co : Coordinator} {ev : Event} (htidy : co.Tidy)
    (hpos : 0 < co.count key) (hconcerns : Concerns ev key) (n : ℕ) :
    ((fun co => co.onEvent ev)^[n] co).version key = co.version key + UInt64.ofNat n := by
  induction n generalizing co with
  | zero => simp
  | succ n ih =>
      have hpos' : 0 < (co.onEvent ev).count key := by
        rwa [Coordinator.count_onEvent]
      rw [Function.iterate_succ_apply, ih (htidy.onEvent ev) hpos',
        Coordinator.version_onEvent htidy, if_pos ⟨hpos, hconcerns⟩, Nat.add_comm,
        UInt64.ofNat_add, UInt64.add_assoc]
      rfl

theorem unnoticed_of_dvd {n : ℕ} (hdvd : 2 ^ 64 ∣ n) :
    ∃ s next : World Unit Unit Unit Unit,
      run (step fun _ s => (s, ())) (start ()) ([.begin (), .watch () [[107]], .multi ()] ++
          List.replicate n (.onEvent (.set [107] [1] 0))) = some s ∧
        s.step (fun _ s => (s, ())) (.exec ()) = some next ∧
        next.answer (.finish ()) = some (.results []) := by
  obtain ⟨s, hs, htx, hphase, hfree, hpos, hversion⟩ : ∃ s : World Unit Unit Unit Unit,
      run (step fun _ s => (s, ())) (start ()) [.begin (), .watch () [[107]], .multi ()] = some s ∧
        s.txs () = some ⟨AList.singleton [107] 0, [], true⟩ ∧ s.phase () = .idle ∧
        s.execMu = none ∧ 0 < s.co.count [107] ∧ s.co.version [107] = 0 :=
    ⟨_, rfl, rfl, rfl, rfl, by decide, rfl⟩
  have hconcerns : Concerns (.set [107] [1] 0) [107] := by decide
  have hzero : (0 : UInt64) + UInt64.ofNat n = 0 := (add_ofNat_eq_self_iff 0 n).mpr hdvd
  have hunchanged : ((fun co => co.onEvent (.set [107] [1] 0))^[n] s.co).Unchanged
      (⟨AList.singleton [107] 0, [], true⟩ : Tx Unit) := by
    intro entry hmem
    have htidy := (recorded_of_run hs).tidy
    rw [List.mem_singleton.mp hmem, version_iterate htidy hpos hconcerns, hversion, hzero]
  have hrun : run (step fun _ s => (s, ())) s
      (List.replicate n (.onEvent (.set [107] [1] 0))) = some _ := run_events _ n s
  have hidle : idleTx { s with co := (fun co => co.onEvent (.set [107] [1] 0))^[n] s.co } () =
      some ⟨AList.singleton [107] 0, [], true⟩ := idleTx_eq_some.mpr ⟨hphase, htx⟩
  have hexec : step (fun _ s => (s, ()))
      { s with co := (fun co => co.onEvent (.set [107] [1] 0))^[n] s.co } (.exec ()) =
      some (setPhase { s with
        co := (fun co => co.onEvent (.set [107] [1] 0))^[n] s.co, execMu := some () } ()
        (.running [] [])) := by
    rw [step, exec, hidle]
    simp [hfree, hunchanged]
  exact ⟨_, _, (run_append_eq_some _).mpr ⟨s, hs, hrun⟩, hexec, by simp [answer]⟩

/-- `2 ^ 64` events bring the version of a watched key back to where it was. -/
theorem wrapped_version_unnoticed :
    ∃ s next : World Unit Unit Unit Unit,
      run (step fun _ s => (s, ())) (start ()) ([.begin (), .watch () [[107]], .multi ()] ++
          List.replicate (2 ^ 64) (.onEvent (.set [107] [1] 0))) = some s ∧
        s.step (fun _ s => (s, ())) (.exec ()) = some next ∧
        next.answer (.finish ()) = some (.results []) :=
  unnoticed_of_dvd (dvd_refl (2 ^ 64))

end World

end TxnCalls
end DistCache
