import DistCache.BoundedChannel
import DistCache.EventDispatch

/-!
# The channel of the events

An operation on a shard holds the lock of the shard until all of its events are in the
bounded channel, and meanwhile operations on other shards go on: the events of operations
that overlap are mixed.  A caller of `Sync` puts a barrier into the channel and waits until
it is acknowledged.  `Close` marks the cache as closed and then gives the signal that ends
all waiting.

The shards are changed at the beginning of an operation here; nobody sees a shard whose
lock is held.
-/

namespace DistCache
namespace EventQueue

open BoundedChannel DeadlineStore Engine Transition

variable {L : Layout} {n : ℕ} {cap : ℕ}

/-! ## The cache and its channel -/

def eventBuffer (size : ℤ) : ℕ := if size ≤ 0 then 4096 else size.toNat

theorem eventBuffer_pos (size : ℤ) : 0 < eventBuffer size := by
  unfold eventBuffer
  split_ifs
  · decide
  · omega

/-- The operations on the shards, and the callers of `Sync`. -/
abbrev Sender (L : Layout) (n : ℕ) := Fin L.shards ⊕ Fin n

structure State (L : Layout) (n : ℕ) where
  cache : Cache L
  channel : Channel (Sender L n) Msg

def State.start (c : Cache L) : State L n := ⟨c, .open_⟩

inductive Action (L : Layout) (n : ℕ) where
  | op (st : Step L)
  | sync (caller : Fin n) (ticket : ℕ)
  | go (move : Move (Sender L n) Msg)

/-- An operation begins when the lock of its shard is free.  A `Sync` ends, after its
barrier has gone into the channel, when the dispatcher has taken it or `Close` has given
its signal. -/
def step (cap : ℕ) (s : State L n) : Action L n → Option (State L n)
  | .op st =>
      let r := s.cache.exec st
      (s.channel.step Sum.isRight cap (.begin_ (.inl st.op.shard) (r.2.1.map .event))).map
        fun channel => ⟨r.1, channel⟩
  | .sync caller ticket =>
      (s.channel.step Sum.isRight cap (.begin_ (.inr caller) [.ack ticket])).map fun channel =>
        { s with channel := channel }
  | .go move =>
      if move.begins then none
      else (s.channel.step Sum.isRight cap move).map fun channel => { s with channel := channel }

def stream (xs : List (Sender L n × Msg)) : List Event := eventsOf (xs.map Prod.snd)

def operating (key : Key) : Sender L n := .inl (L.index key)

/-! ## Whose events are in the channel -/

/-- The events of an operation are about keys of its shard, and a caller of `Sync`
has none. -/
def Sends : Sender L n → Msg → Prop
  | .inl i, .event ev => ∀ mutation ∈ mutations [ev], ∀ key, mutation.Touches key → L.index key = i
  | .inl _, .ack _ => False
  | .inr _, .event _ => False
  | .inr _, .ack _ => True

theorem sends_exec {c : Cache L} (hplaced : c.Placed) {st : Step L} (hop : ¬ st.op.IsFlush) :
    ∀ msg ∈ ((c.exec st).2.1.map .event), Sends (n := n) (.inl st.op.shard) msg := by
  intro msg hmsg
  obtain ⟨ev, hev, rfl⟩ := List.mem_map.mp hmsg
  have hexplained := KeyOp.explained_run st.clock hop (hplaced st.op.shard)
  intro mutation hmutation key htouches
  apply hexplained.touches mutation _ key htouches
  obtain ⟨other, hother, hsome⟩ := List.mem_filterMap.mp hmutation
  rw [List.mem_singleton.mp hother] at hsome
  exact List.mem_filterMap.mpr ⟨ev, hev, hsome⟩

theorem inr_ne_operating (caller : Fin n) (key : Key) :
    (Sum.inr caller : Sender L n) ≠ operating key :=
  Sum.inr_ne_inl

theorem stream_append (first second : List (Sender L n × Msg)) :
    stream (first ++ second) = stream first ++ stream second := by
  simp [stream]

theorem replay_stream {xs : List (Sender L n × Msg)} (hsends : ∀ x ∈ xs, Sends x.1 x.2)
    (key : Key) (store : Contents) :
    replay (mutations (stream xs)) store key =
      replay (mutations (eventsOf (Channel.ofSender (operating key) xs))) store key := by
  induction xs generalizing store with
  | nil => rfl
  | cons x rest ih =>
      have hx := hsends x List.mem_cons_self
      have hrest := ih fun y hy => hsends y (List.mem_cons_of_mem _ hy)
      rw [← List.singleton_append, stream_append, Channel.ofSender_append, eventsOf_append,
        mutations_append, mutations_append, replay_append, replay_append,
        Channel.ofSender_singleton, hrest]
      obtain ⟨sender, msg⟩ := x
      dsimp only at hx ⊢
      cases sender with
      | inl i =>
          cases msg with
          | ack ticket => exact absurd hx id
          | event ev =>
              by_cases hi : i = L.index key
              · have heq : (Sum.inl i : Sender L n) = operating key := congrArg Sum.inl hi
                rw [if_pos heq]
                rfl
              · have hne : (Sum.inl i : Sender L n) ≠ operating key := by
                  intro h
                  exact hi (Sum.inl.inj h)
                rw [if_neg hne]
                apply replay_congr_key
                apply replay_of_not_touches
                intro mutation hmutation htouches
                exact hi (hx mutation hmutation key htouches).symm
      | inr caller =>
          cases msg with
          | event ev => exact absurd hx id
          | ack ticket =>
              rw [if_neg (inr_ne_operating caller key)]
              rfl

/-! ## The invariant -/

def SingleKey : Action L n → Prop
  | .op st => ¬ st.op.IsFlush
  | _ => True

/-- As long as the cache is open, what it holds for a key is what the events from the
shard of the key say, those that are still to be sent included. -/
structure Told (s : State L n) : Prop where
  placed : s.cache.Placed
  regular : s.channel.Regular
  sends : s.channel.closed = false → ∀ i, ∀ msg ∈ Channel.ofSender i s.channel.sent ++
    s.channel.left i, Sends i msg
  contents : s.channel.closed = false → ∀ key, s.cache.contents key =
    replay (mutations (eventsOf (Channel.ofSender (operating key) s.channel.sent ++
      s.channel.left (operating key)))) (fun _ => none) key

variable {s next : State L n} {action : Action L n}

theorem told_start {c : Cache L} (hplaced : c.Placed) (hempty : c.contents = fun _ => none) :
    Told (State.start c : State L n) where
  placed := hplaced
  regular := Channel.regular_open
  sends := fun _ _ _ hmsg => absurd hmsg List.not_mem_nil
  contents := fun _ key => congrFun hempty key

theorem Told.become {move : Move (Sender L n) Msg} {c : Cache L}
    {channel : Channel (Sender L n) Msg} (htold : Told s)
    (hchannel : s.channel.step Sum.isRight cap move = some channel) (hplaced : c.Placed)
    (hsends : ∀ i, ∀ msg ∈ Channel.given i move, Sends i msg)
    (hgiven : ∀ key, c.contents key =
      replay (mutations (eventsOf (Channel.given (operating key : Sender L n) move)))
        s.cache.contents key) :
    Told (⟨c, channel⟩ : State L n) := by
  refine ⟨hplaced, htold.regular.step hchannel, ?_, ?_⟩
  · intro hopen i msg hmsg
    rw [Channel.conserved_step htold.regular hchannel hopen i] at hmsg
    rcases List.mem_append.mp hmsg with hold | hnew
    · exact htold.sends (Channel.closed_of_step hchannel hopen) i msg hold
    · exact hsends i msg hnew
  · intro hopen key
    have hcontents := htold.contents (Channel.closed_of_step hchannel hopen) key
    dsimp only
    rw [Channel.conserved_step htold.regular hchannel hopen (operating key), eventsOf_append,
      mutations_append, replay_append, hgiven key]
    exact replay_congr_key _ hcontents

theorem Told.op {st : Step L} (htold : Told s) (hop : ¬ st.op.IsFlush)
    (hstep : step cap s (.op st) = some next) : Told next := by
  obtain ⟨channel, hchannel, rfl⟩ := Option.map_eq_some_iff.mp hstep
  apply htold.become hchannel (Cache.placed_exec htold.placed st)
  · intro i msg hmsg
    simp only [Channel.given] at hmsg
    split_ifs at hmsg with hi
    · rw [← hi]
      exact sends_exec htold.placed hop msg hmsg
    · exact absurd hmsg List.not_mem_nil
  · intro key
    rw [Cache.contents_exec htold.placed hop]
    simp only [Channel.given]
    split_ifs with hi
    · rw [eventsOf_map_event]
    · rw [replay_of_not_touches]
      · rfl
      · intro mutation hmutation htouches
        have hexplained := KeyOp.explained_run st.clock hop (htold.placed st.op.shard)
        exact hi (congrArg Sum.inl (hexplained.touches mutation hmutation key htouches).symm)

theorem Told.step (htold : Told s) (hsingle : SingleKey action)
    (hstep : step cap s action = some next) : Told next := by
  cases action with
  | op st => exact htold.op hsingle hstep
  | sync caller ticket =>
      obtain ⟨channel, hchannel, rfl⟩ := Option.map_eq_some_iff.mp hstep
      apply htold.become hchannel htold.placed
      · intro i msg hmsg
        simp only [Channel.given] at hmsg
        split_ifs at hmsg with hi
        · rw [← hi, List.mem_singleton.mp hmsg]
          trivial
        · exact absurd hmsg List.not_mem_nil
      · intro key
        simp only [Channel.given]
        rw [if_neg (inr_ne_operating caller key)]
        rfl
  | go move =>
      simp only [EventQueue.step] at hstep
      split_ifs at hstep with hbegins
      obtain ⟨channel, hchannel, rfl⟩ := Option.map_eq_some_iff.mp hstep
      have hgiven := fun i => Channel.given_of_not_begins i (Bool.eq_false_of_not_eq_true hbegins)
      apply htold.become hchannel htold.placed
      · intro i msg hmsg
        rw [hgiven i] at hmsg
        exact absurd hmsg List.not_mem_nil
      · intro key
        rw [hgiven (operating key)]
        rfl

theorem told_run {actions : List (Action L n)} {final : State L n} (htold : Told s)
    (hsingle : ∀ action ∈ actions, SingleKey action)
    (hrun : run (step cap) s actions = some final) : Told final :=
  run_invariant_along (step cap) (P := fun _ => SingleKey) (I := Told)
    (fun _ _ _ h hsingle hstep => h.step hsingle hstep) htold
    (along_of_forall_mem _ hsingle s) hrun

/-! ## What the channel tells -/

variable {final : State L n}

theorem Told.sent (htold : Told s) (hopen : s.channel.closed = false) (key : Key) :
    s.cache.contents key =
      replay (mutations (stream s.channel.sent ++ eventsOf (s.channel.left (operating key))))
        (fun _ => none) key := by
  rw [htold.contents hopen key, eventsOf_append, mutations_append, mutations_append,
    replay_append, replay_append]
  refine replay_congr_key _ (replay_stream ?_ key _).symm
  intro x hx
  exact htold.sends hopen x.1 x.2 (List.mem_append_left _ (Channel.mem_ofSender hx))

theorem Told.idle {key : Key} (htold : Told s) (hopen : s.channel.closed = false)
    (hjob : s.channel.jobs (operating key) = none) :
    s.cache.contents key =
      replay (mutations (stream s.channel.sent)) (fun _ => none) key := by
  have hleft : s.channel.left (operating key) = [] := by
    rw [Channel.left, hjob]
    rfl
  rw [htold.sent hopen key, hleft, eventsOf, List.filterMap_nil, List.append_nil]

theorem told_of_start {cfg : Config} {hash : Key → ℕ} {rng : ℕ → ℕ → ℕ}
    {actions : List (Action (cfg.layout hash) n)} {s : State (cfg.layout hash) n}
    (hsingle : ∀ action ∈ actions, SingleKey action)
    (hrun : run (step cap) (State.start (Cache.new cfg hash rng)) actions = some s) : Told s :=
  told_run (told_start (Cache.placed_new cfg hash rng) (Cache.contents_new cfg hash rng))
    hsingle hrun

/-- At every moment before `Close` a key has the value that the events in the order of
the channel give it, followed by those that the operation on its shard has still to
send.  When nothing is left to do the subscribers have all of it. -/
theorem contents_told_by_channel {cfg : Config} {hash : Key → ℕ} {rng : ℕ → ℕ → ℕ}
    {actions : List (Action (cfg.layout hash) n)} {s : State (cfg.layout hash) n}
    (hsingle : ∀ action ∈ actions, SingleKey action)
    (hrun : run (step cap) (State.start (Cache.new cfg hash rng)) actions = some s)
    (hopen : s.channel.closed = false) :
    (∀ key, s.cache.contents key =
      replay (mutations (stream s.channel.sent ++ eventsOf (s.channel.left (operating key))))
        (fun _ => none) key) ∧
    (s.channel.Settled → ∀ shards policy hash' rng',
      ((Cache.unlimited shards policy hash' rng').applyEvents (stream s.channel.handled)).contents =
        s.cache.contents) := by
  have htold := told_of_start hsingle hrun
  refine ⟨htold.sent hopen, ?_⟩
  intro hsettled shards policy hash' rng'
  funext key
  rw [Cache.contents_unlimited_applyEvents, htold.idle hopen (hsettled.jobs _),
    hsettled.handled_eq (htold.regular.not_stopped hopen)]

abbrev twoShards : Layout := Config.layout ⟨2, 0, 0, .lru⟩ List.length

def twoShardStart : State twoShards 1 :=
  State.start (Cache.new ⟨2, 0, 0, .lru⟩ List.length fun _ _ => 0)

def storing : List (Action twoShards 1) :=
  [.op ⟨unread, .setTTL [107] [49] 0⟩, .op ⟨unread, .setTTL [] [50] 0⟩,
    .go (.check (operating [107])), .go (.check (operating [])), .go (.send (operating [])),
    .sync 0 0, .go (.check (.inr 0)), .go (.finish (operating [])), .go .take, .go .handle,
    .go (.send (operating [107])), .go (.finish (operating [107]))]

def settling : List (Move (Sender twoShards 1) Msg) :=
  [.take, .send (.inr 0), .handle, .take, .handle, .finish (.inr 0)]

theorem singleKey_storing : ∀ action ∈ storing ++ settling.map .go, SingleKey action := by
  simp [storing, settling, SingleKey, KeyOp.IsFlush]

theorem closed_storing :
    ∀ s ∈ run (step 1) twoShardStart storing, s.channel.closed = false := by
  decide +kernel

theorem settled_storing : ∀ s ∈ run (step 1) twoShardStart (storing ++ settling.map .go),
    s.channel.closed = false ∧ s.channel.Settled := by
  have hconcrete : ∀ s ∈ run (step 1) twoShardStart (storing ++ settling.map .go),
      s.channel.closed = false ∧ (∀ i, (s.channel.jobs i).isNone) ∧ s.channel.holding.isNone ∧
        s.channel.buffer.isEmpty ∧ s.channel.signalled = false := by
    decide +kernel
  intro s hs
  obtain ⟨hopen, hjobs, hholding, hbuffer, hsignalled⟩ := hconcrete s hs
  simp only [Option.isNone_iff_eq_none, List.isEmpty_iff] at hjobs hholding hbuffer
  exact ⟨hopen, hjobs, hholding, fun _ => hbuffer, by simp [hsignalled]⟩

/-- Two operations that overlap: the later one is the first in the channel. -/
theorem contents_told_by_channel_storing :
    ∃ s, run (step 1) twoShardStart (storing ++ settling.map .go) = some s ∧
      (∀ key, s.cache.contents key =
        replay (mutations (stream s.channel.sent ++ eventsOf (s.channel.left (operating key))))
          (fun _ => none) key) ∧
      ((Cache.unlimited 1 .lru (fun _ => 0) fun _ _ => 0).applyEvents
        (stream s.channel.handled)).contents = s.cache.contents ∧
      stream s.channel.handled = [.set [] [50] 0, .set [107] [49] 0] := by
  have hsome : (run (step 1) twoShardStart (storing ++ settling.map .go)).isSome = true := by
    decide +kernel
  have hstream : ∀ s ∈ run (step 1) twoShardStart (storing ++ settling.map .go),
      stream s.channel.handled = [.set [] [50] 0, .set [107] [49] 0] := by
    decide +kernel
  obtain ⟨s, hs⟩ := Option.isSome_iff_exists.mp hsome
  obtain ⟨hopen, hsettled⟩ := settled_storing s hs
  obtain ⟨htold, hall⟩ := contents_told_by_channel singleKey_storing hs hopen
  exact ⟨s, hs, htold, hall hsettled 1 .lru (fun _ => 0) fun _ _ => 0, hstream s hs⟩

/-! ## The channel by itself -/

theorem channel_step (hstep : step cap s action = some next) :
    ∃ move, s.channel.step Sum.isRight cap move = some next.channel := by
  cases action with
  | op st =>
      obtain ⟨channel, hchannel, rfl⟩ := Option.map_eq_some_iff.mp hstep
      exact ⟨_, hchannel⟩
  | sync caller ticket =>
      obtain ⟨channel, hchannel, rfl⟩ := Option.map_eq_some_iff.mp hstep
      exact ⟨_, hchannel⟩
  | go move =>
      simp only [EventQueue.step] at hstep
      split_ifs at hstep with hbegins
      obtain ⟨channel, hchannel, rfl⟩ := Option.map_eq_some_iff.mp hstep
      exact ⟨move, hchannel⟩

theorem channel_run {actions : List (Action L n)}
    (hrun : run (step cap) s actions = some final) :
    ∃ moves, run (Channel.step Sum.isRight cap) s.channel moves = some final.channel := by
  induction actions generalizing s with
  | nil =>
      cases hrun
      exact ⟨[], rfl⟩
  | cons action rest ih =>
      obtain ⟨next, hnext, hrest⟩ := (run_cons_eq_some _).mp hrun
      obtain ⟨move, hmove⟩ := channel_step hnext
      obtain ⟨moves, hmoves⟩ := ih hrest
      exact ⟨move :: moves, (run_cons_eq_some _).mpr ⟨_, hmove, hmoves⟩⟩

theorem regular_of_start {c : Cache L} {actions : List (Action L n)}
    (hrun : run (step cap) (State.start c) actions = some s) : s.channel.Regular := by
  obtain ⟨moves, hmoves⟩ := channel_run hrun
  exact Channel.regular_open.run hmoves

theorem step_go {move : Move (Sender L n) Msg} (hinternal : move.Internal) :
    step cap s (.go move) =
      (s.channel.step Sum.isRight cap move).map fun channel => { s with channel := channel } := by
  rw [step, hinternal.begins_eq]
  rfl

theorem run_go {moves : List (Move (Sender L n) Msg)} (hinternal : ∀ move ∈ moves, move.Internal)
    (hrun : run (step cap) s (moves.map .go) = some final) :
    run (Channel.step Sum.isRight cap) s.channel moves = some final.channel := by
  induction moves generalizing s with
  | nil =>
      cases hrun
      rfl
  | cons move rest ih =>
      obtain ⟨next, hnext, hrest⟩ := (run_cons_eq_some _).mp hrun
      rw [step_go (hinternal move List.mem_cons_self)] at hnext
      obtain ⟨channel, hchannel, rfl⟩ := Option.map_eq_some_iff.mp hnext
      have hmoves := ih (fun m hm => hinternal m (List.mem_cons_of_mem _ hm)) hrest
      exact (run_cons_eq_some _).mpr ⟨_, hchannel, hmoves⟩

/-! ## Coming to an end -/

/-- Whatever has been called and in whichever order the callers, the dispatcher and
`Close` were going on: if no further call is made, all of them end after a bounded
number of steps, and none is left waiting. -/
theorem calls_come_to_an_end {size : ℤ} {c : Cache L} {actions : List (Action L n)}
    {moves : List (Move (Sender L n) Msg)}
    (hrun : run (step (eventBuffer size)) (State.start c) actions = some s)
    (hinternal : ∀ move ∈ moves, move.Internal)
    (hmoves : run (step (eventBuffer size)) s (moves.map .go) = some final) :
    moves.length ≤ s.channel.work ∧
      ((∀ move : Move (Sender L n) Msg, move.Internal →
        step (eventBuffer size) final (.go move) = none) → final.channel.Settled) := by
  have hchannel := run_go hinternal hmoves
  refine ⟨?_, ?_⟩
  · have hwork := Channel.length_le_work hinternal hchannel
    omega
  intro hstuck
  apply Channel.settled_of_stuck (eventBuffer_pos size) ((regular_of_start hrun).run hchannel)
  intro move hmove
  have hnone := hstuck move hmove
  rw [step_go hmove, Option.map_eq_none_iff] at hnone
  exact hnone

theorem calls_come_to_an_end_storing :
    ∃ s final, run (step (eventBuffer 1)) twoShardStart storing = some s ∧
      run (step (eventBuffer 1)) s (settling.map .go) = some final ∧
      6 ≤ s.channel.work ∧ final.channel.Settled := by
  have hsome : (run (step (eventBuffer 1)) twoShardStart (storing ++ settling.map .go)).isSome =
      true := by
    decide +kernel
  obtain ⟨final, hfinal⟩ := Option.isSome_iff_exists.mp hsome
  obtain ⟨s, hs, hmoves⟩ := (run_append_eq_some _).mp hfinal
  have hinternal : ∀ move ∈ settling, move.Internal := by simp [settling, Move.Internal]
  exact ⟨s, final, hs, hmoves, (calls_come_to_an_end hs hinternal hmoves).1,
    (settled_storing final hfinal).2⟩

/-! ## `Sync` and `Close` -/

/-- When a `Sync` that was called later returns, or the dispatcher has stopped because of
`Close`, the subscribers have all that the cache held at the earlier moment, except for
keys whose shard was in use then. -/
theorem handled_at_sync_or_close {cfg : Config} {hash : Key → ℕ} {rng : ℕ → ℕ → ℕ}
    {before after : List (Action (cfg.layout hash) n)} {s final : State (cfg.layout hash) n}
    (hsingle : ∀ action ∈ before, SingleKey action)
    (hbefore : run (step cap) (State.start (Cache.new cfg hash rng)) before = some s)
    (hopen : s.channel.closed = false)
    (hafter : run (step cap) s after = some final)
    (hdone : final.channel.receiver = .stopped ∨
      ∃ caller ticket, (.inr caller, .ack ticket) ∉ s.channel.sent ∧
        (.inr caller, .ack ticket) ∈ final.channel.handled) :
    ∃ first rest, stream final.channel.handled = first ++ rest ∧
      ∀ key, s.channel.jobs (operating key) = none →
        s.cache.contents key = replay (mutations first) (fun _ => none) key := by
  have htold := told_of_start hsingle hbefore
  obtain ⟨moves, hmoves⟩ := channel_run hafter
  have hhandled : s.channel.sent <+: final.channel.handled := by
    rcases hdone with hstopped | ⟨caller, ticket, hnew, hack⟩
    · exact Channel.sent_prefix_handled_of_stopped htold.regular
        (htold.regular.not_stopped hopen) hmoves hstopped
    · exact Channel.sent_prefix_handled hmoves hnew hack
  obtain ⟨rest, hrest⟩ := hhandled
  refine ⟨stream s.channel.sent, stream rest, ?_, ?_⟩
  · rw [← hrest, stream_append]
  · intro key hjob
    exact htold.idle hopen hjob

/-- The dispatcher stops while the `Sync` still waits for a place. -/
def closing : List (Action twoShards 1) :=
  [.go .close, .go .signal, .go .drain, .go .take, .go .handle, .go .stop]

theorem handled_at_sync_or_close_closing :
    ∃ s final, run (step 1) twoShardStart storing = some s ∧
      run (step 1) s closing = some final ∧
      ∃ first rest, stream final.channel.handled = first ++ rest ∧
        ∀ key, s.channel.jobs (operating key) = none →
          s.cache.contents key = replay (mutations first) (fun _ => none) key := by
  have hsome : ((run (step 1) twoShardStart storing).bind fun s =>
      run (step 1) s closing).isSome = true := by
    decide +kernel
  have hstopped : ∀ final ∈ (run (step 1) twoShardStart storing).bind fun s =>
      run (step 1) s closing, final.channel.receiver = .stopped := by
    decide +kernel
  obtain ⟨final, hfinal⟩ := Option.isSome_iff_exists.mp hsome
  obtain ⟨s, hs, hclosing⟩ := Option.bind_eq_some_iff.mp hfinal
  exact ⟨s, final, hs, hclosing, handled_at_sync_or_close
    (fun action hmem => singleKey_storing action (List.mem_append_left _ hmem)) hs
    (closed_storing s hs) hclosing (Or.inl (hstopped final hfinal))⟩

end EventQueue
end DistCache
