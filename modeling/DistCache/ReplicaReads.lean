import DistCache.EventDispatch
import DistCache.ExpiringMap

/-!
# Reading from a replica

A read or a sweep on a replica that finds an expired entry takes it out on the replica
alone.  This is harmless unless the primary brings the entry back to life: an `OpExpire`
on its way carries a new deadline and no value, and it finds nothing to change.  The two
caches are compared once the events on the link have been applied.
-/

namespace DistCache

open DeadlineStore Eviction Transition

/-! ## Removing what has expired before a log is replayed -/

namespace DeadlineStore

variable {K V T : Type*} [DecidableEq K] {log : List (Mutation K V T)}
  {copy without source : Store K V T} {key : K}

theorem replay_of_isRetime (hretime : (effectOf key log).IsRetime) (habsent : without key = none) :
    replay log without key = none := by
  rw [replay_apply, habsent]
  cases heffect : effectOf key log with
  | retime expireAt => rfl
  | keep => simp [heffect, Effect.IsRetime] at hretime
  | replace entry => simp [heffect, Effect.IsRetime] at hretime

theorem agree_replay_without [Zero T] [LinearOrder T] {now : T}
    (hagree : Agree now (replay log copy key) (source key))
    (habsent : without key = none) (hdead : live now (copy key) = none)
    (hsafe : (effectOf key log).IsRetime → live now (source key) = none) :
    Agree now (replay log without key) (source key) := by
  cases heffect : effectOf key log with
  | keep =>
      rw [replay_apply, heffect, Effect.apply_keep] at hagree ⊢
      rw [habsent]
      exact Or.inr ⟨live_none now, hagree.live_eq ▸ hdead⟩
  | retime expireAt =>
      have hretime : (effectOf key log).IsRetime := by
        rw [heffect]
        trivial
      rw [replay_of_isRetime hretime habsent]
      exact Or.inr ⟨live_none now, hsafe hretime⟩
  | replace entry =>
      rw [replay_apply, heffect] at hagree ⊢
      exact hagree

end DeadlineStore

/-! ## The system -/

namespace ReplicaReads

variable {L R : Layout}

structure State (L R : Layout) where
  primary : Cache L
  link : List Event
  replica : Cache R
  clock : ℤ

inductive Action (L R : Layout) where
  | primary (st : Step L)
  | deliver
  | read (st : Step R)

def State.Ticks (s : State L R) (clock : Clock) : Prop :=
  s.clock ≤ clock.first ∧ clock.first ≤ clock.second

instance (s : State L R) (clock : Clock) : Decidable (s.Ticks clock) :=
  inferInstanceAs (Decidable (_ ∧ _))

/-- `replicate` applies an event as it arrives; the events of the replica's own
removals go nowhere. -/
def step (s : State L R) : Action L R → Option (State L R)
  | .primary st =>
      if ¬ st.op.IsFlush ∧ s.Ticks st.clock then
        some { s with
          primary := (s.primary.exec st).1
          link := s.link ++ (s.primary.exec st).2.1
          clock := st.clock.second }
      else none
  | .deliver =>
      match s.link with
      | [] => none
      | ev :: rest => some { s with link := rest, replica := s.replica.applyEvent ev }
  | .read st =>
      if ¬ st.op.IsWrite ∧ s.Ticks st.clock then
        some { s with replica := (s.replica.exec st).1, clock := st.clock.second }
      else none

/-- The read removes an entry from the replica that is live on the primary, and
what is on the link for it is a new deadline. -/
def Loses (s : State L R) : Action L R → Prop
  | .read st =>
      ∃ ev ∈ (s.replica.exec st).2.1, (effectOf ev.key (mutations s.link)).IsRetime ∧
        live st.clock.second (s.primary.contents ev.key) ≠ none
  | _ => False

instance (s : State L R) (a : Action L R) : Decidable (Loses s a) :=
  match a with
  | .read _ => inferInstanceAs (Decidable (∃ ev ∈ _, _))
  | .primary _ => inferInstanceAs (Decidable False)
  | .deliver => inferInstanceAs (Decidable False)

/-- What is live in the replica is what is live in the primary. -/
def State.SameEntries (s : State L R) : Prop :=
  ∀ key, live s.clock (s.replica.contents key) = live s.clock (s.primary.contents key)

/-! ## One step -/

theorem primary_eq_some {s next : State L R} {st : Step L}
    (hstep : step s (.primary st) = some next) :
    (¬ st.op.IsFlush ∧ s.clock ≤ st.clock.first ∧ st.clock.first ≤ st.clock.second) ∧
      next = { s with
        primary := (s.primary.exec st).1
        link := s.link ++ (s.primary.exec st).2.1
        clock := st.clock.second } := by
  simp only [step] at hstep
  split_ifs at hstep with hcond
  exact ⟨hcond, (Option.some.inj hstep).symm⟩

theorem read_eq_some {s next : State L R} {st : Step R}
    (hstep : step s (.read st) = some next) :
    (¬ st.op.IsWrite ∧ s.clock ≤ st.clock.first ∧ st.clock.first ≤ st.clock.second) ∧
      next = { s with replica := (s.replica.exec st).1, clock := st.clock.second } := by
  simp only [step] at hstep
  split_ifs at hstep with hcond
  exact ⟨hcond, (Option.some.inj hstep).symm⟩

theorem deliver_eq_some {s next : State L R} (hstep : step s .deliver = some next) :
    ∃ ev rest, s.link = ev :: rest ∧
      next = { s with link := rest, replica := s.replica.applyEvent ev } := by
  simp only [step] at hstep
  cases hlink : s.link with
  | nil => simp [hlink] at hstep
  | cons ev rest =>
      simp only [hlink, Option.some.injEq] at hstep
      exact ⟨ev, rest, rfl, hstep.symm⟩

/-- Once the link is empty the replica agrees with the primary. -/
structure Synchronizing (s : State L R) : Prop where
  primary_placed : s.primary.Placed
  replica_placed : s.replica.Placed
  unlimited : s.replica.Unlimited
  agree : ∀ key, Agree s.clock (replay (mutations s.link) s.replica.contents key)
    (s.primary.contents key)

theorem isFlush_of_isWrite {op : KeyOp L} (hop : ¬ op.IsWrite) : ¬ op.IsFlush := by
  cases op <;> simp_all [KeyOp.IsWrite, KeyOp.IsFlush]

theorem contents_read {c : Cache L} (hplaced : c.Placed) {st : Step L}
    (hop : ¬ st.op.IsWrite) (key : Key) :
    ((c.exec st).1.contents key = c.contents key ∧ ∀ ev ∈ (c.exec st).2.1, ev.key ≠ key) ∨
      ((c.exec st).1.contents key = none ∧ live st.clock.first (c.contents key) = none ∧
        ∃ ev ∈ (c.exec st).2.1, ev.key = key) := by
  obtain ⟨removed, hevents, hdead⟩ : ∃ removed : List Key,
      (c.exec st).2.1 = removed.map .del ∧
        ∀ key ∈ removed, live st.clock.first ((c.shards st.op.shard).view key) = none :=
    Engine.gone_of_not_write hop
  have hflush := isFlush_of_isWrite hop
  have hcontents := Cache.contents_exec hplaced hflush
  rw [hevents, mutations_map_del] at hcontents
  rw [hcontents, replay_dels, hevents]
  by_cases hmem : key ∈ removed
  · right
    have hshard : L.index key = st.op.shard := by
      have htouches := (KeyOp.explained_run st.clock hflush (hplaced st.op.shard)).touches
      apply htouches (.del key) _ key rfl
      have hrun : (st.op.run st.clock (c.shards st.op.shard)).events = removed.map .del := hevents
      rw [hrun, mutations_map_del]
      exact List.mem_map_of_mem hmem
    refine ⟨if_pos hmem, ?_, .del key, List.mem_map_of_mem hmem, rfl⟩
    rw [Cache.contents, hshard]
    exact hdead key hmem
  · left
    refine ⟨if_neg hmem, ?_⟩
    rintro ev hev rfl
    obtain ⟨other, hother, rfl⟩ := List.mem_map.mp hev
    exact hmem hother

theorem Synchronizing.primary {s next : State L R} (hsync : Synchronizing s) {st : Step L}
    (hstep : step s (.primary st) = some next) : Synchronizing next := by
  obtain ⟨⟨hflush, hfirst, hsecond⟩, rfl⟩ := primary_eq_some hstep
  refine ⟨Cache.placed_exec hsync.primary_placed st, hsync.replica_placed, hsync.unlimited, ?_⟩
  intro key
  have hagree : ∀ key, Agree st.clock.second
      (replay (mutations s.link) s.replica.contents key) (s.primary.contents key) :=
    fun key => (hsync.agree key).mono (hfirst.trans hsecond)
  simp only [mutations_append, replay_append]
  rw [Cache.contents_exec hsync.primary_placed hflush]
  exact (hagree key).replay (Cache.timely_exec hsync.primary_placed hflush)

theorem Synchronizing.deliver {s next : State L R} (hsync : Synchronizing s)
    (hstep : step s .deliver = some next) : Synchronizing next := by
  obtain ⟨ev, rest, hlink, rfl⟩ := deliver_eq_some hstep
  refine ⟨hsync.primary_placed, hsync.replica_placed.applyEvent ev,
    hsync.unlimited.applyEvent ev, ?_⟩
  intro key
  have hagree := hsync.agree key
  have hcons : s.link = [ev] ++ rest := hlink
  rw [hcons, mutations_append, replay_append] at hagree
  rw [Cache.contents_applyEvent hsync.unlimited]
  exact hagree

theorem Synchronizing.read {s next : State L R} (hsync : Synchronizing s) {st : Step R}
    (hsafe : ¬ Loses s (.read st)) (hstep : step s (.read st) = some next) :
    Synchronizing next := by
  obtain ⟨⟨hop, hfirst, hsecond⟩, rfl⟩ := read_eq_some hstep
  have hlimits : (s.replica.exec st).1.Unlimited := hsync.unlimited.exec st
  refine ⟨hsync.primary_placed, Cache.placed_exec hsync.replica_placed st, hlimits, ?_⟩
  intro key
  have hagree : Agree st.clock.second (replay (mutations s.link) s.replica.contents key)
      (s.primary.contents key) := (hsync.agree key).mono (hfirst.trans hsecond)
  rcases contents_read hsync.replica_placed hop key with ⟨hsame, _⟩ | ⟨hgone, hdead, ev, hev, rfl⟩
  · simp only [replay_congr_key (mutations s.link) hsame]
    exact hagree
  · apply agree_replay_without hagree hgone (live_none_mono hdead hsecond)
    intro hretime
    by_contra hlive
    exact hsafe ⟨ev, hev, hretime, hlive⟩

theorem Synchronizing.step {s next : State L R} {a : Action L R} (hsync : Synchronizing s)
    (hsafe : ¬ Loses s a) (hstep : step s a = some next) : Synchronizing next := by
  cases a with
  | primary st => exact hsync.primary hstep
  | deliver => exact hsync.deliver hstep
  | read st => exact hsync.read hsafe hstep

/-! ## Runs -/

def initial (cfg : Config) (hash : Key → ℕ) (rng : ℕ → ℕ → ℕ) (shards : ℤ) (policy : Kind)
    (hash' : Key → ℕ) (rng' : ℕ → ℕ → ℕ) (clock : ℤ) :
    State (cfg.layout hash) (Config.layout ⟨shards, 0, 0, policy⟩ hash') :=
  ⟨Cache.new cfg hash rng, [], Cache.unlimited shards policy hash' rng', clock⟩

theorem synchronizing_initial (cfg : Config) (hash : Key → ℕ) (rng : ℕ → ℕ → ℕ) (shards : ℤ)
    (policy : Kind) (hash' : Key → ℕ) (rng' : ℕ → ℕ → ℕ) (clock : ℤ) :
    Synchronizing (initial cfg hash rng shards policy hash' rng' clock) :=
  ⟨Cache.placed_new cfg hash rng, Cache.placed_new _ hash' rng',
    Cache.unlimited_unlimited shards policy hash' rng', fun _ => Agree.refl _ _⟩

theorem Synchronizing.sameEntries {s : State L R} (hsync : Synchronizing s)
    (hlink : s.link = []) : s.SameEntries := by
  intro key
  have hagree := hsync.agree key
  rw [hlink] at hagree
  exact hagree.live_eq

theorem run_delivers (s : State L R) :
    run step s (List.replicate s.link.length .deliver) =
      some { s with link := [], replica := s.replica.applyEvents s.link } := by
  obtain ⟨primary, link, replica, clock⟩ := s
  induction link generalizing replica with
  | nil => rfl
  | cons ev rest ih => exact ih (replica.applyEvent ev)

theorem differ_of_loses {s next : State L R} (hsync : Synchronizing s) {a : Action L R}
    (hloses : Loses s a) (hstep : step s a = some next) :
    ∃ final, run step next (List.replicate next.link.length .deliver) = some final ∧
      final.link = [] ∧ ¬ final.SameEntries := by
  cases a with
  | primary st => exact absurd hloses not_false
  | deliver => exact absurd hloses not_false
  | read st =>
      obtain ⟨⟨hop, _, _⟩, rfl⟩ := read_eq_some hstep
      obtain ⟨ev, hev, hretime, hlive⟩ := hloses
      refine ⟨_, run_delivers _, rfl, ?_⟩
      intro hsame
      have hkey := hsame ev.key
      have hgone : (s.replica.exec st).1.contents ev.key = none := by
        rcases contents_read hsync.replica_placed hop ev.key with ⟨_, hother⟩ | ⟨hgone, _⟩
        · exact absurd rfl (hother ev hev)
        · exact hgone
      have hlimits : (s.replica.exec st).1.Unlimited := hsync.unlimited.exec st
      simp only [Cache.contents_applyEvents hlimits, replay_of_isRetime hretime hgone] at hkey
      exact hlive hkey.symm

/-- As long as no read loses an entry, the caches hold the same live entries
whenever the link is empty; a read that loses one makes them differ once what
is on the link has arrived. -/
theorem sameEntries_of_no_loss (cfg : Config) (hash : Key → ℕ) (rng : ℕ → ℕ → ℕ) (shards : ℤ)
    (policy : Kind) (hash' : Key → ℕ) (rng' : ℕ → ℕ → ℕ) (clock : ℤ)
    {actions : List (Action (cfg.layout hash) (Config.layout ⟨shards, 0, 0, policy⟩ hash'))}
    {s : State (cfg.layout hash) (Config.layout ⟨shards, 0, 0, policy⟩ hash')}
    (hrun : run step (initial cfg hash rng shards policy hash' rng' clock) actions = some s)
    (hsafe : Along step (fun s a => ¬ Loses s a)
      (initial cfg hash rng shards policy hash' rng' clock) actions) :
    (s.link = [] → s.SameEntries) ∧
      ∀ a next, step s a = some next → Loses s a →
        ∃ final, run step next (List.replicate next.link.length .deliver) = some final ∧
          final.link = [] ∧ ¬ final.SameEntries := by
  have hsync : Synchronizing s :=
    run_invariant_along step (fun _ _ _ hs hsafe hstep => hs.step hsafe hstep)
      (synchronizing_initial cfg hash rng shards policy hash' rng' clock) hsafe hrun
  exact ⟨hsync.sameEntries, fun a next hstep hloses => differ_of_loses hsync hloses hstep⟩

def fresh : State (Config.layout ⟨1, 0, 0, .lru⟩ fun _ => 0)
    (Config.layout ⟨1, 0, 0, .lru⟩ fun _ => 0) :=
  initial ⟨1, 0, 0, .lru⟩ (fun _ => 0) (fun _ _ => 0) 1 .lru (fun _ => 0) (fun _ _ => 0) 0

/-- The deadline of a key is put off before it is reached, and the replica hears
of it in time. -/
theorem sameEntries_of_no_loss_inTime :
    ∃ s, run step fresh [.primary ⟨⟨0, 0⟩, .setTTL [107] [118] 10⟩, .deliver,
          .primary ⟨⟨9, 9⟩, .expire [107] 100⟩, .deliver,
          .read ⟨⟨10, 10⟩, .get [107]⟩] = some s ∧ s.SameEntries := by
  have hsome : (run step fresh [.primary ⟨⟨0, 0⟩, .setTTL [107] [118] 10⟩, .deliver,
        .primary ⟨⟨9, 9⟩, .expire [107] 100⟩, .deliver,
        .read ⟨⟨10, 10⟩, .get [107]⟩]).map State.link = some [] := by decide +kernel
  obtain ⟨s, hrun, hlink⟩ := Option.map_eq_some_iff.mp hsome
  exact ⟨s, hrun, (sameEntries_of_no_loss _ _ _ _ _ _ _ _ hrun (by decide +kernel)).1 hlink⟩

/-- The same, with the read before the new deadline arrives. -/
theorem read_loses_entry :
    ∃ s, run step fresh [.primary ⟨⟨0, 0⟩, .setTTL [107] [118] 10⟩, .deliver,
          .primary ⟨⟨9, 9⟩, .expire [107] 100⟩,
          .read ⟨⟨10, 10⟩, .get [107]⟩, .deliver] = some s ∧
      s.link = [] ∧ live s.clock (s.replica.contents [107]) = none ∧
      live s.clock (s.primary.contents [107]) = some ⟨[118], 109⟩ := by
  have hsome : (run step fresh [.primary ⟨⟨0, 0⟩, .setTTL [107] [118] 10⟩, .deliver,
        .primary ⟨⟨9, 9⟩, .expire [107] 100⟩,
        .read ⟨⟨10, 10⟩, .get [107]⟩, .deliver]).map (fun s =>
          (s.link, live s.clock (s.replica.contents [107]),
            live s.clock (s.primary.contents [107]))) =
      some ([], none, some ⟨[118], 109⟩) := by decide +kernel
  obtain ⟨s, hrun, hseen⟩ := Option.map_eq_some_iff.mp hsome
  simp only [Prod.mk.injEq] at hseen
  exact ⟨s, hrun, hseen⟩

end ReplicaReads
end DistCache
