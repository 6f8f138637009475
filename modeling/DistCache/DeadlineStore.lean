import Mathlib.Tactic

/-!
# Keyed stores with deadlines and the replay of their mutation log

An entry is a value with a deadline; zero means that it never expires.  On a single key
a sequence of mutations keeps what is there, changes its deadline or replaces it.  These
effects compose, and applying one twice is applying it once, so that replaying a log
over a state that already contains part of it is harmless.

`Agree now a b` holds when two entries are equal or neither is live at the time `now`.
-/

namespace DistCache
namespace DeadlineStore

variable {K V T : Type*}

@[ext]
structure Entry (V T : Type*) where
  value : V
  expireAt : T
  deriving DecidableEq, Repr

abbrev Store (K V T : Type*) := K → Option (Entry V T)

inductive Mutation (K V T : Type*) where
  | set (key : K) (entry : Entry V T)
  | del (key : K)
  | expire (key : K) (expireAt : T)
  | flush
  deriving DecidableEq, Repr

inductive Effect (V T : Type*) where
  | keep
  | retime (expireAt : T)
  | replace (entry : Option (Entry V T))

def Entry.retime (expireAt : T) (entry : Entry V T) : Entry V T :=
  { entry with expireAt := expireAt }

@[simp] theorem Entry.retime_value (expireAt : T) (entry : Entry V T) :
    (entry.retime expireAt).value = entry.value := rfl

def Effect.apply : Effect V T → Option (Entry V T) → Option (Entry V T)
  | .keep, entry => entry
  | .retime expireAt, entry => entry.map (Entry.retime expireAt)
  | .replace entry, _ => entry

def Effect.IsRetime : Effect V T → Prop
  | .retime _ => True
  | _ => False

instance (effect : Effect V T) : Decidable effect.IsRetime :=
  match effect with
  | .keep => inferInstanceAs (Decidable False)
  | .retime _ => inferInstanceAs (Decidable True)
  | .replace _ => inferInstanceAs (Decidable False)

def Effect.andThen : Effect V T → Effect V T → Effect V T
  | first, .keep => first
  | .replace entry, .retime expireAt =>
      .replace (entry.map (Entry.retime expireAt))
  | .keep, .retime expireAt => .retime expireAt
  | .retime _, .retime expireAt => .retime expireAt
  | _, .replace entry => .replace entry

@[simp] theorem Effect.apply_keep (entry : Option (Entry V T)) :
    (Effect.keep : Effect V T).apply entry = entry := rfl

@[simp] theorem Effect.apply_retime
    (expireAt : T) (entry : Option (Entry V T)) :
    (Effect.retime expireAt : Effect V T).apply entry =
      entry.map (Entry.retime expireAt) := rfl

@[simp] theorem Effect.apply_replace (entry other : Option (Entry V T)) :
    (Effect.replace entry).apply other = entry := rfl

theorem Effect.apply_andThen
    (first second : Effect V T) (entry : Option (Entry V T)) :
    (first.andThen second).apply entry = second.apply (first.apply entry) := by
  cases first <;> cases second <;> try rfl
  cases entry <;> rfl

theorem Effect.apply_idem (effect : Effect V T) (entry : Option (Entry V T)) :
    effect.apply (effect.apply entry) = effect.apply entry := by
  cases effect with
  | keep => rfl
  | retime expireAt => cases entry <;> rfl
  | replace other => rfl

theorem Effect.apply_none_or_const (effect : Effect V T) :
    effect.apply none = none ∨
      ∀ entry, effect.apply entry = effect.apply none := by
  cases effect with
  | keep => exact Or.inl rfl
  | retime expireAt => exact Or.inl rfl
  | replace other => exact Or.inr fun _ => rfl

section Replay

variable [DecidableEq K]

def Mutation.effect (key : K) : Mutation K V T → Effect V T
  | .set other entry => if other = key then .replace (some entry) else .keep
  | .del other => if other = key then .replace none else .keep
  | .expire other expireAt => if other = key then .retime expireAt else .keep
  | .flush => .replace none

def Mutation.apply (mutation : Mutation K V T) (store : Store K V T) :
    Store K V T :=
  fun key => (mutation.effect key).apply (store key)

def replay (log : List (Mutation K V T)) (store : Store K V T) :
    Store K V T :=
  log.foldl (fun current mutation => mutation.apply current) store

def effectOf (key : K) (log : List (Mutation K V T)) : Effect V T :=
  log.foldl (fun effect mutation => effect.andThen (mutation.effect key)) .keep

@[simp] theorem replay_nil (store : Store K V T) :
    replay [] store = store := rfl

@[simp] theorem replay_cons
    (mutation : Mutation K V T) (log : List (Mutation K V T))
    (store : Store K V T) :
    replay (mutation :: log) store = replay log (mutation.apply store) := rfl

theorem replay_append
    (first second : List (Mutation K V T)) (store : Store K V T) :
    replay (first ++ second) store = replay second (replay first store) := by
  simp [replay, List.foldl_append]

theorem replay_snoc
    (log : List (Mutation K V T)) (mutation : Mutation K V T)
    (store : Store K V T) :
    replay (log ++ [mutation]) store = mutation.apply (replay log store) := by
  rw [replay_append]
  rfl

theorem foldl_andThen_apply
    (key : K) (log : List (Mutation K V T)) (effect : Effect V T)
    (entry : Option (Entry V T)) :
    (log.foldl (fun current mutation =>
        current.andThen (mutation.effect key)) effect).apply entry =
      (effectOf key log).apply (effect.apply entry) := by
  induction log using List.reverseRecOn generalizing effect with
  | nil => rfl
  | append_singleton log mutation ih =>
      simp only [effectOf, List.foldl_append, List.foldl_cons, List.foldl_nil,
        Effect.apply_andThen]
      rw [ih]
      rfl

theorem replay_apply
    (key : K) (log : List (Mutation K V T)) (store : Store K V T) :
    replay log store key = (effectOf key log).apply (store key) := by
  induction log generalizing store with
  | nil => rfl
  | cons mutation log ih =>
      rw [replay_cons, ih]
      have hfold := foldl_andThen_apply key log
        (Effect.andThen .keep (mutation.effect key)) (store key)
      rw [Effect.apply_andThen, Effect.apply_keep] at hfold
      exact hfold.symm

theorem replay_congr_key
    {key : K} {first second : Store K V T} (log : List (Mutation K V T))
    (hkey : first key = second key) :
    replay log first key = replay log second key := by
  rw [replay_apply, replay_apply, hkey]

theorem replay_over_part
    {key : K} {before log : List (Mutation K V T)} {base copy : Store K V T}
    (hbefore : before <+: log) (hcopy : copy key = replay before base key) :
    replay log copy key = replay log base key := by
  obtain ⟨rest, rfl⟩ := hbefore
  rw [replay_append, replay_append]
  apply replay_congr_key
  rw [replay_apply, replay_apply, hcopy, replay_apply, Effect.apply_idem]

/-- A mutation that names another key leaves the key alone. -/
def Mutation.Touches (key : K) : Mutation K V T → Prop
  | .set other _ => other = key
  | .del other => other = key
  | .expire other _ => other = key
  | .flush => True

instance (key : K) (mutation : Mutation K V T) :
    Decidable (mutation.Touches key) :=
  match mutation with
  | .set other _ => inferInstanceAs (Decidable (other = key))
  | .del other => inferInstanceAs (Decidable (other = key))
  | .expire other _ => inferInstanceAs (Decidable (other = key))
  | .flush => inferInstanceAs (Decidable True)

theorem Mutation.apply_of_not_touches
    {key : K} {mutation : Mutation K V T} (store : Store K V T)
    (hother : ¬ mutation.Touches key) :
    mutation.apply store key = store key := by
  cases mutation with
  | set other entry => simp_all [Mutation.apply, Mutation.effect, Touches]
  | del other => simp_all [Mutation.apply, Mutation.effect, Touches]
  | expire other expireAt => simp_all [Mutation.apply, Mutation.effect, Touches]
  | flush => simp [Touches] at hother

theorem replay_of_not_touches
    {key : K} {log : List (Mutation K V T)} (store : Store K V T)
    (hother : ∀ mutation ∈ log, ¬ mutation.Touches key) :
    replay log store key = store key := by
  induction log generalizing store with
  | nil => rfl
  | cons mutation log ih =>
      rw [replay_cons, ih]
      · exact mutation.apply_of_not_touches store (hother mutation (by simp))
      · intro other hmem
        exact hother other (by simp [hmem])

/-- A mutation that may change the value of the key, and not only its deadline. -/
def Mutation.Overwrites (key : K) : Mutation K V T → Prop
  | .set other _ => other = key
  | .del other => other = key
  | .expire _ _ => False
  | .flush => True

theorem replay_value_of_not_overwrites
    {key : K} {log : List (Mutation K V T)} (store : Store K V T)
    (hkeep : ∀ mutation ∈ log, ¬ mutation.Overwrites key) :
    (replay log store key).map Entry.value = (store key).map Entry.value := by
  induction log generalizing store with
  | nil => rfl
  | cons mutation log ih =>
      have hhead := hkeep mutation List.mem_cons_self
      rw [replay_cons, ih _ fun other hmem => hkeep other (List.mem_cons_of_mem _ hmem)]
      cases mutation with
      | set other entry =>
          have hother : ¬ (Mutation.set other entry).Touches key := hhead
          rw [Mutation.apply_of_not_touches store hother]
      | del other =>
          have hother : ¬ (Mutation.del other : Mutation K V T).Touches key := hhead
          rw [Mutation.apply_of_not_touches store hother]
      | expire other expireAt =>
          by_cases hother : other = key
          · cases hentry : store key <;>
              simp [Mutation.apply, Mutation.effect, hother, hentry]
          · have hkept : ¬ (Mutation.expire other expireAt : Mutation K V T).Touches key :=
              hother
            rw [Mutation.apply_of_not_touches store hkept]
      | flush => exact absurd trivial hhead

theorem replay_value_of_last_set {key : K} {before after : List (Mutation K V T)}
    {entry : Entry V T} (hafter : ∀ mutation ∈ after, ¬ mutation.Overwrites key)
    (store : Store K V T) :
    (replay (before ++ .set key entry :: after) store key).map Entry.value =
      some entry.value := by
  rw [replay_append, replay_cons, replay_value_of_not_overwrites _ hafter]
  simp [Mutation.apply, Mutation.effect]

theorem replay_dels (keys : List K) (store : Store K V T) (key : K) :
    replay (keys.map .del) store key = if key ∈ keys then none else store key := by
  induction keys generalizing store with
  | nil => simp
  | cons first rest ih =>
      rw [List.map_cons, replay_cons, ih]
      by_cases hrest : key ∈ rest
      · simp [hrest]
      · by_cases hfirst : first = key
        · simp [Mutation.apply, Mutation.effect, hfirst]
        · simp [Mutation.apply, Mutation.effect, hfirst, hrest, Ne.symm hfirst]

theorem replay_sets {entries : List (K × Entry V T)} (hnodup : (entries.map Prod.fst).Nodup)
    (store : Store K V T) (key : K) :
    (∀ entry, (key, entry) ∈ entries →
        replay (entries.map fun e => .set e.1 e.2) store key = some entry) ∧
      (key ∉ entries.map Prod.fst →
        replay (entries.map fun e => .set e.1 e.2) store key = store key) := by
  induction entries generalizing store with
  | nil => exact ⟨fun entry hmem => by simp at hmem, fun _ => rfl⟩
  | cons first rest ih =>
      rw [List.map_cons, List.nodup_cons] at hnodup
      obtain ⟨hfound, habsent⟩ := ih hnodup.2 ((Mutation.set first.1 first.2).apply store)
      rw [List.map_cons, replay_cons]
      constructor
      · intro entry hmem
        rcases List.mem_cons.mp hmem with heq | hmem
        · subst heq
          rw [habsent hnodup.1]
          simp [Mutation.apply, Mutation.effect]
        · exact hfound entry hmem
      · intro hnotin
        rw [List.map_cons, List.mem_cons, not_or] at hnotin
        rw [habsent hnotin.2]
        exact Mutation.apply_of_not_touches store fun htouch => hnotin.1 htouch.symm

end Replay

/-! ## Expiry -/

section Expiry

variable [Zero T] [LinearOrder T]

def Entry.expired (now : T) (entry : Entry V T) : Prop :=
  entry.expireAt ≠ 0 ∧ entry.expireAt ≤ now

instance (now : T) (entry : Entry V T) : Decidable (entry.expired now) :=
  inferInstanceAs (Decidable (entry.expireAt ≠ 0 ∧ entry.expireAt ≤ now))

/-- The entry as a reader at time `now` sees it. -/
def live (now : T) (entry : Option (Entry V T)) : Option (Entry V T) :=
  entry.filter fun found => ¬ found.expired now

def Agree (now : T) (first second : Option (Entry V T)) : Prop :=
  first = second ∨ live now first = none ∧ live now second = none

@[simp] theorem live_none (now : T) :
    live now (none : Option (Entry V T)) = none := rfl

theorem live_eq_none_iff {now : T} {entry : Option (Entry V T)} :
    live now entry = none ↔ ∀ found, entry = some found → found.expired now := by
  cases entry <;> simp [live]

theorem live_of_expired {now : T} {entry : Entry V T} (hexpired : entry.expired now) :
    live now (some entry) = none := by
  simp [live, hexpired]

theorem live_of_not_expired {now : T} {entry : Entry V T} (hfresh : ¬ entry.expired now) :
    live now (some entry) = some entry := by
  simp [live, hfresh]

theorem live_eq_self_or_none (now : T) (entry : Option (Entry V T)) :
    live now entry = entry ∨ live now entry = none := by
  cases entry with
  | none => exact Or.inl rfl
  | some found =>
      by_cases hexpired : found.expired now
      · exact Or.inr (live_of_expired hexpired)
      · exact Or.inl (live_of_not_expired hexpired)

theorem Entry.expired.mono {now later : T} {entry : Entry V T}
    (hexpired : entry.expired now) (hle : now ≤ later) :
    entry.expired later :=
  ⟨hexpired.1, hexpired.2.trans hle⟩

theorem live_none_mono {now later : T} {entry : Option (Entry V T)}
    (hdead : live now entry = none) (hle : now ≤ later) :
    live later entry = none := by
  rw [live_eq_none_iff] at hdead ⊢
  exact fun found hfound => (hdead found hfound).mono hle

theorem Agree.refl (now : T) (entry : Option (Entry V T)) :
    Agree now entry entry := Or.inl rfl

theorem Agree.mono {now later : T} {first second : Option (Entry V T)}
    (hagree : Agree now first second) (hle : now ≤ later) :
    Agree later first second :=
  hagree.imp id fun hdead =>
    ⟨live_none_mono hdead.1 hle, live_none_mono hdead.2 hle⟩

theorem Agree.live_eq {now : T} {first second : Option (Entry V T)}
    (hagree : Agree now first second) : live now first = live now second := by
  rcases hagree with rfl | ⟨hfirst, hsecond⟩
  · rfl
  · rw [hfirst, hsecond]

variable [DecidableEq K]

/-- A store only changes the deadline of an entry that is live when it does. -/
def Mutation.Timely (now : T) (store : Store K V T) :
    Mutation K V T → Prop
  | .expire key _ => live now (store key) ≠ none
  | _ => True

/-- Applying one mutation on both sides keeps the agreement, as long as the
mutation is one that the second side performs at the time `now`. -/
theorem Agree.apply {now : T} {first second : Store K V T}
    {mutation : Mutation K V T} {key : K}
    (hagree : Agree now (first key) (second key))
    (htimely : mutation.Timely now second) :
    Agree now (mutation.apply first key) (mutation.apply second key) := by
  rcases hagree with heq | ⟨hfirst, hsecond⟩
  · exact Or.inl (by simp only [Mutation.apply, heq])
  · cases mutation with
    | set other entry | del other =>
        by_cases hkey : other = key
        · simp [Agree, Mutation.apply, Mutation.effect, hkey]
        · exact Or.inr (by simp [Mutation.apply, Mutation.effect, hkey,
            hfirst, hsecond])
    | expire other expireAt =>
        have hkey : other ≠ key := by
          rintro rfl
          exact htimely hsecond
        exact Or.inr (by simp [Mutation.apply, Mutation.effect, hkey,
          hfirst, hsecond])
    | flush => exact Or.inl rfl

/-- Every mutation of the log is timely in the state it is applied to. -/
def TimelyLog (now : T) : List (Mutation K V T) → Store K V T → Prop
  | [], _ => True
  | mutation :: log, store =>
      mutation.Timely now store ∧ TimelyLog now log (mutation.apply store)

theorem timelyLog_of_no_expire {now : T} {log : List (Mutation K V T)}
    (hlog : ∀ key expireAt, Mutation.expire key expireAt ∉ log)
    (store : Store K V T) : TimelyLog now log store := by
  induction log generalizing store with
  | nil => trivial
  | cons mutation log ih =>
      constructor
      · cases mutation with
        | expire key expireAt => exact absurd (by simp) (hlog key expireAt)
        | set key entry => trivial
        | del key => trivial
        | flush => trivial
      · apply ih
        intro key expireAt hmem
        exact hlog key expireAt (List.mem_cons_of_mem _ hmem)

theorem TimelyLog.congr {now : T} {log : List (Mutation K V T)}
    {first second : Store K V T} (htimely : TimelyLog now log first)
    (hsame : ∀ mutation ∈ log, ∀ key, mutation.Touches key → first key = second key) :
    TimelyLog now log second := by
  induction log generalizing first second with
  | nil => trivial
  | cons mutation log ih =>
      refine ⟨?_, ih htimely.2 ?_⟩
      · have hhead := htimely.1
        cases mutation with
        | expire key expireAt =>
            have hkey := hsame (.expire key expireAt) (by simp) key rfl
            simpa only [Mutation.Timely, hkey] using hhead
        | set key entry => trivial
        | del key => trivial
        | flush => trivial
      · intro other hmem key htouch
        have hkey := hsame other (List.mem_cons_of_mem _ hmem) key htouch
        simp only [Mutation.apply, hkey]

theorem Agree.replay {now : T} {log : List (Mutation K V T)}
    {first second : Store K V T} {key : K}
    (hagree : Agree now (first key) (second key))
    (htimely : TimelyLog now log second) :
    Agree now (replay log first key) (replay log second key) := by
  induction log generalizing first second with
  | nil => exact hagree
  | cons mutation log ih =>
      rw [replay_cons, replay_cons]
      exact ih (hagree.apply htimely.1) htimely.2

/-- A copy of an entry that is taken while the log since a boundary already
ran, and that leaves out what has expired, agrees with the original after the
log is replayed over it. -/
theorem agree_replay_copy {exported now : T}
    (hle : exported ≤ now) {log : List (Mutation K V T)}
    {base source copy : Store K V T} {key : K}
    (hsource : source key = replay log base key)
    (hcopy : copy key = live exported (source key)) :
    Agree now (replay log copy key) (source key) := by
  rw [replay_apply, hcopy]
  rcases live_eq_self_or_none exported (source key) with hlive | hdead
  · left
    rw [hlive, hsource, replay_apply, Effect.apply_idem]
  · rw [hdead]
    rcases (effectOf key log).apply_none_or_const with hnone | hconst
    · right
      rw [hnone]
      exact ⟨rfl, live_none_mono hdead hle⟩
    · left
      rw [hsource, replay_apply, hconst (base key)]

end Expiry

end DeadlineStore
end DistCache
