import DistCache.DeadlineStore

/-!
# Copies of a store that are brought up to date by its log

A copy is a base state with the part of the log that is still to be replayed over it.
It is up to date when the replay agrees, up to expiry, with what the source holds.  The
log either carries an entry of the source over to the next one or resets the key, and
both keep a copy up to date.

A copy may be taken from the running source, if the log that remains explains the
source's entry.
-/

namespace DistCache
namespace DeadlineStore

variable {K V T : Type*} [DecidableEq K]

/-- The replay of the log leaves the entry at the key, wherever it starts. -/
def Resets (key : K) (log : List (Mutation K V T)) (after : Option (Entry V T)) : Prop :=
  ∀ store : Store K V T, replay log store key = after

/-- The entry at the key is the result of replaying the log over something. -/
def Explained (key : K) (log : List (Mutation K V T)) (entry : Option (Entry V T)) : Prop :=
  ∃ store : Store K V T, replay log store key = entry

theorem Resets.explained {key : K} {log : List (Mutation K V T)}
    {after : Option (Entry V T)} (hresets : Resets key log after) :
    Explained key log after :=
  ⟨fun _ => none, hresets _⟩

theorem Resets.append_left {key : K} {log : List (Mutation K V T)}
    {after : Option (Entry V T)} (hresets : Resets key log after)
    (earlier : List (Mutation K V T)) : Resets key (earlier ++ log) after := by
  intro store
  rw [replay_append]
  exact hresets _

theorem resets_snoc_flush (key : K) (log : List (Mutation K V T)) :
    Resets key (log ++ [.flush]) none := by
  intro store
  rw [replay_snoc]
  rfl

theorem Explained.drop {key : K} {earlier log : List (Mutation K V T)}
    {entry : Option (Entry V T)} (hexplained : Explained key (earlier ++ log) entry) :
    Explained key log entry := by
  obtain ⟨store, hstore⟩ := hexplained
  rw [replay_append] at hstore
  exact ⟨replay earlier store, hstore⟩

section Expiry

variable [Zero T] [LinearOrder T]

/-- The log takes the entry from `before` to `after`, and also any entry that
agrees with `before` at the time. -/
structure Carries (now : T) (key : K) (log : List (Mutation K V T))
    (before after : Option (Entry V T)) : Prop where
  replays : ∀ store : Store K V T, store key = before → replay log store key = after
  agrees : ∀ store : Store K V T, Agree now (store key) before →
    Agree now (replay log store key) after

/-- What the log says about a key that was known (`settled`) before, or was
not. -/
def Moves (now : T) (key : K) (log : List (Mutation K V T)) (settled : Prop)
    (before after : Option (Entry V T)) : Prop :=
  settled ∧ Carries now key log before after ∨ Resets key log after

/-- The copy agrees with the source once it has replayed the log. -/
def UpToDate (now : T) (key : K) (log : List (Mutation K V T)) (copy : Store K V T)
    (source : Option (Entry V T)) : Prop :=
  Agree now (replay log copy key) source

variable {now later : T} {key : K} {log more : List (Mutation K V T)}
  {before after : Option (Entry V T)} {copy : Store K V T}

theorem carries_refl (now : T) (key : K) (entry : Option (Entry V T)) :
    Carries now key [] entry entry :=
  ⟨fun _ h => h, fun _ h => h⟩

theorem carries_replay {source : Store K V T} (htimely : TimelyLog now log source) :
    Carries now key log (source key) (replay log source key) where
  replays := fun _ hkey => replay_congr_key log hkey
  agrees := fun _ hagree => hagree.replay htimely

theorem UpToDate.moves {settled : Prop} (hle : now ≤ later)
    (hcopy : settled → UpToDate now key log copy before)
    (hmoves : Moves later key more settled before after) :
    UpToDate later key (log ++ more) copy after := by
  unfold UpToDate at hcopy ⊢
  rw [replay_append]
  rcases hmoves with ⟨hsettled, hcarries⟩ | hresets
  · exact hcarries.agrees _ ((hcopy hsettled).mono hle)
  · exact Or.inl (hresets _)

theorem Explained.moves {settled : Prop}
    (hexplained : settled → Explained key log before)
    (hmoves : Moves now key more settled before after) :
    Explained key (log ++ more) after := by
  rcases hmoves with ⟨hsettled, hcarries⟩ | hresets
  · obtain ⟨store, hstore⟩ := hexplained hsettled
    refine ⟨store, ?_⟩
    rw [replay_append]
    exact hcarries.replays _ hstore
  · exact (hresets.append_left log).explained

theorem Explained.upToDate_export (hle : now ≤ later)
    (hexplained : Explained key log before) (hcopy : copy key = live now before) :
    UpToDate later key log copy before := by
  obtain ⟨store, hstore⟩ := hexplained
  let source : Store K V T := fun _ => before
  have hsource : source key = replay log store key := hstore.symm
  have hexport : copy key = live now (source key) := hcopy
  exact agree_replay_copy hle hsource hexport

end Expiry

end DeadlineStore
end DistCache
