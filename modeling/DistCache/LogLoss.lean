import DistCache.DeadlineStore

/-!
# Copies of a store when the end of its log is lost

A copy of an entry is taken while the store runs on: it contains the log up to some
moment, and a boundary before that moment says from where the log is to be replayed over
it.  If the end of the log is lost, replaying the rest gives an entry from before or
from after the loss, unless the rest changes the deadline and the copy has a value that
was written in the part that is lost.
-/

namespace DistCache
namespace DeadlineStore

variable {K V T : Type*}

theorem Effect.apply_again {first second : Effect V T}
    (hsafe : first.IsRetime → ∀ entry, second ≠ .replace (some entry))
    (entry : Option (Entry V T)) :
    first.apply (second.apply (first.apply entry)) = first.apply entry ∨
      first.apply (second.apply (first.apply entry)) = second.apply (first.apply entry) := by
  cases first with
  | keep => exact Or.inr rfl
  | replace other => exact Or.inl rfl
  | retime expireAt =>
      cases second with
      | keep => exact Or.inl (Effect.apply_idem _ entry)
      | retime other =>
          left
          cases entry <;> rfl
      | replace written =>
          cases written with
          | none => exact Or.inr rfl
          | some found => exact absurd rfl (hsafe trivial found)

variable [DecidableEq K]

theorem effectOf_snoc (key : K) (log : List (Mutation K V T)) (mutation : Mutation K V T) :
    effectOf key (log ++ [mutation]) = (effectOf key log).andThen (mutation.effect key) := by
  simp [effectOf, List.foldl_append]

theorem Effect.andThen_replace (first : Effect V T) (entry : Option (Entry V T)) :
    first.andThen (.replace entry) = .replace entry := by
  cases first <;> rfl

theorem exists_set_of_effectOf {key : K} {log : List (Mutation K V T)} {entry : Entry V T}
    (heffect : effectOf key log = .replace (some entry)) :
    ∃ written, Mutation.set key written ∈ log ∧ written.value = entry.value := by
  induction log using List.reverseRecOn generalizing entry with
  | nil => contradiction
  | append_singleton log mutation ih =>
      have hearlier : ∀ found : Entry V T, effectOf key log = .replace (some found) →
          found.value = entry.value →
          ∃ written, Mutation.set key written ∈ log ++ [mutation] ∧
            written.value = entry.value := by
        intro found hfound hvalue
        obtain ⟨written, hmem, hwritten⟩ := ih hfound
        exact ⟨written, List.mem_append_left _ hmem, hwritten.trans hvalue⟩
      rw [effectOf_snoc] at heffect
      cases mutation with
      | set other found =>
          by_cases hkey : other = key
          · simp only [Mutation.effect, if_pos hkey, Effect.andThen_replace,
              Effect.replace.injEq, Option.some.injEq] at heffect
            exact ⟨found, by simp [hkey], by rw [heffect]⟩
          · simp only [Mutation.effect, if_neg hkey] at heffect
            exact hearlier entry heffect rfl
      | del other =>
          by_cases hkey : other = key
          · simp [Mutation.effect, if_pos hkey, Effect.andThen_replace] at heffect
          · simp only [Mutation.effect, if_neg hkey] at heffect
            exact hearlier entry heffect rfl
      | expire other expireAt =>
          by_cases hkey : other = key
          · simp only [Mutation.effect, if_pos hkey] at heffect
            cases hbefore : effectOf key log with
            | keep => simp [hbefore, Effect.andThen] at heffect
            | retime earlier => simp [hbefore, Effect.andThen] at heffect
            | replace written =>
                cases written with
                | none => simp [hbefore, Effect.andThen] at heffect
                | some found =>
                    simp only [hbefore, Effect.andThen, Option.map_some,
                      Effect.replace.injEq, Option.some.injEq] at heffect
                    apply hearlier found hbefore
                    rw [← heffect, Entry.retime_value]
          · simp only [Mutation.effect, if_neg hkey] at heffect
            exact hearlier entry heffect rfl
      | flush => simp [Mutation.effect, Effect.andThen_replace] at heffect

def outcome (history : List (Mutation K V T)) : Store K V T := replay history fun _ => none

theorem outcome_append (history more : List (Mutation K V T)) :
    outcome (history ++ more) = replay more (outcome history) :=
  replay_append history more _

section Expiry

variable [Zero T] [LinearOrder T]

theorem TimelyLog.of_isPrefix {now : T} {log more : List (Mutation K V T)}
    {store : Store K V T} (htimely : TimelyLog now log store) (hle : more <+: log) :
    TimelyLog now more store := by
  induction more generalizing log store with
  | nil => trivial
  | cons mutation more ih =>
      obtain ⟨rest, rfl⟩ := hle
      exact ⟨htimely.1, ih htimely.2 (List.prefix_append more rest)⟩

/-- The copy of the entry was taken after a part of the log behind the boundary,
at a time that is over, and the log brings it up to date from then on. -/
def TakenDuring (now : T) (key : K) (before log : List (Mutation K V T))
    (copy : Store K V T) : Prop :=
  ∃ seen, seen <+: log ∧
    (∃ time ≤ now, copy key = live time (outcome (before ++ seen) key)) ∧
    ∀ upTo, seen <+: upTo → upTo <+: log →
      Agree now (replay upTo copy key) (outcome (before ++ upTo) key)

variable {now later : T} {key : K} {before log more kept lost : List (Mutation K V T)}
  {copy : Store K V T}

theorem takenDuring_export {time : T} (hle : time ≤ now)
    (hcopy : copy key = live time (outcome (before ++ log) key)) :
    TakenDuring now key before log copy := by
  refine ⟨log, List.prefix_rfl, ⟨time, hle, hcopy⟩, ?_⟩
  intro upTo hseen hupTo
  have hall : upTo = log := hupTo.eq_of_length_le hseen.length_le
  rw [hall]
  have hsource : outcome (before ++ log) key = replay log (outcome before) key := by
    rw [outcome_append]
  exact agree_replay_copy hle hsource hcopy

theorem takenDuring_absent (hcopy : copy key = none) :
    TakenDuring now key [] log copy := by
  refine ⟨[], List.nil_prefix, ⟨now, le_rfl, hcopy⟩, ?_⟩
  intro upTo _ _
  left
  exact replay_congr_key upTo hcopy

theorem TakenDuring.append (htaken : TakenDuring now key before log copy)
    (hle : now ≤ later) (htimely : TimelyLog later more (outcome (before ++ log))) :
    TakenDuring later key before (log ++ more) copy := by
  obtain ⟨seen, hseen, ⟨time, htime, hcopy⟩, hagree⟩ := htaken
  refine ⟨seen, hseen.trans (List.prefix_append log more), ⟨time, htime.trans hle, hcopy⟩, ?_⟩
  intro upTo hfrom hupTo
  rcases List.prefix_or_prefix_of_prefix hupTo (List.prefix_append log more) with hshort | hlong
  · exact (hagree upTo hfrom hshort).mono hle
  · obtain ⟨part, rfl⟩ := hlong
    have hpart : part <+: more := (List.prefix_append_right_inj log).mp hupTo
    have hall := (hagree log hseen List.prefix_rfl).mono hle
    rw [replay_append, ← List.append_assoc, outcome_append]
    exact hall.replay (htimely.of_isPrefix hpart)

theorem TakenDuring.congr {other : Store K V T} (htaken : TakenDuring now key before log copy)
    (hkey : other key = copy key) : TakenDuring now key before log other := by
  obtain ⟨seen, hseen, ⟨time, htime, hcopy⟩, hagree⟩ := htaken
  refine ⟨seen, hseen, ⟨time, htime, hkey.trans hcopy⟩, ?_⟩
  intro upTo hfrom hupTo
  rw [replay_congr_key upTo hkey]
  exact hagree upTo hfrom hupTo

theorem TakenDuring.recovered (htaken : TakenDuring now key before (kept ++ lost) copy)
    (hle : now ≤ later)
    (hsafe : (effectOf key kept).IsRetime → ∀ written found, Mutation.set key written ∈ lost →
      copy key = some found → written.value ≠ found.value) :
    ∃ part, part <+: lost ∧
      live later (replay kept copy key) = live later (outcome (before ++ kept ++ part) key) := by
  obtain ⟨seen, hseen, ⟨time, htime, hcopy⟩, hagree⟩ := htaken
  rcases List.prefix_or_prefix_of_prefix hseen (List.prefix_append kept lost) with
    hbehind | hahead
  · have hkept := (hagree kept hbehind (List.prefix_append kept lost)).mono hle
    refine ⟨[], List.nil_prefix, ?_⟩
    rw [List.append_nil]
    exact hkept.live_eq
  · obtain ⟨part, rfl⟩ := hahead
    have hpart : part <+: lost := (List.prefix_append_right_inj kept).mp hseen
    have hkept : outcome (before ++ kept) key =
        (effectOf key kept).apply (outcome before key) := by
      rw [outcome_append, replay_apply]
    have hsource : outcome (before ++ kept ++ part) key =
        (effectOf key part).apply ((effectOf key kept).apply (outcome before key)) := by
      rw [outcome_append, replay_apply, hkept]
    rw [← List.append_assoc] at hcopy
    rcases live_eq_self_or_none time (outcome (before ++ kept ++ part) key) with hlive | hdead
    · have hnew : (effectOf key kept).IsRetime →
          ∀ entry, effectOf key part ≠ .replace (some entry) := by
        intro hretime entry heffect
        obtain ⟨written, hmem, hvalue⟩ := exists_set_of_effectOf heffect
        have hcopied : copy key = some entry := by
          rw [hcopy, hlive, hsource, heffect, Effect.apply_replace]
        exact hsafe hretime written entry (hpart.subset hmem) hcopied hvalue
      have hreplayed : replay kept copy key =
          (effectOf key kept).apply ((effectOf key part).apply
            ((effectOf key kept).apply (outcome before key))) := by
        rw [replay_apply, hcopy, hlive, hsource]
      rcases Effect.apply_again hnew (outcome before key) with hold | hnewer
      · refine ⟨[], List.nil_prefix, ?_⟩
        rw [List.append_nil, hreplayed, hold, hkept]
      · refine ⟨part, hpart, ?_⟩
        rw [hreplayed, hnewer, hsource]
    · have hreplayed : replay kept copy key = (effectOf key kept).apply none := by
        rw [replay_apply, hcopy, hdead]
      rcases (effectOf key kept).apply_none_or_const with hnone | hconst
      · refine ⟨part, hpart, ?_⟩
        rw [hreplayed, hnone, live_none]
        exact (live_none_mono hdead (htime.trans hle)).symm
      · refine ⟨[], List.nil_prefix, ?_⟩
        rw [List.append_nil, hreplayed, hkept, hconst (outcome before key)]

end Expiry

end DeadlineStore
end DistCache
