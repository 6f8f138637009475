import DistCache.PolicyLedger

/-!
# The frequencies of lfu

`lfu` keeps a list of keys for each frequency, in the order of their last use, and the
smallest frequency.  That number is not always exact, but it never exceeds the frequency
of a key, and this is what the eviction needs: its list, if it is not empty, is the list
of the least frequent keys.
-/

namespace DistCache
namespace Eviction
namespace Lfu

open Recency

def touchedAt (record : Key → Option Record) (n : ℕ) (key : Key) : Option ℕ :=
  (record key).bind fun r => if r.freq = n then some r.touched else none

theorem touchedAt_update (record : Key → Option Record) (n : ℕ) (key : Key)
    (entry : Option Record) :
    touchedAt (Function.update record key entry) n =
      Function.update (touchedAt record n) key
        (entry.bind fun r => if r.freq = n then some r.touched else none) := by
  funext other
  by_cases hother : other = key
  · subst other
    simp [touchedAt]
  · simp [touchedAt, hother]

structure Recorded (p : Lfu) (record : Key → Option Record) : Prop where
  wf : p.Wf
  freq : ∀ key, p.nodes.lookup key = (record key).map Record.freq
  touched : ∀ n, Stamped (touchedAt record n) (p.bucket n)
  minFreq_le : ∀ key r, record key = some r → p.minFreq ≤ r.freq

namespace Recorded

variable {p : Lfu} {record : Key → Option Record} {key : Key} {n : ℕ}

theorem lookup (hrecorded : p.Recorded record) {r : Record} (hrecord : record key = some r) :
    p.nodes.lookup key = some r.freq := by
  rw [hrecorded.freq, hrecord]
  rfl

theorem takeOut (hrecorded : p.Recorded record) (hlookup : p.nodes.lookup key = some n)
    {minFreq : ℕ}
    (hmin : ∀ other r, other ≠ key → record other = some r → minFreq ≤ r.freq) :
    Recorded
      { p.putBucket n ((p.bucket n).erase key) with
        nodes := p.nodes.erase key, minFreq := minFreq }
      (Function.update record key none) := by
  constructor
  · exact hrecorded.wf.takeOut hlookup minFreq
  · exact lookup_erase_update hrecorded.freq key
  · intro m
    have hbucket : (p.putBucket n ((p.bucket n).erase key)).bucket m =
        (p.bucket m).erase key := by
      rw [bucket_putBucket]
      split_ifs with hm
      · rw [hm]
      · have hnot : key ∉ p.bucket m := by
          rw [hrecorded.wf.lists.mem_iff, hlookup, Option.some.injEq]
          exact Ne.symm hm
        rw [List.erase_of_not_mem hnot]
    have hstamped := (hrecorded.touched m).erase key
    rw [← hbucket] at hstamped
    rw [touchedAt_update]
    exact hstamped
  · intro other r hrecord
    by_cases hother : other = key
    · simp [hother] at hrecord
    · rw [Function.update_of_ne hother] at hrecord
      exact hmin other r hother hrecord

theorem putIn (hrecorded : p.Recorded record) (hnone : record key = none) (r : Record)
    (hlatest : ∀ other s, record other = some s → s.touched < r.touched) {minFreq : ℕ}
    (hnew : minFreq ≤ r.freq) (hmin : ∀ other s, record other = some s → minFreq ≤ s.freq) :
    Recorded
      ⟨p.nodes.insert key r.freq, p.freqBuckets.insert r.freq (p.bucket r.freq ++ [key]), minFreq⟩
      (Function.update record key (some r)) := by
  have hlookup : p.nodes.lookup key = none := by
    rw [hrecorded.freq, hnone]
    rfl
  have habsent : ∀ m, touchedAt record m key = none := fun m => by simp [touchedAt, hnone]
  constructor
  · exact hrecorded.wf.putIn hlookup r.freq minFreq
  · exact lookup_insert_update hrecorded.freq key r
  · intro m
    rw [touchedAt_update, bucket_insert, Option.bind_some]
    by_cases hm : m = r.freq
    · subst m
      rw [if_pos rfl, if_pos rfl]
      have hnot : key ∉ p.bucket r.freq := by
        rw [hrecorded.wf.lists.mem_iff, hlookup]
        exact (Option.some_ne_none _).symm
      have htime : ∀ other t, touchedAt record r.freq other = some t → t < r.touched := by
        intro other t ht
        obtain ⟨s, hs, hcase⟩ := Option.bind_eq_some_iff.mp ht
        split_ifs at hcase
        rw [← Option.some.inj hcase]
        exact hlatest other s hs
      have hstamped := (hrecorded.touched r.freq).last htime key
      rwa [List.erase_of_not_mem hnot] at hstamped
    · rw [if_neg hm, if_neg (Ne.symm hm), Function.update_eq_self_iff.mpr (habsent m).symm]
      exact hrecorded.touched m
  · intro other s hrecord
    by_cases hother : other = key
    · rw [hother, Function.update_self, Option.some.injEq] at hrecord
      exact hrecord ▸ hnew
    · rw [Function.update_of_ne hother] at hrecord
      exact hmin other s hrecord

theorem congr {other : Key → Option Record} (hrecorded : p.Recorded record)
    (hsame : other = record) : p.Recorded other := hsame ▸ hrecorded

theorem remove (hrecorded : p.Recorded record) (key : Key) :
    (p.remove key).Recorded (Function.update record key none) := by
  unfold Lfu.remove
  cases hlookup : p.nodes.lookup key with
  | none =>
      have hnone : record key = none := by
        rw [hrecorded.freq] at hlookup
        exact Option.map_eq_none_iff.mp hlookup
      exact hrecorded.congr (Function.update_eq_self_iff.mpr hnone.symm)
  | some n =>
      exact hrecorded.takeOut hlookup fun other r _ hrecord =>
        hrecorded.minFreq_le other r hrecord

theorem move (hrecorded : p.Recorded record) {r : Record} (hrecord : record key = some r)
    {now minFreq : ℕ} (hnow : ∀ other s, record other = some s → s.touched < now)
    (hnew : minFreq ≤ r.freq + 1)
    (hmin : ∀ other s, other ≠ key → record other = some s → minFreq ≤ s.freq) :
    (p.moved key r.freq minFreq).Recorded (Function.update record key
      (some { r with touched := now, freq := r.freq + 1 })) := by
  have hlookup := hrecorded.lookup hrecord
  have hothers : ∀ other s, Function.update record key none other = some s →
      other ≠ key ∧ record other = some s := by
    intro other s hs
    by_cases hother : other = key
    · simp [hother] at hs
    · rw [Function.update_of_ne hother] at hs
      exact ⟨hother, hs⟩
  have hout := hrecorded.takeOut hlookup hmin
  have hin := hout.putIn (Function.update_self key none record)
    { r with touched := now, freq := r.freq + 1 }
    (fun other s hs => hnow other s (hothers other s hs).2) hnew
    (fun other s hs => hmin other s (hothers other s hs).1 (hothers other s hs).2)
  simp only [insert_erase, Function.update_idem] at hin
  exact hin

theorem access (hrecorded : p.Recorded record) {r : Record} (hrecord : record key = some r)
    {now : ℕ} (hnow : ∀ other s, record other = some s → s.touched < now) :
    (p.access key).Recorded (Function.update record key
      (some { r with touched := now, freq := r.freq + 1 })) := by
  rw [access_eq_moved (hrecorded.lookup hrecord)]
  split_ifs with hempty
  · apply hrecorded.move hrecord hnow le_rfl
    intro other s hother hs
    have hle := hrecorded.minFreq_le other s hs
    have hne : s.freq ≠ r.freq := by
      intro heq
      have hbucket : other ∈ p.bucket r.freq := by
        rw [hrecorded.wf.lists.mem_iff, hrecorded.lookup hs, heq]
      have hleft := (List.mem_erase_of_ne hother).mpr hbucket
      rw [hempty.1] at hleft
      exact List.not_mem_nil hleft
    omega
  · apply hrecorded.move hrecord hnow
    · have hle := hrecorded.minFreq_le key r hrecord
      omega
    · intro other s _ hs
      exact hrecorded.minFreq_le other s hs

theorem add_new (hrecorded : p.Recorded record) (hnone : record key = none) (r : Record)
    (hfreq : r.freq = 1) (hlatest : ∀ other s, record other = some s → s.touched < r.touched)
    (hpos : ∀ other s, record other = some s → 1 ≤ s.freq) :
    (p.add key).Recorded (Function.update record key (some r)) := by
  have hnot : key ∉ p.nodes := by
    rw [← AList.lookup_eq_none, hrecorded.freq, hnone]
    rfl
  have hin := hrecorded.putIn hnone r hlatest hfreq.ge hpos
  simp only [Lfu.add, if_neg hnot]
  rwa [hfreq] at hin

/-! ## Evictions -/

theorem recomputeMinFreq (hrecorded : p.Recorded record) :
    p.recomputeMinFreq.Recorded record := by
  refine ⟨hrecorded.wf.recomputeMinFreq, hrecorded.freq, hrecorded.touched, ?_⟩
  intro other r hrecord
  have hmem := AList.mem_keys.mp (hrecorded.wf.mem_freqBuckets (hrecorded.lookup hrecord))
  simp only [Lfu.recomputeMinFreq]
  cases hmin : p.freqBuckets.keys.min? with
  | none => exact Nat.zero_le _
  | some least => exact (List.min?_eq_some_iff.mp hmin).2 r.freq hmem

theorem evictFront (hrecorded : p.Recorded record) {victim : Key}
    (hevict : p.evictFront.1 = some victim) :
    p.evictFront.2.Recorded (Function.update record victim none) ∧
      ∃ r, record victim = some r ∧ ∀ key s, record key = some s → key ≠ victim →
        r.freq < s.freq ∨ r.freq = s.freq ∧ r.touched < s.touched := by
  obtain ⟨hhead, hlookup, hafter⟩ := hrecorded.wf.evictFront_eq hevict
  constructor
  · rw [hafter]
    exact hrecorded.takeOut hlookup fun other r _ hrecord =>
      hrecorded.minFreq_le other r hrecord
  · rw [hrecorded.freq] at hlookup
    obtain ⟨r, hrecord, hfreq⟩ := Option.map_eq_some_iff.mp hlookup
    refine ⟨r, hrecord, ?_⟩
    intro key s hs hne
    obtain ⟨rest, hbucket⟩ := List.head?_eq_some_iff.mp hhead
    have hstamped := hrecorded.touched p.minFreq
    rw [hbucket] at hstamped
    obtain ⟨m, hm, hfirst⟩ := hstamped.first
    simp only [touchedAt, hrecord, Option.bind_some, if_pos hfreq, Option.some.injEq] at hm
    have hle := hrecorded.minFreq_le key s hs
    rcases Nat.lt_or_eq_of_le hle with hlt | heq
    · left
      omega
    · right
      refine ⟨by omega, ?_⟩
      rw [hm]
      apply hfirst key s.touched _ hne
      simp only [touchedAt, hs, Option.bind_some, if_pos heq.symm]

theorem evict_some (hrecorded : p.Recorded record) {victim : Key}
    (hevict : p.evict.1 = some victim) :
    p.evict.2.Recorded (Function.update record victim none) ∧
      ∃ r, record victim = some r ∧ ∀ key s, record key = some s → key ≠ victim →
        r.freq < s.freq ∨ r.freq = s.freq ∧ r.touched < s.touched := by
  unfold Lfu.evict at hevict ⊢
  split_ifs at hevict ⊢
  · exact hrecorded.recomputeMinFreq.evictFront hevict
  · exact hrecorded.evictFront hevict

end Recorded
end Lfu
end Eviction
end DistCache
