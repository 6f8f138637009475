import DistCache.CompactFailures

/-!
# What a crash leaves of the log

A record that `Append` has taken is in the buffer, in the file, or on the disk for
good, and only a flush and a sync that both succeed bring it there.  A crash takes
an end of the file away, but nothing that was on the disk for good.

What is left is read as a first part of the appended events, whatever calls have
failed before, and it has every event from before the last success: with `always`
these are all events whose `Append` has returned no error.
-/

namespace DistCache
namespace Persistence
namespace AOF

open BufferedWrites

def openAOF (policy : SyncPolicy) (file : Bytes) (calls : ℕ) : AOF :=
  ⟨.fresh file calls, policy, none⟩

def secures (fs : ℕ → Fate) (a : AOF) : Later → Bool
  | .append ev => a.policy = .always ∧ (a.append fs ev).2
  | .sync => (a.sync fs).2
  | .tick => (a.chan.flushSync fs).2

/-- The first `kept` bytes of the file have all that was ever synced. -/
def Spares (fs : ℕ → Fate) (a : AOF) (ops : List Later) (kept : ℕ) : Prop :=
  ∀ before op after, ops = before ++ op :: after → (a.later fs before).1.secures fs op = true →
    ((a.later fs before).1.apply fs op).1.chan.file.length ≤ kept

/-- The events have been handed to the log.  After an error of the writer a first part
of them is all that there will ever be. -/
structure Written (a : AOF) (events : List Event) : Prop where
  part : a.chan.stream <+: encodeAll events
  whole : a.chan.failed = false → a.chan.stream = encodeAll events

variable {fs : ℕ → Fate} {a : AOF} {events : List Event} {op : Later} {ops : List Later}

theorem Written.same (hwritten : Written a events) {b : AOF}
    (hstream : b.chan.stream = a.chan.stream)
    (hfailed : b.chan.failed = false → a.chan.failed = false) : Written b events :=
  ⟨hstream ▸ hwritten.part, fun h => hstream.trans (hwritten.whole (hfailed h))⟩

theorem Written.adds (hwritten : Written a events) {ev : Event} {c : Channel UInt8}
    (hadds : a.chan.Adds c (encodeRecord ev)) :
    Written { a with chan := c } (events ++ [ev]) := by
  have hall : encodeAll (events ++ [ev]) = encodeAll events ++ encodeRecord ev := by simp
  constructor
  · cases hfailed : a.chan.failed with
    | false =>
        have hpart := hadds.part hfailed
        rw [hwritten.whole hfailed, ← hall] at hpart
        exact hpart
    | true =>
        dsimp only
        rw [hadds.refused hfailed, hall]
        exact hwritten.part.trans (List.prefix_append _ _)
  · intro hok
    obtain ⟨hfailed, hstream⟩ := hadds.whole hok
    rw [hall, ← hwritten.whole hfailed]
    exact hstream

theorem Written.append (hwritten : Written a events) (fs : ℕ → Fate) (ev : Event) :
    Written (a.append fs ev).1 (events ++ [ev]) := by
  have hwrite := hwritten.adds (Channel.adds_write fs bufSize a.chan (encodeRecord ev))
  rw [AOF.append, onChan]
  unfold Channel.andThen
  split_ifs
  · cases a.policy with
    | always =>
        obtain ⟨hstream, hfailed⟩ := Channel.flushSync_same fs
          (a.chan.write fs bufSize (encodeRecord ev)).1
        exact hwrite.same hstream hfailed
    | no => exact hwrite.same rfl id
    | everySec => exact hwrite.same rfl id
  · exact hwrite

theorem Written.apply (hwritten : Written a events) (fs : ℕ → Fate) (op : Later) :
    Written (a.apply fs op).1 (events ++ appended [op]) := by
  cases op with
  | append ev => exact hwritten.append fs ev
  | sync =>
      obtain ⟨hstream, hfailed⟩ := Channel.flushSync_same fs a.chan
      rw [appended, List.filterMap_cons_none rfl, List.filterMap_nil, List.append_nil]
      exact hwritten.same hstream hfailed
  | tick =>
      obtain ⟨hstream, hfailed⟩ := Channel.flush_same fs a.chan
      obtain ⟨hcall, hsame⟩ := Channel.call_same fs (a.chan.flush fs).1
      rw [appended, List.filterMap_cons_none rfl, List.filterMap_nil, List.append_nil]
      exact hwritten.same (hcall.trans hstream) fun h => (hfailed (hsame.symm.trans h)).1

theorem appended_append (first second : List Later) :
    appended (first ++ second) = appended first ++ appended second :=
  List.filterMap_append

theorem Written.later (hwritten : Written a events) (fs : ℕ → Fate) (ops : List Later) :
    Written (a.later fs ops).1 (events ++ appended ops) := by
  induction ops generalizing a events with
  | nil =>
      rw [appended, List.filterMap_nil, List.append_nil]
      exact hwritten
  | cons op rest ih =>
      rw [← List.singleton_append, appended_append, ← List.append_assoc]
      exact ih (hwritten.apply fs op)

theorem buf_of_secures (hsecures : a.secures fs op = true) :
    (a.apply fs op).1.chan.buf = [] ∧ (a.apply fs op).1.chan.failed = false := by
  cases op with
  | append ev =>
      obtain ⟨hpolicy, hok⟩ := of_decide_eq_true hsecures
      obtain ⟨mid, _, hsync⟩ := Channel.andThen_eq_true.mp
        (chan_of_onChan (Prod.ext rfl hok : a.append fs ev = ((a.append fs ev).1, true)))
      rw [hpolicy] at hsync
      obtain ⟨_, hfailed, hbuf, _⟩ := Channel.flushSync_eq_true hsync
      exact ⟨hbuf, hfailed⟩
  | sync =>
      obtain ⟨_, hfailed, hbuf, _⟩ := Channel.flushSync_eq_true (Prod.ext rfl hsecures :
        a.chan.flushSync fs = ((a.chan.flushSync fs).1, true))
      exact ⟨hbuf, hfailed⟩
  | tick =>
      obtain ⟨mid, hflush, hcall⟩ := Channel.andThen_eq_true.mp (Prod.ext rfl hsecures :
        a.chan.flushSync fs = ((a.chan.flushSync fs).1, true))
      obtain ⟨hfailed, hbuf, _⟩ := Channel.flush_eq_true hflush
      obtain ⟨_, hbuf', hfailed'⟩ := Channel.same_of_call hcall
      simp only [AOF.apply, tick, hflush, hcall]
      exact ⟨hbuf'.trans hbuf, hfailed'.trans hfailed⟩

theorem file_of_secures (hwritten : Written a events) (hsecures : a.secures fs op = true) :
    (a.apply fs op).1.chan.file = encodeAll (events ++ appended [op]) := by
  obtain ⟨hbuf, hfailed⟩ := buf_of_secures hsecures
  have hstream := (hwritten.apply fs op).whole hfailed
  rw [Channel.stream, hbuf, List.append_nil] at hstream
  exact hstream

/-- However the file system fails, and wherever the crash cuts the file behind what was
synced: the appended events are read back up to some point, which is not before the
last success. -/
theorem log_survives_crash {policy : SyncPolicy} {old : List Event} {calls kept : ℕ}
    (hfits : ∀ ev ∈ old ++ appended ops, ev.Fits)
    (hkept : kept ≤ ((openAOF policy (encodeAll old) calls).later fs ops).1.chan.file.length)
    (hspares : Spares fs (openAOF policy (encodeAll old) calls) ops kept) :
    let log := openAOF policy (encodeAll old) calls
    ∃ got, readAOF ((log.later fs ops).1.chan.file.take kept) = ⟨got, false⟩ ∧
      got <+: old ++ appended ops ∧
      ∀ before op after, ops = before ++ op :: after →
        (log.later fs before).1.secures fs op = true →
          old ++ appended (before ++ [op]) <+: got := by
  intro log
  have hopen : Written log old := by
    have hstream : log.chan.stream = encodeAll old := List.append_nil _
    exact ⟨hstream ▸ List.prefix_rfl, fun _ => hstream⟩
  have hfile : (log.later fs ops).1.chan.file <+: encodeAll (old ++ appended ops) :=
    (List.prefix_append _ _).trans (hopen.later fs ops).part
  obtain ⟨got, hgot, hread⟩ := readAOF_take hfits kept
  refine ⟨got, ?_, hgot.part, ?_⟩
  · obtain ⟨rest, hrest⟩ := hfile
    rw [← hrest, List.take_append_of_le_length hkept] at hread
    exact hread
  · intro before op after hops hsecures
    have hlength := hspares before op after hops hsecures
    rw [file_of_secures (hopen.later fs before) hsecures, List.append_assoc,
      ← appended_append] at hlength
    refine hgot.longest _ ?_ hlength
    have hsplit : ops = before ++ [op] ++ after := by simp [hops]
    rw [hsplit, appended_append _ after, ← List.append_assoc]
    exact List.prefix_append _ _

def tornOps : List Later := [.append (.del [97]), .sync, .append (.set [98] [49] 7), .tick]

theorem log_survives_crash_torn :
    ∃ got, readAOF (((openAOF .no [] 0).later (failAt 3) tornOps).1.chan.file.take 50) =
      ⟨got, false⟩ ∧ [.del [97]] <+: got := by
  have hfits : ∀ ev ∈ [] ++ appended tornOps, ev.Fits := by
    intro ev hmem
    rcases List.mem_pair.mp hmem with rfl | rfl
    · exact ⟨by decide, by decide, by decide, by decide⟩
    · exact ⟨by decide, by decide, by decide, by decide⟩
  have hspares : Spares (failAt 3) (openAOF .no (encodeAll []) 0) tornOps 50 := by
    intro before op after hops
    rcases before with _ | ⟨_, _ | ⟨_, _ | ⟨_, _ | ⟨_, _ | ⟨_, _⟩⟩⟩⟩⟩ <;> cases hops <;>
      decide +kernel
  obtain ⟨got, hread, _, hsecured⟩ := log_survives_crash hfits (by decide +kernel) hspares
  exact ⟨got, hread, hsecured [.append (.del [97])] .sync _ rfl (by decide +kernel)⟩

end AOF
end Persistence
end DistCache
