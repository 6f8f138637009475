import Mathlib.Tactic

/-!
# A buffered writer on a file that may fail

A writer collects what is written to it and hands it to a file in larger pieces.
Every call of the file may fail, a write also after some of its bytes; `fs` says
what becomes of the call with a number.  A call on a closed handle fails by itself
and does not come to the file system.

The writer keeps its first error.  As long as it has none, what has been written
is in the file or in the buffer, in this order.
-/

namespace DistCache
namespace BufferedWrites

variable {β : Type*}

/-- What becomes of a call; a write that fails may have written some of its bytes. -/
inductive Fate where
  | done
  | cut (n : ℕ)
  deriving DecidableEq, Repr

structure Channel (β : Type*) where
  file : List β
  live : Bool
  buf : List β
  failed : Bool
  calls : ℕ

namespace Channel

def fresh (file : List β) (calls : ℕ) : Channel β := ⟨file, true, [], false, calls⟩

def call (fs : ℕ → Fate) (c : Channel β) : Channel β × Bool :=
  if c.live then ({ c with calls := c.calls + 1 }, fs c.calls = .done) else (c, false)

/-- A write of the file; when it fails, the number of bytes that it has written. -/
def put (fs : ℕ → Fate) (c : Channel β) (p : List β) : Channel β × Option ℕ :=
  if c.live then
    match fs c.calls with
    | .done => ({ c with file := c.file ++ p, calls := c.calls + 1 }, none)
    | .cut n => ({ c with file := c.file ++ p.take n, calls := c.calls + 1 }, some n)
  else (c, some 0)

def flush (fs : ℕ → Fate) (c : Channel β) : Channel β × Bool :=
  if c.failed then (c, false)
  else if c.buf.isEmpty then (c, true)
  else
    match c.put fs c.buf with
    | (after, none) => ({ after with buf := [] }, true)
    | (after, some n) => ({ after with buf := c.buf.drop n, failed := true }, false)

/-- A piece that is larger than the buffer goes to the file directly. -/
def writeThrough (fs : ℕ → Fate) (c : Channel β) (p : List β) : Channel β × Bool :=
  match c.put fs p with
  | (after, none) => (after, true)
  | (after, some _) => ({ after with failed := true }, false)

def push (c : Channel β) (p : List β) : Channel β := { c with buf := c.buf ++ p }

def andThen (r : Channel β × Bool) (f : Channel β → Channel β × Bool) : Channel β × Bool :=
  if r.2 then f r.1 else r

def writeRest (fs : ℕ → Fate) (size : ℕ) (c : Channel β) (p : List β) : Channel β × Bool :=
  if p.length ≤ size then (c.push p, true) else c.writeThrough fs p

/-- The buffer has `size` bytes.  It is filled up and flushed when the piece does not
fit, and is empty then. -/
def write (fs : ℕ → Fate) (size : ℕ) (c : Channel β) (p : List β) : Channel β × Bool :=
  if c.failed then (c, false)
  else if p.length ≤ size - c.buf.length then (c.push p, true)
  else if c.buf.isEmpty then c.writeThrough fs p
  else
    andThen ((c.push (p.take (size - c.buf.length))).flush fs) fun after =>
      after.writeRest fs size (p.drop (size - c.buf.length))

def flushSync (fs : ℕ → Fate) (c : Channel β) : Channel β × Bool :=
  andThen (c.flush fs) (call fs)

def stream (c : Channel β) : List β := c.file ++ c.buf

def Smooth (fs : ℕ → Fate) (c : Channel β) : Prop := ∀ n, c.calls ≤ n → fs n = .done

/-! ## The single calls -/

structure Onward (c next : Channel β) : Prop where
  live : next.live = c.live
  calls : c.calls ≤ next.calls
  dead : c.live = false → next.file = c.file

variable {fs : ℕ → Fate} {size : ℕ} {c next last : Channel β} {p : List β}

theorem Onward.refl (c : Channel β) : Onward c c := ⟨rfl, le_rfl, fun _ => rfl⟩

theorem Onward.trans (hfirst : Onward c next) (hsecond : Onward next last) : Onward c last where
  live := hsecond.live.trans hfirst.live
  calls := hfirst.calls.trans hsecond.calls
  dead := fun hdead =>
    (hsecond.dead (hfirst.live.trans hdead)).trans (hfirst.dead hdead)

theorem Smooth.onward (hsmooth : Smooth fs c) (honward : Onward c next) : Smooth fs next :=
  fun n hn => hsmooth n (honward.calls.trans hn)

theorem onward_put (fs : ℕ → Fate) (c : Channel β) (p : List β) :
    Onward c (c.put fs p).1 := by
  unfold put
  split_ifs with hlive
  · split
    · exact ⟨rfl, Nat.le_succ _, fun hdead => absurd (hdead.symm.trans hlive) Bool.false_ne_true⟩
    · exact ⟨rfl, Nat.le_succ _, fun hdead => absurd (hdead.symm.trans hlive) Bool.false_ne_true⟩
  · exact .refl c

theorem onward_call (fs : ℕ → Fate) (c : Channel β) : Onward c (c.call fs).1 := by
  unfold call
  split_ifs
  · exact ⟨rfl, Nat.le_succ _, fun _ => rfl⟩
  · exact .refl c

theorem put_of_smooth (hsmooth : Smooth fs c) (hlive : c.live = true) (p : List β) :
    c.put fs p = ({ c with file := c.file ++ p, calls := c.calls + 1 }, none) := by
  rw [put, if_pos hlive, hsmooth c.calls le_rfl]

theorem call_of_smooth (hsmooth : Smooth fs c) (hlive : c.live = true) :
    c.call fs = ({ c with calls := c.calls + 1 }, true) := by
  rw [call, if_pos hlive, hsmooth c.calls le_rfl]
  rfl

theorem live_of_call (hcall : c.call fs = (next, true)) : c.live = true := by
  unfold call at hcall
  split_ifs at hcall with hlive
  · exact hlive
  · exact absurd (congrArg Prod.snd hcall) Bool.false_ne_true

theorem call_eq (hlive : c.live = true) :
    (c.call fs).1 = { c with calls := c.calls + 1 } := by
  rw [call, if_pos hlive]

theorem same_of_call {ok : Bool} (hcall : c.call fs = (next, ok)) :
    next.file = c.file ∧ next.buf = c.buf ∧ next.failed = c.failed := by
  have hnext := congrArg Prod.fst hcall
  unfold call at hnext
  split_ifs at hnext
  · subst hnext
    exact ⟨rfl, rfl, rfl⟩
  · subst hnext
    exact ⟨rfl, rfl, rfl⟩

/-! ## The writer -/

theorem onward_flush (fs : ℕ → Fate) (c : Channel β) : Onward c (c.flush fs).1 := by
  have honward := onward_put fs c c.buf
  unfold flush
  split_ifs
  · exact .refl c
  · exact .refl c
  · split
    · rename_i after hput
      rw [hput] at honward
      exact ⟨honward.live, honward.calls, honward.dead⟩
    · rename_i after n hput
      rw [hput] at honward
      exact ⟨honward.live, honward.calls, honward.dead⟩

theorem onward_writeThrough (fs : ℕ → Fate) (c : Channel β) (p : List β) :
    Onward c (c.writeThrough fs p).1 := by
  have honward := onward_put fs c p
  unfold writeThrough
  split
  · rename_i after hput
    rw [hput] at honward
    exact honward
  · rename_i after n hput
    rw [hput] at honward
    exact ⟨honward.live, honward.calls, honward.dead⟩

theorem onward_push (c : Channel β) (p : List β) : Onward c (c.push p) :=
  ⟨rfl, le_rfl, fun _ => rfl⟩

theorem onward_andThen {r : Channel β × Bool} {f : Channel β → Channel β × Bool}
    (hfirst : Onward c r.1) (hsecond : ∀ d, Onward d (f d).1) : Onward c (andThen r f).1 := by
  unfold andThen
  split_ifs
  · exact hfirst.trans (hsecond r.1)
  · exact hfirst

theorem onward_writeRest (fs : ℕ → Fate) (size : ℕ) (c : Channel β) (p : List β) :
    Onward c (c.writeRest fs size p).1 := by
  unfold writeRest
  split_ifs
  · exact onward_push c p
  · exact onward_writeThrough fs c p

theorem onward_write (fs : ℕ → Fate) (size : ℕ) (c : Channel β) (p : List β) :
    Onward c (c.write fs size p).1 := by
  unfold write
  split_ifs
  · exact .refl c
  · exact onward_push c p
  · exact onward_writeThrough fs c p
  · exact onward_andThen ((onward_push c _).trans (onward_flush fs _))
      fun after => onward_writeRest fs size after _

theorem onward_flushSync (fs : ℕ → Fate) (c : Channel β) : Onward c (c.flushSync fs).1 :=
  onward_andThen (onward_flush fs c) (onward_call fs)

theorem andThen_eq_true {r : Channel β × Bool} {f : Channel β → Channel β × Bool} :
    andThen r f = (next, true) ↔ ∃ mid, r = (mid, true) ∧ f mid = (next, true) := by
  obtain ⟨mid, ok⟩ := r
  cases ok with
  | true => simp [andThen]
  | false => simp [andThen]

/-! ## Calls that succeed -/

theorem flush_eq_true (hflush : c.flush fs = (next, true)) :
    next.failed = false ∧ next.buf = [] ∧ next.file = c.stream := by
  unfold flush at hflush
  split_ifs at hflush with hfailed hempty
  · exact absurd (congrArg Prod.snd hflush) Bool.false_ne_true
  · have hnext : c = next := congrArg Prod.fst hflush
    have hbuf := List.isEmpty_iff.mp hempty
    subst hnext
    exact ⟨Bool.eq_false_iff.mpr hfailed, hbuf, by rw [stream, hbuf, List.append_nil]⟩
  · unfold put at hflush
    split_ifs at hflush
    · cases houtcome : fs c.calls with
      | done =>
          rw [houtcome] at hflush
          have hnext := congrArg Prod.fst hflush
          subst hnext
          exact ⟨Bool.eq_false_iff.mpr hfailed, rfl, rfl⟩
      | cut n =>
          rw [houtcome] at hflush
          exact absurd (congrArg Prod.snd hflush) Bool.false_ne_true
    · exact absurd (congrArg Prod.snd hflush) Bool.false_ne_true

theorem flushSync_eq_true (hsync : c.flushSync fs = (next, true)) :
    c.live = true ∧ next.failed = false ∧ next.buf = [] ∧ next.file = c.stream := by
  obtain ⟨mid, hflush, hcall⟩ := andThen_eq_true.mp hsync
  obtain ⟨hfailed, hbuf, hfile⟩ := flush_eq_true hflush
  obtain ⟨hfile', hbuf', hfailed'⟩ := same_of_call hcall
  have honward := onward_flush fs c
  rw [hflush] at honward
  exact ⟨honward.live.symm.trans (live_of_call hcall), hfailed'.trans hfailed, hbuf'.trans hbuf,
    hfile'.trans hfile⟩

theorem writeThrough_eq_true (hfailed : c.failed = false) (hempty : c.buf = [])
    (hwrite : c.writeThrough fs p = (next, true)) :
    next.failed = false ∧ next.stream = c.stream ++ p := by
  unfold writeThrough put at hwrite
  split_ifs at hwrite
  · cases houtcome : fs c.calls with
    | done =>
        rw [houtcome] at hwrite
        have hnext := congrArg Prod.fst hwrite
        subst hnext
        exact ⟨hfailed, by simp [stream, hempty]⟩
    | cut n =>
        rw [houtcome] at hwrite
        exact absurd (congrArg Prod.snd hwrite) Bool.false_ne_true
  · exact absurd (congrArg Prod.snd hwrite) Bool.false_ne_true

theorem stream_push (c : Channel β) (p : List β) : (c.push p).stream = c.stream ++ p :=
  (List.append_assoc c.file c.buf p).symm

theorem writeRest_eq_true (hfailed : c.failed = false) (hempty : c.buf = [])
    (hwrite : c.writeRest fs size p = (next, true)) :
    next.failed = false ∧ next.stream = c.stream ++ p := by
  unfold writeRest at hwrite
  split_ifs at hwrite
  · have hnext : c.push p = next := congrArg Prod.fst hwrite
    subst hnext
    exact ⟨hfailed, stream_push c p⟩
  · exact writeThrough_eq_true hfailed hempty hwrite

theorem write_eq_true (hwrite : c.write fs size p = (next, true)) :
    next.failed = false ∧ next.stream = c.stream ++ p := by
  unfold write at hwrite
  split_ifs at hwrite with hfailed hfits hempty
  · exact absurd (congrArg Prod.snd hwrite) Bool.false_ne_true
  · have hnext : c.push p = next := congrArg Prod.fst hwrite
    subst hnext
    exact ⟨Bool.eq_false_iff.mpr hfailed, stream_push c p⟩
  · exact writeThrough_eq_true (Bool.eq_false_iff.mpr hfailed) (List.isEmpty_iff.mp hempty) hwrite
  · obtain ⟨mid, hflush, hrest⟩ := andThen_eq_true.mp hwrite
    obtain ⟨hmid, hbuf, hfile⟩ := flush_eq_true hflush
    obtain ⟨hnext, hstream⟩ := writeRest_eq_true hmid hbuf hrest
    have hstart : mid.stream = c.stream ++ p.take (size - c.buf.length) := by
      rw [stream, hbuf, List.append_nil, hfile, stream_push]
    refine ⟨hnext, ?_⟩
    rw [hstream, hstart, List.append_assoc, List.take_append_drop]

/-! ## A file system that fails no call -/

theorem flush_of_smooth (hsmooth : Smooth fs c) (hlive : c.live = true)
    (hfailed : c.failed = false) : ∃ after, c.flush fs = (after, true) := by
  unfold flush
  rw [if_neg (by rw [hfailed]; decide)]
  split_ifs
  · exact ⟨c, rfl⟩
  · rw [put_of_smooth hsmooth hlive]
    exact ⟨_, rfl⟩

theorem flushSync_of_smooth (hsmooth : Smooth fs c) (hlive : c.live = true)
    (hfailed : c.failed = false) : ∃ after, c.flushSync fs = (after, true) := by
  obtain ⟨mid, hflush⟩ := flush_of_smooth hsmooth hlive hfailed
  have honward := onward_flush fs c
  rw [hflush] at honward
  have hcall := call_of_smooth (hsmooth.onward honward) (honward.live.trans hlive)
  exact ⟨_, andThen_eq_true.mpr ⟨mid, hflush, hcall⟩⟩

theorem writeThrough_of_smooth (hsmooth : Smooth fs c) (hlive : c.live = true) (p : List β) :
    ∃ after, c.writeThrough fs p = (after, true) := by
  unfold writeThrough
  rw [put_of_smooth hsmooth hlive]
  exact ⟨_, rfl⟩

theorem writeRest_of_smooth (hsmooth : Smooth fs c) (hlive : c.live = true) (p : List β) :
    ∃ after, c.writeRest fs size p = (after, true) := by
  unfold writeRest
  split_ifs
  · exact ⟨_, rfl⟩
  · exact writeThrough_of_smooth hsmooth hlive p

theorem write_of_smooth (hsmooth : Smooth fs c) (hlive : c.live = true)
    (hfailed : c.failed = false) (size : ℕ) (p : List β) :
    ∃ after, c.write fs size p = (after, true) := by
  unfold write
  rw [if_neg (by rw [hfailed]; decide)]
  split_ifs
  · exact ⟨_, rfl⟩
  · exact writeThrough_of_smooth hsmooth hlive p
  · obtain ⟨mid, hflush⟩ : ∃ mid, (c.push (p.take (size - c.buf.length))).flush fs = (mid, true) :=
      flush_of_smooth hsmooth hlive hfailed
    have honward := (onward_push c (p.take (size - c.buf.length))).trans (onward_flush fs _)
    rw [hflush] at honward
    rw [hflush]
    exact writeRest_of_smooth (hsmooth.onward honward) (honward.live.trans hlive) _

theorem write_of_fits (hfailed : c.failed = false) (hfits : p.length ≤ size - c.buf.length) :
    c.write fs size p = (c.push p, true) := by
  rw [write, if_neg (by rw [hfailed]; decide), if_pos hfits]

/-! ## Calls that may fail -/

theorem flush_same (fs : ℕ → Fate) (c : Channel β) :
    (c.flush fs).1.stream = c.stream ∧
      ((c.flush fs).1.failed = false → c.failed = false ∧ (c.flush fs).2 = true) := by
  unfold flush put
  split_ifs with hfailed hempty hlive
  · exact ⟨rfl, fun h => absurd (hfailed.symm.trans h) (by decide)⟩
  · exact ⟨rfl, fun h => ⟨h, rfl⟩⟩
  · cases fs c.calls with
    | done => exact ⟨by simp [stream], fun h => ⟨h, rfl⟩⟩
    | cut n => exact ⟨by simp [stream], fun h => absurd h.symm Bool.false_ne_true⟩
  · exact ⟨rfl, False.elim⟩

theorem call_same (fs : ℕ → Fate) (c : Channel β) :
    (c.call fs).1.stream = c.stream ∧ (c.call fs).1.failed = c.failed := by
  unfold call
  split_ifs <;> exact ⟨rfl, rfl⟩

theorem flushSync_same (fs : ℕ → Fate) (c : Channel β) :
    (c.flushSync fs).1.stream = c.stream ∧
      ((c.flushSync fs).1.failed = false → c.failed = false) := by
  obtain ⟨hstream, hfailed⟩ := flush_same fs c
  unfold flushSync andThen
  split_ifs
  · obtain ⟨hcall, hsame⟩ := call_same fs (c.flush fs).1
    exact ⟨hcall.trans hstream, fun h => (hfailed (hsame.symm.trans h)).1⟩
  · exact ⟨hstream, fun h => (hfailed h).1⟩

structure Adds (c next : Channel β) (p : List β) : Prop where
  part : c.failed = false → next.stream <+: c.stream ++ p
  whole : next.failed = false → c.failed = false ∧ next.stream = c.stream ++ p
  refused : c.failed = true → next.stream = c.stream

theorem adds_of_part (hfailed : c.failed = false) (hpart : next.stream <+: c.stream ++ p)
    (hwhole : next.failed = false → next.stream = c.stream ++ p) : Adds c next p :=
  ⟨fun _ => hpart, fun h => ⟨hfailed, hwhole h⟩, fun h => absurd (hfailed.symm.trans h) (by decide)⟩

theorem adds_push (hfailed : c.failed = false) (p : List β) : Adds c (c.push p) p :=
  adds_of_part hfailed (stream_push c p ▸ List.prefix_rfl) fun _ => stream_push c p

theorem adds_writeThrough (hfailed : c.failed = false) (hempty : c.buf = []) (fs : ℕ → Fate)
    (p : List β) : Adds c (c.writeThrough fs p).1 p := by
  unfold writeThrough put
  split_ifs with hlive
  · cases fs c.calls with
    | done => apply adds_of_part hfailed <;> simp [stream, hempty]
    | cut n => apply adds_of_part hfailed <;> simp [stream, hempty, List.take_prefix]
  · apply adds_of_part hfailed <;> simp [stream, hempty]

theorem adds_writeRest (hfailed : c.failed = false) (hempty : c.buf = []) (fs : ℕ → Fate)
    (size : ℕ) (p : List β) : Adds c (c.writeRest fs size p).1 p := by
  unfold writeRest
  split_ifs
  · exact adds_push hfailed p
  · exact adds_writeThrough hfailed hempty fs p

theorem adds_write (fs : ℕ → Fate) (size : ℕ) (c : Channel β) (p : List β) :
    Adds c (c.write fs size p).1 p := by
  unfold write
  split_ifs with hfailed hfits hempty
  · exact ⟨fun _ => List.prefix_append _ _, fun h => absurd (hfailed.symm.trans h) (by decide),
      fun _ => rfl⟩
  · exact adds_push (Bool.eq_false_iff.mpr hfailed) p
  · exact adds_writeThrough (Bool.eq_false_iff.mpr hfailed) (List.isEmpty_iff.mp hempty) fs p
  · have hnot := Bool.eq_false_iff.mpr hfailed
    obtain ⟨hstream, hnext⟩ := flush_same fs (c.push (p.take (size - c.buf.length)))
    rw [stream_push] at hstream
    unfold andThen
    split_ifs with hok
    · obtain ⟨hmid, hbuf, -⟩ := flush_eq_true (Prod.ext rfl hok)
      have hrest := adds_writeRest hmid hbuf fs size (p.drop (size - c.buf.length))
      have hpart := hrest.part hmid
      rw [hstream, List.append_assoc, List.take_append_drop] at hpart
      refine adds_of_part hnot hpart fun h => ?_
      rw [(hrest.whole h).2, hstream, List.append_assoc, List.take_append_drop]
    · refine adds_of_part hnot ?_ fun h => absurd (hnext h).2 hok
      rw [hstream]
      exact (List.prefix_append_right_inj _).mpr (List.take_prefix _ p)

end Channel
end BufferedWrites
end DistCache
