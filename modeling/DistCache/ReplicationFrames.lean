import DistCache.EventCodec
import DistCache.RespCommands

/-!
# The frames of the replication stream

The primary writes every event as a frame: a type, the length of the payload and
the payload.  The replica refuses a frame above `maxFrame` and gives the
connection up.  The limit is twice the largest argument of a command, which
leaves no room for the header of the event: a key and a value of almost that
size are accepted from a client and cannot be replicated.
-/

namespace DistCache
namespace Replication

open BigEndian Persistence

def frameEvent : UInt8 := 1

def frameSynced : UInt8 := 2

def writeFrame (typ : UInt8) (payload : Bytes) : Bytes :=
  [typ] ++ (encode 4 payload.length ++ payload)

inductive FrameError where
  | read (err : Resp.ReadError)
  | errFrameTooLarge
  | errBadEvent
  | panicked
  deriving DecidableEq, Repr

def readFrame (input : Bytes) : Except FrameError ((UInt8 × Bytes) × Bytes) :=
  match Resp.readFull 5 input with
  | .error err => .error (.read err)
  | .ok (hdr, rest) =>
      let n := decode (hdr.drop 1)
      if maxFrame < n then .error .errFrameTooLarge
      else if n = 0 then .ok ((hdr.headD 0, []), rest)
      else
        match Resp.readFull n rest with
        | .error err => .error (.read err)
        | .ok (p, rest) => .ok ((hdr.headD 0, p), rest)

def u64Bytes (n : ℕ) : Bytes := encode 8 n

def readU64 (p : Bytes) : Option ℕ := if p.length ≠ 8 then none else some (decode p)

inductive Received where
  | event (ev : Event)
  | synced (seq : Option ℕ)
  | other
  deriving DecidableEq, Repr

def receive (input : Bytes) : Except FrameError (Received × Bytes) :=
  match readFrame input with
  | .error err => .error err
  | .ok ((typ, payload), rest) =>
      if typ = frameEvent then
        match decodeEvent payload with
        | .event ev => .ok (.event ev, rest)
        | .errBadEvent => .error .errBadEvent
        | .panicked => .error .panicked
      else if typ = frameSynced then .ok (.synced (readU64 payload), rest)
      else .ok (.other, rest)

namespace Frame

def bytes : Frame → Bytes
  | .event ev => writeFrame frameEvent (encodeEvent ev)
  | .synced seq => writeFrame frameSynced (u64Bytes seq)

def received : Frame → Received
  | .event ev => .event ev
  | .synced seq => .synced (some seq)

def Fits : Frame → Prop
  | .event ev => ev.Fits
  | .synced seq => seq < 2 ^ 64

end Frame

/-! ## One frame -/

theorem readFull_header (typ : UInt8) (payload rest : Bytes) :
    Resp.readFull 5 (writeFrame typ payload ++ rest) =
      .ok ([typ] ++ encode 4 payload.length, payload ++ rest) := by
  have hlength : ([typ] ++ encode 4 payload.length).length = 5 := by
    rw [List.length_append, length_encode]
    rfl
  have hsplit : writeFrame typ payload ++ rest =
      ([typ] ++ encode 4 payload.length) ++ (payload ++ rest) := by
    simp [writeFrame]
  have hread := Resp.readFull_append ([typ] ++ encode 4 payload.length) (payload ++ rest)
  rwa [hlength, ← hsplit] at hread

theorem readFrame_writeFrame (typ : UInt8) {payload : Bytes} (hlength : payload.length < 2 ^ 32)
    (rest : Bytes) :
    readFrame (writeFrame typ payload ++ rest) =
      if payload.length ≤ maxFrame then .ok ((typ, payload), rest)
      else .error .errFrameTooLarge := by
  have hdecode : decode (([typ] ++ encode 4 payload.length).drop 1) = payload.length :=
    decode_encode_of_lt (by omega)
  have htyp : ([typ] ++ encode 4 payload.length).headD 0 = typ := rfl
  simp only [readFrame, readFull_header, hdecode, htyp]
  by_cases hmax : payload.length ≤ maxFrame
  · rw [if_neg (by omega), if_pos hmax]
    by_cases hempty : payload.length = 0
    · rw [if_pos hempty, List.eq_nil_of_length_eq_zero hempty]
      rfl
    · rw [if_neg hempty, Resp.readFull_append]
  · rw [if_pos (by omega), if_neg hmax]

theorem length_encodeEvent (ev : Event) :
    (encodeEvent ev).length = (Frame.event ev).length :=
  length_encodePayload ev

theorem receive_bytes (frame : Frame) (hfits : frame.Fits) (rest : Bytes) :
    receive (frame.bytes ++ rest) =
      if frame.length ≤ maxFrame then .ok (frame.received, rest)
      else .error .errFrameTooLarge := by
  cases frame with
  | event ev =>
      have hlength := length_encodeEvent ev
      have hsize : ev.key.length + ev.value.length + 25 < 2 ^ 32 := Event.Fits.size hfits
      have hframe : (Frame.event ev).length = 25 + ev.key.length + ev.value.length := rfl
      rw [receive, Frame.bytes, readFrame_writeFrame frameEvent (by omega), hlength]
      by_cases hmax : (Frame.event ev).length ≤ maxFrame
      · rw [if_pos hmax, if_pos hmax]
        simp only [if_true, decodeEvent_encodeEvent hfits]
        rfl
      · rw [if_neg hmax, if_neg hmax]
  | synced seq =>
      have hlength : (u64Bytes seq).length = 8 := length_encode 8 seq
      have hseq : decode (u64Bytes seq) = seq := by
        apply decode_encode_of_lt
        norm_num
        exact hfits
      have hmax : (u64Bytes seq).length ≤ maxFrame := by
        rw [hlength]
        decide
      have hmax' : (Frame.synced seq).length ≤ maxFrame := by
        have hsynced : (Frame.synced seq).length = 8 := rfl
        omega
      have htyp : frameSynced ≠ frameEvent := by decide
      rw [receive, Frame.bytes, readFrame_writeFrame frameSynced (by omega), if_pos hmax,
        if_pos hmax']
      simp only [if_neg htyp, if_true, readU64, hlength, ne_eq, not_true_eq_false, if_false,
        hseq, Frame.received]

/-! ## A stream of frames -/

/-- The event of a `SET` that a client may send. -/
structure FromCommand (ev : Event) : Prop where
  op : ev.op = .opSet
  seq : ev.seq < 2 ^ 64
  low : -2 ^ 63 ≤ ev.expireAt
  high : ev.expireAt < 2 ^ 63
  key : ev.key.length ≤ Resp.maxBulkLen
  value : ev.value.length ≤ Resp.maxBulkLen

theorem FromCommand.fits {ev : Event} (hev : FromCommand ev) : ev.Fits := by
  have hmax : Resp.maxBulkLen = 2 ^ 28 := by norm_num [Resp.maxBulkLen]
  have hkey := hev.key
  have hvalue := hev.value
  exact ⟨hev.seq, hev.low, hev.high, by omega⟩

theorem readMany_error {α β ε : Type} {read : Bytes → Except ε (β × Bytes)} {err : ε}
    {write : α → Bytes} {f : α → β} {Small : α → Prop} [DecidablePred Small] {items : List α}
    (hread : ∀ item ∈ items, ∀ rest, read (write item ++ rest) =
      if Small item then .ok (f item, rest) else .error err)
    (hlarge : ∃ item ∈ items, ¬ Small item) (rest : Bytes) :
    Resp.readMany read items.length (items.flatMap write ++ rest) = .error err := by
  induction items with
  | nil =>
      obtain ⟨item, hitem, _⟩ := hlarge
      exact absurd hitem List.not_mem_nil
  | cons first others ih =>
      rw [List.flatMap_cons, List.length_cons, List.append_assoc, Resp.readMany,
        hread first List.mem_cons_self]
      by_cases hfirst : Small first
      · have hothers : ∃ item ∈ others, ¬ Small item := by
          obtain ⟨item, hitem, hnot⟩ := hlarge
          rcases List.mem_cons.mp hitem with rfl | hitem
          · exact absurd hfirst hnot
          · exact ⟨item, hitem, hnot⟩
        have hrest := ih (fun item hitem => hread item (List.mem_cons_of_mem first hitem))
          hothers
        rw [if_pos hfirst]
        simp only [hrest, Except.map]
      · rw [if_neg hfirst]

/-- The replica reads a stream of such events back exactly if every one of them has
room in a frame. -/
theorem frames_read_back_iff (events : List Event) (hevents : ∀ ev ∈ events, FromCommand ev)
    (rest : Bytes) :
    Resp.readMany receive events.length
        ((events.flatMap fun ev => writeFrame frameEvent (encodeEvent ev)) ++ rest) =
        .ok (events.map .event, rest) ↔
      ∀ ev ∈ events, ev.key.length + ev.value.length + 25 ≤ maxFrame := by
  have hframe : ∀ ev : Event, (Frame.event ev).length ≤ maxFrame ↔
      ev.key.length + ev.value.length + 25 ≤ maxFrame := by
    intro ev
    rw [Frame.length, eventHeader]
    omega
  have hread : ∀ ev ∈ events, ∀ rest,
      receive (writeFrame frameEvent (encodeEvent ev) ++ rest) =
        if (Frame.event ev).length ≤ maxFrame then .ok (.event ev, rest)
        else .error .errFrameTooLarge := by
    intro ev hev rest
    exact receive_bytes (.event ev) (hevents ev hev).fits rest
  constructor
  · intro hok
    by_contra hnot
    have hlarge : ∃ ev ∈ events, ¬ (Frame.event ev).length ≤ maxFrame := by
      simpa only [hframe, not_forall, exists_prop] using hnot
    rw [readMany_error hread hlarge rest] at hok
    contradiction
  · intro hsmall
    apply Resp.readMany_map
    intro ev hev rest
    rw [hread ev hev, if_pos ((hframe ev).mpr (hsmall ev hev))]

theorem frames_read_back_iff_twoEvents :
    Resp.readMany receive 2 (([⟨1, .opSet, [97], [], 0⟩, ⟨2, .opSet, [], [10], -7⟩].flatMap
        fun ev => writeFrame frameEvent (encodeEvent ev)) ++ [1]) =
      .ok ([.event ⟨1, .opSet, [97], [], 0⟩, .event ⟨2, .opSet, [], [10], -7⟩], [1]) := by
  have hevents : ∀ ev ∈ [Event.mk 1 .opSet [97] [] 0, ⟨2, .opSet, [], [10], -7⟩],
      FromCommand ev := by
    intro ev hmem
    rcases List.mem_pair.mp hmem with rfl | rfl
    · exact ⟨rfl, by decide, by decide, by decide, by decide, by decide⟩
    · exact ⟨rfl, by decide, by decide, by decide, by decide, by decide⟩
  exact (frames_read_back_iff _ hevents [1]).mpr (by decide)

theorem readFrame_of_large {key value : Bytes}
    (hlarge : maxFrame < key.length + value.length + 25)
    (hsize : key.length + value.length + 25 < 2 ^ 32) (expireAt : ℤ) (rest : Bytes) :
    readFrame (writeFrame frameEvent (encodeEvent (.set key value expireAt)) ++ rest) =
      .error .errFrameTooLarge := by
  have hlength : (encodeEvent (.set key value expireAt)).length =
      25 + key.length + value.length := length_encodeEvent (.set key value expireAt)
  rw [readFrame_writeFrame frameEvent (by omega), if_neg (by omega)]

def largestArg : Bytes := List.replicate Resp.maxBulkLen 0

theorem length_largestArg : largestArg.length = Resp.maxBulkLen := List.length_replicate

/-- A `SET` of the largest key and value is read from the client, and the replica
refuses its frame. -/
theorem largest_entry_not_replicated :
    Resp.readCommand (Resp.writeCommand [[83, 69, 84], largestArg, largestArg] ++ []) =
        .ok ([[83, 69, 84], largestArg, largestArg], []) ∧
      readFrame (writeFrame frameEvent (encodeEvent (.set largestArg largestArg 0)) ++ []) =
        .error .errFrameTooLarge := by
  have hmax : Resp.maxBulkLen = 2 ^ 28 := by norm_num [Resp.maxBulkLen]
  have hframe : maxFrame = 2 ^ 29 := by norm_num [maxFrame]
  have harg := length_largestArg
  refine ⟨?_, ?_⟩
  · apply Resp.readCommand_writeCommand
    refine ⟨by simp, ?_⟩
    intro arg hmem
    simp only [List.mem_cons, List.not_mem_nil, or_false] at hmem
    rcases hmem with hname | hkey | hvalue
    · rw [hname, hmax]
      norm_num
    · rw [hkey]
      exact harg.le
    · rw [hvalue]
      exact harg.le
  · exact readFrame_of_large (by omega) (by omega) 0 []

end Replication
end DistCache
