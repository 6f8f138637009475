import DistCache.DataDirectory
import DistCache.ReplicationStream

/-!
# The two codecs of an event

The replication stream has a codec of its own for events.  It has the format of
the payload of a record, without the length in front, and its decoder makes the
same check in 32 bits.  So the two codecs agree on what they write and read
back, and both panic on the same payloads: those whose header announces more
bytes than there are, by a multiple of 4 GiB.
-/

namespace DistCache
namespace Replication

open BigEndian Persistence

def encodeEvent (ev : Event) : Bytes :=
  [ev.op.toByte] ++ (encode 8 ev.seq ++ (encode 4 ev.key.length ++
    (encode 4 ev.value.length ++ (encode 8 (uint64 ev.expireAt) ++
      (ev.key ++ ev.value)))))

inductive DecodedEvent where
  | event (ev : Event)
  | errBadEvent
  | panicked
  deriving DecidableEq

def decodeEvent (p : Bytes) : DecodedEvent :=
  if p.length < eventHeader then .errBadEvent
  else
    let keyLen := field p 9 4
    let valLen := field p 13 4
    if p.length % 2 ^ 32 ≠ (eventHeader + keyLen + valLen) % 2 ^ 32 then .errBadEvent
    else if p.length < 25 + keyLen ∨ 0 < valLen ∧ p.length < 25 + keyLen + valLen then
      .panicked
    else
      .event
        { seq := field p 1 8
          op := Op.ofByte (p.headD 0)
          key := (p.drop 25).take keyLen
          value := (p.drop (25 + keyLen)).take valLen
          expireAt := int64 (field p 17 8) }

/-! ## One format -/

theorem encodeEvent_eq (ev : Event) : encodeEvent ev = encodePayload ev := rfl

def DecodedEvent.asRecord (rest : Bytes) : DecodedEvent → Decoded
  | .event ev => .event ev rest
  | .errBadEvent => .torn
  | .panicked => .panicked

theorem decodePayload_eq {p : Bytes} (hlow : 25 ≤ p.length) (rest : Bytes) :
    decodePayload p rest = (decodeEvent p).asRecord rest := by
  have hheader : ¬ p.length < eventHeader := by
    rw [eventHeader]
    omega
  unfold decodePayload decodeEvent
  rw [if_neg hheader]
  simp only [apply_ite (DecodedEvent.asRecord rest)]
  rfl

theorem decodeEvent_encodeEvent {ev : Event} (hfits : ev.Fits) :
    decodeEvent (encodeEvent ev) = .event ev := by
  have hlow : 25 ≤ (encodePayload ev).length := by
    rw [length_encodePayload, headerBytes]
    omega
  have hdecode := decodePayload_encodePayload hfits []
  rw [decodePayload_eq hlow] at hdecode
  rw [encodeEvent_eq]
  cases hcase : decodeEvent (encodePayload ev) with
  | event other =>
      simp only [hcase, DecodedEvent.asRecord, Decoded.event.injEq, and_true] at hdecode
      rw [hdecode]
  | errBadEvent => simp [hcase, DecodedEvent.asRecord] at hdecode
  | panicked => simp [hcase, DecodedEvent.asRecord] at hdecode

theorem compact_pieces (f : Files) (minSeqExclusive : ℕ)
    (hread : (readAOF f.aof).panicked = false) :
    ∃ (pieces : List (Bytes × Event)) (tail : Bytes),
      f.aof = pieces.flatMap Prod.fst ++ tail ∧ readAOF tail = ⟨[], false⟩ ∧
        (readAOF f.aof).events = pieces.map Prod.snd ∧
        (∀ piece ∈ pieces, ∀ rest, decodeRecord (piece.1 ++ rest) = .event piece.2 rest) ∧
        (f.compact minSeqExclusive).aof =
          (pieces.filter fun piece => minSeqExclusive < piece.2.seq).flatMap Prod.fst := by
  obtain ⟨tail, htail⟩ := encodeAll_readAOF_part f.aof
  have hfits : ∀ ev ∈ (readAOF f.aof).events, ev.Fits := fun ev hev => fits_of_mem_readAOF hev
  have hrest := readAOF_encodeAll_append hfits tail
  rw [htail] at hrest
  refine ⟨(readAOF f.aof).events.map fun ev => (encodeRecord ev, ev), tail, ?_, ?_, ?_, ?_, ?_⟩
  · rw [List.flatMap_map]
    exact htail.symm
  · have hevents : (readAOF tail).events = [] :=
      List.append_right_eq_self.mp (congrArg Reading.events hrest).symm
    have hpanicked : (readAOF tail).panicked = false :=
      (congrArg Reading.panicked hrest).symm.trans hread
    rw [← hevents, ← hpanicked]
  · rw [List.map_map]
    exact (List.map_id _).symm
  · intro piece hmem rest
    obtain ⟨ev, hev, rfl⟩ := List.mem_map.mp hmem
    exact decodeRecord_encodeRecord (hfits ev hev) rest
  · rw [List.filter_map, List.flatMap_map]
    rfl

/-- What the codecs write they read back, they write the same, and what the decoder
of a record has read is what its encoder writes. -/
theorem codecs_exact :
    (∀ ev : Event, ev.Fits →
      (∀ rest, decodeRecord (encodeRecord ev ++ rest) = .event ev rest) ∧
        decodeEvent (encodeEvent ev) = .event ev ∧
        encodeRecord ev = encode 4 (encodeEvent ev).length ++ encodeEvent ev) ∧
      (∀ input ev rest, decodeRecord input = .event ev rest →
        input = encodeRecord ev ++ rest) ∧
      ∀ (f : Files) (minSeqExclusive : ℕ), (readAOF f.aof).panicked = false →
        ∃ (pieces : List (Bytes × Event)) (tail : Bytes),
          f.aof = pieces.flatMap Prod.fst ++ tail ∧ readAOF tail = ⟨[], false⟩ ∧
            (readAOF f.aof).events = pieces.map Prod.snd ∧
            (∀ piece ∈ pieces, ∀ rest,
              decodeRecord (piece.1 ++ rest) = .event piece.2 rest) ∧
            (f.compact minSeqExclusive).aof =
              (pieces.filter fun piece => minSeqExclusive < piece.2.seq).flatMap Prod.fst := by
  refine ⟨?_, ?_, ?_⟩
  · intro ev hfits
    exact ⟨decodeRecord_encodeRecord hfits, decodeEvent_encodeEvent hfits,
      encodeRecord_eq ev⟩
  · intro input ev rest hdecode
    exact (decodeRecord_eq_event hdecode).1
  · intro f minSeqExclusive hread
    exact compact_pieces f minSeqExclusive hread

/-- A record of a name without an operation, in front of another byte, and a file
that is compacted to its second record. -/
theorem codecs_exact_twoRecords :
    decodeRecord (encodeRecord ⟨7, .other 5, [107], [], -1⟩ ++ [9]) =
        .event ⟨7, .other 5, [107], [], -1⟩ [9] ∧
      ∃ (pieces : List (Bytes × Event)) (tail : Bytes),
        encodeAll [⟨1, .opDel, [97], [], 0⟩, ⟨2, .opSet, [98], [49], 5⟩] =
            pieces.flatMap Prod.fst ++ tail ∧
          (Files.compact ⟨none, encodeAll [⟨1, .opDel, [97], [], 0⟩,
              ⟨2, .opSet, [98], [49], 5⟩]⟩ 1).aof =
            (pieces.filter fun piece => 1 < piece.2.seq).flatMap Prod.fst := by
  have hfits : Event.Fits ⟨7, .other 5, [107], [], -1⟩ :=
    ⟨by decide, by decide, by decide, by decide⟩
  obtain ⟨pieces, tail, hfile, _, _, _, hcompact⟩ := codecs_exact.2.2
    ⟨none, encodeAll [⟨1, .opDel, [97], [], 0⟩, ⟨2, .opSet, [98], [49], 5⟩]⟩ 1
    (by decide +kernel)
  exact ⟨(codecs_exact.1 _ hfits).1 [9], pieces, tail, hfile, hcompact⟩

/-! ## Lengths that wrap around -/

/-- The header announces more bytes than there are, and the check of 32 bits does not
notice. -/
def LengthsWrap (p : Bytes) : Prop :=
  p.length < 25 + field p 9 4 + field p 13 4 ∧
    p.length % 2 ^ 32 = (25 + field p 9 4 + field p 13 4) % 2 ^ 32

instance (p : Bytes) : Decidable (LengthsWrap p) := inferInstanceAs (Decidable (_ ∧ _))

theorem decodeEvent_panics_iff (p : Bytes) :
    decodeEvent p = .panicked ↔ 25 ≤ p.length ∧ LengthsWrap p := by
  have hheader : eventHeader = 25 := rfl
  unfold decodeEvent LengthsWrap
  simp only
  split_ifs with hshort hcheck hslice
  · simp only [false_iff]
    omega
  · simp only [false_iff]
    omega
  · simp only [true_iff]
    omega
  · simp only [false_iff]
    omega

theorem decodeRecord_panics_iff (input : Bytes) :
    decodeRecord input = .panicked ↔
      ∃ p rest, 25 ≤ p.length ∧ p.length < 2 ^ 32 ∧
        input = encode 4 p.length ++ (p ++ rest) ∧ LengthsWrap p := by
  have hframe : ∀ {p : Bytes} (rest : Bytes), 25 ≤ p.length → p.length < 2 ^ 32 →
      (decodeRecord (encode 4 p.length ++ (p ++ rest)) = .panicked ↔ LengthsWrap p) := by
    intro p rest hlow hhigh
    have hevent := decodeEvent_panics_iff p
    rw [decodeRecord_frame hlow hhigh, decodePayload_eq hlow]
    cases hcase : decodeEvent p with
    | event ev => simpa [DecodedEvent.asRecord, hcase, hlow] using hevent
    | errBadEvent => simpa [DecodedEvent.asRecord, hcase, hlow] using hevent
    | panicked => simpa [DecodedEvent.asRecord, hcase, hlow] using hevent
  constructor
  · intro hpanicked
    rcases decodeRecord_cases input with heof | htorn | ⟨p, rest, hlow, hhigh, rfl⟩
    · rw [heof] at hpanicked
      contradiction
    · rw [htorn] at hpanicked
      contradiction
    · exact ⟨p, rest, hlow, hhigh, rfl, (hframe rest hlow hhigh).mp hpanicked⟩
  · rintro ⟨p, rest, hlow, hhigh, rfl, hwrap⟩
    exact (hframe rest hlow hhigh).mpr hwrap

/-- The decoders return an event or an error on all bytes but those of a complete
payload whose lengths wrap around, and on those they panic. -/
theorem decoders_stay_in_range_iff (input payload : Bytes) :
    (decodeRecord input ≠ .panicked ↔
      ¬ ∃ p rest, 25 ≤ p.length ∧ p.length < 2 ^ 32 ∧
        input = encode 4 p.length ++ (p ++ rest) ∧ LengthsWrap p) ∧
      (decodeEvent payload ≠ .panicked ↔ ¬ (25 ≤ payload.length ∧ LengthsWrap payload)) := by
  constructor
  · exact not_congr (decodeRecord_panics_iff input)
  · exact not_congr (decodeEvent_panics_iff payload)

def wrappedHeader : Bytes :=
  [0, 0, 0, 0, 0, 0, 0, 0, 0, 255, 255, 255, 255, 0, 0, 0, 1, 0, 0, 0, 0, 0, 0, 0, 0]

theorem wrapped_header_panics :
    decodeEvent wrappedHeader = .panicked ∧
      decodeRecord ([0, 0, 0, 25] ++ wrappedHeader) = .panicked ∧
      readAOF ([0, 0, 0, 25] ++ wrappedHeader) = ⟨[], true⟩ := by
  decide +kernel

end Replication
end DistCache
