import DistCache.BigEndian
import DistCache.CacheShard

/-!
# The record format of the append-only file and the snapshot

A record is the length of its payload in four bytes, followed by the payload: the
operation, the sequence number, the lengths of key and value, the deadline, the key and
the value.  The check of the lengths in `decodeRecord` is done in 32 bits, so that it can
pass although the key does not fit; the slice expression then panics.
-/

namespace DistCache

namespace Op

def toByte : Op → UInt8
  | .opSet => 0
  | .opDel => 1
  | .opExpire => 2
  | .opFlush => 3
  | .other code => UInt8.ofNat (code + 4)

def ofByte (b : UInt8) : Op :=
  if b = 0 then .opSet
  else if b = 1 then .opDel
  else if b = 2 then .opExpire
  else if b = 3 then .opFlush
  else .other (Fin.ofNat 252 (b.toNat - 4))

theorem ofByte_of_four_le {b : UInt8} (hb : 4 ≤ b.toNat) :
    ofByte b = .other (Fin.ofNat 252 (b.toNat - 4)) := by
  have hne : ∀ small : UInt8, small.toNat < 4 → b ≠ small := by
    rintro small hsmall rfl
    omega
  unfold ofByte
  rw [if_neg (hne 0 (by decide)), if_neg (hne 1 (by decide)),
    if_neg (hne 2 (by decide)), if_neg (hne 3 (by decide))]

theorem ofByte_toByte (op : Op) : ofByte op.toByte = op := by
  cases op with
  | other code =>
      have hcode := code.isLt
      have hbyte : (UInt8.ofNat (code + 4)).toNat = code + 4 := by
        rw [UInt8.toNat_ofNat']
        omega
      rw [toByte, ofByte_of_four_le (by omega), hbyte]
      congr 1
      apply Fin.ext
      simp only [Fin.val_ofNat, Nat.add_sub_cancel]
      omega
  | _ => rfl

theorem toByte_ofByte (b : UInt8) : (ofByte b).toByte = b := by
  by_cases hb : 4 ≤ b.toNat
  · have hlt := b.toNat_lt
    rw [ofByte_of_four_le hb, toByte]
    apply UInt8.toNat_inj.mp
    simp only [Fin.val_ofNat, UInt8.toNat_ofNat']
    omega
  · have hsmall : b.toNat = 0 ∨ b.toNat = 1 ∨ b.toNat = 2 ∨ b.toNat = 3 := by omega
    rcases hsmall with h | h | h | h
    · rw [UInt8.toNat_inj.mp (h.trans (by decide : 0 = (0 : UInt8).toNat))]
      rfl
    · rw [UInt8.toNat_inj.mp (h.trans (by decide : 1 = (1 : UInt8).toNat))]
      rfl
    · rw [UInt8.toNat_inj.mp (h.trans (by decide : 2 = (2 : UInt8).toNat))]
      rfl
    · rw [UInt8.toNat_inj.mp (h.trans (by decide : 3 = (3 : UInt8).toNat))]
      rfl

end Op

/-- The event is one that Go can hold, and its record is below 4 GiB. -/
structure Event.Fits (ev : Event) : Prop where
  seq : ev.seq < 2 ^ 64
  low : -2 ^ 63 ≤ ev.expireAt
  high : ev.expireAt < 2 ^ 63
  size : ev.key.length + ev.value.length + 25 < 2 ^ 32

namespace Persistence

open BigEndian

def headerBytes : ℕ := 1 + 8 + 4 + 4 + 8

def uint64 (n : ℤ) : ℕ := (n % 2 ^ 64).toNat

def encodePayload (ev : Event) : Bytes :=
  [ev.op.toByte] ++ (encode 8 ev.seq ++ (encode 4 ev.key.length ++
    (encode 4 ev.value.length ++ (encode 8 (uint64 ev.expireAt) ++
      (ev.key ++ ev.value)))))

def encodeRecord (ev : Event) : Bytes :=
  encode 4 (headerBytes + ev.key.length + ev.value.length) ++ encodePayload ev

inductive Decoded where
  | event (ev : Event) (rest : Bytes)
  | eof
  | torn
  | panicked
  deriving DecidableEq

def field (p : Bytes) (off width : ℕ) : ℕ := decode ((p.drop off).take width)

def decodePayload (p rest : Bytes) : Decoded :=
  let keyLen := field p 9 4
  let valLen := field p 13 4
  if p.length % 2 ^ 32 ≠ (headerBytes + keyLen + valLen) % 2 ^ 32 then .torn
  else if p.length < 25 + keyLen ∨ 0 < valLen ∧ p.length < 25 + keyLen + valLen then
    .panicked
  else
    .event
      { seq := field p 1 8
        op := Op.ofByte (p.headD 0)
        key := (p.drop 25).take keyLen
        value := (p.drop (25 + keyLen)).take valLen
        expireAt := int64 (field p 17 8) } rest

def decodeRecord (input : Bytes) : Decoded :=
  if input = [] then .eof
  else if input.length < 4 then .torn
  else
    let payloadLen := decode (input.take 4)
    if payloadLen < headerBytes then .torn
    else if (input.drop 4).length < payloadLen then .torn
    else decodePayload ((input.drop 4).take payloadLen) ((input.drop 4).drop payloadLen)

/-! ## Deadlines -/

theorem uint64_lt (n : ℤ) : uint64 n < 256 ^ 8 := by
  unfold uint64
  omega

theorem int64_uint64 {n : ℤ} (hlow : -2 ^ 63 ≤ n) (hhigh : n < 2 ^ 63) :
    int64 (uint64 n) = n := by
  have hcast : ((uint64 n : ℕ) : ℤ) = n % 2 ^ 64 := by
    unfold uint64
    omega
  rw [hcast, int64, Int.bmod_def]
  omega

theorem uint64_int64 {n : ℕ} (hn : n < 2 ^ 64) : uint64 (int64 n) = n := by
  rw [uint64, int64, Int.bmod_def]
  omega

theorem int64_bounds (n : ℤ) : -2 ^ 63 ≤ int64 n ∧ int64 n < 2 ^ 63 := by
  rw [int64, Int.bmod_def]
  omega

/-! ## Reading back what was written -/

@[simp] theorem length_encodePayload (ev : Event) :
    (encodePayload ev).length = headerBytes + ev.key.length + ev.value.length := by
  simp only [encodePayload, headerBytes, List.length_append, List.length_singleton,
    length_encode]
  omega

theorem length_encodeRecord (ev : Event) :
    (encodeRecord ev).length = 4 + headerBytes + ev.key.length + ev.value.length := by
  simp only [encodeRecord, List.length_append, length_encode, length_encodePayload]
  omega

section Fields

variable (ev : Event)

theorem field_seq : field (encodePayload ev) 1 8 = ev.seq % 2 ^ 64 := by
  have hop : [ev.op.toByte].length = 1 := rfl
  have hpow : 256 ^ 8 = 2 ^ 64 := by norm_num
  rw [field, encodePayload, slice_append hop (length_encode 8 _), decode_encode, hpow]

theorem field_keyLen : field (encodePayload ev) 9 4 = ev.key.length % 2 ^ 32 := by
  have hsplit : encodePayload ev =
      ([ev.op.toByte] ++ encode 8 ev.seq) ++ (encode 4 ev.key.length ++
        (encode 4 ev.value.length ++ (encode 8 (uint64 ev.expireAt) ++
          (ev.key ++ ev.value)))) := by
    simp only [encodePayload, List.append_assoc]
  have hpow : 256 ^ 4 = 2 ^ 32 := by norm_num
  rw [field, hsplit, slice_append (by simp) (length_encode 4 _), decode_encode, hpow]

theorem field_valLen : field (encodePayload ev) 13 4 = ev.value.length % 2 ^ 32 := by
  have hsplit : encodePayload ev =
      ([ev.op.toByte] ++ (encode 8 ev.seq ++ encode 4 ev.key.length)) ++
        (encode 4 ev.value.length ++ (encode 8 (uint64 ev.expireAt) ++
          (ev.key ++ ev.value))) := by
    simp only [encodePayload, List.append_assoc]
  have hpow : 256 ^ 4 = 2 ^ 32 := by norm_num
  rw [field, hsplit, slice_append (by simp) (length_encode 4 _), decode_encode, hpow]

theorem field_expireAt : field (encodePayload ev) 17 8 = uint64 ev.expireAt := by
  have hsplit : encodePayload ev =
      ([ev.op.toByte] ++ (encode 8 ev.seq ++ (encode 4 ev.key.length ++
        encode 4 ev.value.length))) ++ (encode 8 (uint64 ev.expireAt) ++
          (ev.key ++ ev.value)) := by
    simp only [encodePayload, List.append_assoc]
  rw [field, hsplit, slice_append (by simp) (length_encode 8 _),
    decode_encode_of_lt (uint64_lt _)]

theorem slice_key :
    ((encodePayload ev).drop 25).take ev.key.length = ev.key := by
  have hsplit : encodePayload ev =
      ([ev.op.toByte] ++ (encode 8 ev.seq ++ (encode 4 ev.key.length ++
        (encode 4 ev.value.length ++ encode 8 (uint64 ev.expireAt))))) ++
          (ev.key ++ ev.value) := by
    simp only [encodePayload, List.append_assoc]
  rw [hsplit, slice_append (by simp) rfl]

theorem slice_value :
    ((encodePayload ev).drop (25 + ev.key.length)).take ev.value.length = ev.value := by
  have hsplit : encodePayload ev =
      ([ev.op.toByte] ++ (encode 8 ev.seq ++ (encode 4 ev.key.length ++
        (encode 4 ev.value.length ++ (encode 8 (uint64 ev.expireAt) ++
          ev.key))))) ++ (ev.value ++ []) := by
    simp only [encodePayload, List.append_assoc, List.append_nil]
  rw [hsplit, slice_append (by simp; omega) rfl]

end Fields

theorem decodePayload_encodePayload {ev : Event} (hfits : ev.Fits) (rest : Bytes) :
    decodePayload (encodePayload ev) rest = .event ev rest := by
  obtain ⟨hseq, hlow, hhigh, hsize⟩ := hfits
  have hkey : ev.key.length % 2 ^ 32 = ev.key.length := Nat.mod_eq_of_lt (by omega)
  have hvalue : ev.value.length % 2 ^ 32 = ev.value.length := Nat.mod_eq_of_lt (by omega)
  have hslice : ¬ ((encodePayload ev).length < 25 + ev.key.length ∨
      0 < ev.value.length ∧
        (encodePayload ev).length < 25 + ev.key.length + ev.value.length) := by
    rw [length_encodePayload, headerBytes]
    omega
  simp only [decodePayload, field_keyLen, field_valLen, field_seq, field_expireAt, hkey,
    hvalue, if_neg hslice, slice_key, slice_value, int64_uint64 hlow hhigh,
    Nat.mod_eq_of_lt hseq]
  have hop : (encodePayload ev).headD 0 = ev.op.toByte := rfl
  rw [if_neg (by rw [length_encodePayload]; exact not_not.mpr rfl), hop, Op.ofByte_toByte]

theorem decodeRecord_frame {p : Bytes} (hlow : 25 ≤ p.length) (hhigh : p.length < 2 ^ 32)
    (rest : Bytes) :
    decodeRecord (encode 4 p.length ++ (p ++ rest)) = decodePayload p rest := by
  have hheader : headerBytes = 25 := rfl
  have hfour : decode ((encode 4 p.length ++ (p ++ rest)).take 4) = p.length := by
    rw [List.take_left' (length_encode 4 _), decode_encode_of_lt (by omega)]
  have hdrop : (encode 4 p.length ++ (p ++ rest)).drop 4 = p ++ rest :=
    List.drop_left' (length_encode 4 _)
  have hlength : (encode 4 p.length ++ (p ++ rest)).length = 4 + p.length + rest.length := by
    rw [List.length_append, List.length_append, length_encode]
    omega
  have hne : encode 4 p.length ++ (p ++ rest) ≠ [] := by
    intro hnil
    rw [hnil, List.length_nil] at hlength
    omega
  unfold decodeRecord
  rw [if_neg hne, if_neg (by omega)]
  simp only [hfour, hdrop]
  rw [if_neg (by omega), if_neg (by rw [List.length_append]; omega), List.take_left,
    List.drop_left]

theorem encodeRecord_eq (ev : Event) :
    encodeRecord ev = encode 4 (encodePayload ev).length ++ encodePayload ev := by
  rw [length_encodePayload, encodeRecord]

theorem decodeRecord_encodeRecord {ev : Event} (hfits : ev.Fits) (rest : Bytes) :
    decodeRecord (encodeRecord ev ++ rest) = .event ev rest := by
  have hsize := hfits.size
  have hlength := length_encodePayload ev
  have hheader : headerBytes = 25 := rfl
  rw [encodeRecord_eq, List.append_assoc, decodeRecord_frame (by omega) (by omega)]
  exact decodePayload_encodePayload hfits rest

/-! ## Writing back what was read -/

theorem slice_length {p : Bytes} {off width : ℕ} (hlength : off + width ≤ p.length) :
    ((p.drop off).take width).length = width := by
  rw [List.length_take, List.length_drop]
  omega

theorem encode_field {p : Bytes} {off width : ℕ} (hlength : off + width ≤ p.length) :
    encode width (field p off width) = (p.drop off).take width :=
  encode_decode_of_length (slice_length hlength)

theorem field_lt {p : Bytes} {off width : ℕ} (hlength : off + width ≤ p.length) :
    field p off width < 256 ^ width := by
  have hlt := decode_lt ((p.drop off).take width)
  rwa [slice_length hlength] at hlt

theorem payload_split {p : Bytes} {keyLen valLen : ℕ}
    (hlength : p.length = 25 + keyLen + valLen) :
    p = [p.headD 0] ++ ((p.drop 1).take 8 ++ ((p.drop 9).take 4 ++
      ((p.drop 13).take 4 ++ ((p.drop 17).take 8 ++
        ((p.drop 25).take keyLen ++ (p.drop (25 + keyLen)).take valLen))))) := by
  have hvalue : (p.drop (25 + keyLen)).take valLen = p.drop (25 + keyLen) := by
    apply List.take_of_length_le
    rw [List.length_drop]
    omega
  rw [hvalue, ← drop_eq_slice_append p 25 keyLen, ← drop_eq_slice_append p 17 8,
    ← drop_eq_slice_append p 13 4, ← drop_eq_slice_append p 9 4,
    ← drop_eq_slice_append p 1 8]
  cases p with
  | nil =>
      rw [List.length_nil] at hlength
      omega
  | cons first rest => rfl

theorem decodePayload_eq_event {p rest rest' : Bytes} {ev : Event}
    (hlow : 25 ≤ p.length) (hhigh : p.length < 2 ^ 32)
    (hdecode : decodePayload p rest = .event ev rest') :
    rest' = rest ∧ p = encodePayload ev ∧ ev.Fits := by
  simp only [decodePayload] at hdecode
  split_ifs at hdecode with hcheck hslice
  obtain ⟨rfl, rfl⟩ := hdecode
  have hkey := field_lt (p := p) (show 9 + 4 ≤ p.length by omega)
  have hval := field_lt (p := p) (show 13 + 4 ≤ p.length by omega)
  have hseq := field_lt (p := p) (show 1 + 8 ≤ p.length by omega)
  have hexp := field_lt (p := p) (show 17 + 8 ≤ p.length by omega)
  have hlength : p.length = 25 + field p 9 4 + field p 13 4 := by
    simp only [headerBytes] at hcheck
    omega
  have hkeyLength : ((p.drop 25).take (field p 9 4)).length = field p 9 4 :=
    slice_length (by omega)
  have hvalLength : ((p.drop (25 + field p 9 4)).take (field p 13 4)).length =
      field p 13 4 := slice_length (by omega)
  have hbounds := int64_bounds (field p 17 8)
  have hexpire : uint64 (int64 (field p 17 8)) = field p 17 8 :=
    uint64_int64 (by omega)
  have hseqLt : field p 1 8 < 2 ^ 64 := by omega
  generalize int64 (field p 17 8) = expireAt at hbounds hexpire
  refine ⟨rfl, ?_, ⟨hseqLt, hbounds.1, hbounds.2, ?_⟩⟩
  · simp only [encodePayload, hkeyLength, hvalLength, Op.toByte_ofByte, hexpire,
      encode_field (p := p) (show 1 + 8 ≤ p.length by omega),
      encode_field (p := p) (show 9 + 4 ≤ p.length by omega),
      encode_field (p := p) (show 13 + 4 ≤ p.length by omega),
      encode_field (p := p) (show 17 + 8 ≤ p.length by omega)]
    exact payload_split hlength
  · simp only [hkeyLength, hvalLength]
    omega

theorem decodeRecord_cases (input : Bytes) :
    decodeRecord input = .eof ∨ decodeRecord input = .torn ∨
      ∃ p rest, 25 ≤ p.length ∧ p.length < 2 ^ 32 ∧
        input = encode 4 p.length ++ (p ++ rest) := by
  unfold decodeRecord
  by_cases hempty : input = []
  · rw [if_pos hempty]
    exact Or.inl rfl
  rw [if_neg hempty]
  by_cases hshort : input.length < 4
  · rw [if_pos hshort]
    exact Or.inr (Or.inl rfl)
  rw [if_neg hshort]
  simp only
  by_cases hheader : decode (input.take 4) < headerBytes
  · rw [if_pos hheader]
    exact Or.inr (Or.inl rfl)
  rw [if_neg hheader]
  by_cases hpayload : (input.drop 4).length < decode (input.take 4)
  · rw [if_pos hpayload]
    exact Or.inr (Or.inl rfl)
  have hfour : (input.take 4).length = 4 := by
    rw [List.length_take]
    omega
  have hlt := decode_lt (input.take 4)
  have hlength : ((input.drop 4).take (decode (input.take 4))).length =
      decode (input.take 4) := by
    rw [List.length_take]
    omega
  rw [hfour] at hlt
  rw [headerBytes] at hheader
  refine Or.inr (Or.inr ⟨(input.drop 4).take (decode (input.take 4)),
    (input.drop 4).drop (decode (input.take 4)), by omega, by omega, ?_⟩)
  rw [hlength, encode_decode_of_length hfour, List.take_append_drop, List.take_append_drop]

theorem decodeRecord_eq_event {input rest : Bytes} {ev : Event}
    (hdecode : decodeRecord input = .event ev rest) :
    input = encodeRecord ev ++ rest ∧ ev.Fits := by
  rcases decodeRecord_cases input with heof | htorn | ⟨p, after, hlow, hhigh, rfl⟩
  · rw [heof] at hdecode
    contradiction
  · rw [htorn] at hdecode
    contradiction
  · rw [decodeRecord_frame hlow hhigh] at hdecode
    obtain ⟨rfl, rfl, hfits⟩ := decodePayload_eq_event hlow hhigh hdecode
    rw [encodeRecord_eq, List.append_assoc]
    exact ⟨rfl, hfits⟩

/-! ## A record that was cut off -/

theorem decodeRecord_of_proper_part {ev : Event} (hfits : ev.Fits) {tail : Bytes}
    (hpart : tail <+: encodeRecord ev) (hne : tail ≠ encodeRecord ev) :
    decodeRecord tail = .eof ∨ decodeRecord tail = .torn := by
  have hsize := hfits.size
  have hheader : headerBytes = 25 := rfl
  have htotal := length_encodeRecord ev
  have hlength : tail.length < (encodeRecord ev).length := by
    have hle := hpart.length_le
    have hneq : tail.length ≠ (encodeRecord ev).length := fun heq =>
      hne (hpart.eq_of_length heq)
    omega
  unfold decodeRecord
  split_ifs with hempty hshort
  · exact Or.inl rfl
  · exact Or.inr rfl
  · right
    obtain ⟨rest, hrest⟩ := hpart
    have htake : tail.take 4 = (encodeRecord ev).take 4 := by
      rw [← hrest, List.take_append_of_le_length (by omega)]
    have hpayload : decode (tail.take 4) =
        headerBytes + ev.key.length + ev.value.length := by
      rw [htake, encodeRecord, List.take_left' (length_encode 4 _),
        decode_encode_of_lt (by omega)]
    simp only [hpayload]
    rw [if_neg (by omega), if_pos (by rw [List.length_drop]; omega)]

end Persistence
end DistCache
