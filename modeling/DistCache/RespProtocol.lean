import DistCache.DecimalText

/-!
# The wire protocol

A reply is a line with a type byte, or a length and that many bytes, or a count
and that many replies.  The writer puts no length before a line of text, and the
reader takes a line to end at its first line feed and drops what ends it.  So
what is written is read back as long as the texts of the lines are free of line
feeds and do not end in a carriage return, whatever the bulks hold.
-/

namespace DistCache
namespace Resp

inductive ReadError where
  | eof
  | unexpectedEOF
  | errProtocol
  deriving DecidableEq, Repr

/-- A reply; a length that is `-1` makes the nil bulk or the nil array. -/
inductive Value where
  | simple (s : Bytes)
  | error (s : Bytes)
  | int (n : Int64)
  | bulk (b : Bytes)
  | nil
  | array (items : List Value)
  | nilArray

/-! ## The writer -/

def crlf : Bytes := [13, 10]

def writeSimple (s : Bytes) : Bytes := 43 :: s ++ crlf

def writeError (msg : Bytes) : Bytes := 45 :: msg ++ crlf

def writeInt (n : Int64) : Bytes := 58 :: formatInt n.toInt ++ crlf

def writeBulk (b : Bytes) : Bytes := 36 :: formatNat b.length ++ crlf ++ b ++ crlf

def writeNil : Bytes := [36, 45, 49, 13, 10]

def writeArrayHeader (n : ℤ) : Bytes :=
  if n < 0 then [42, 45, 49, 13, 10] else 42 :: formatInt n ++ crlf

mutual

def writeReply : Value → Bytes
  | .simple s => writeSimple s
  | .error s => writeError s
  | .int n => writeInt n
  | .bulk b => writeBulk b
  | .nil => writeNil
  | .array items => writeArrayHeader items.length ++ writeReplies items
  | .nilArray => writeArrayHeader (-1)

def writeReplies : List Value → Bytes
  | [] => []
  | first :: rest => writeReply first ++ writeReplies rest

end

/-! ## The reader -/

def readBytes : Bytes → Except ReadError (Bytes × Bytes)
  | [] => .error .eof
  | b :: rest =>
      if b = 10 then .ok ([b], rest)
      else (readBytes rest).map fun r => (b :: r.1, r.2)

def trimCRLF (b : Bytes) : Bytes :=
  (b.reverse.dropWhile fun c => c == 10 || c == 13).reverse

def readLine (input : Bytes) : Except ReadError (Bytes × Bytes) :=
  (readBytes input).map fun r => (trimCRLF r.1, r.2)

def readFull (n : ℕ) (input : Bytes) : Except ReadError (Bytes × Bytes) :=
  if n ≤ input.length then .ok (input.take n, input.drop n)
  else if input = [] then .error .eof
  else .error .unexpectedEOF

def readMany {α ε : Type} (read : Bytes → Except ε (α × Bytes)) :
    ℕ → Bytes → Except ε (List α × Bytes)
  | 0, input => .ok ([], input)
  | n + 1, input =>
      match read input with
      | .error err => .error err
      | .ok (v, rest) => (readMany read n rest).map fun r => (v :: r.1, r.2)

def readTyped (readItems : ℕ → Bytes → Except ReadError (List Value × Bytes))
    (typ : UInt8) (text rest : Bytes) : Except ReadError (Value × Bytes) :=
  if typ = 43 then .ok (.simple text, rest)
  else if typ = 45 then .ok (.error text, rest)
  else if typ = 58 then
    match parseInt text with
    | none => .error .errProtocol
    | some n => .ok (.int (Int64.ofInt n), rest)
  else if typ = 36 then
    match parseInt text with
    | none => .error .errProtocol
    | some n =>
        if n < 0 then .ok (.nil, rest)
        else (readFull (n.toNat + 2) rest).map fun r => (.bulk (r.1.take n.toNat), r.2)
  else if typ = 42 then
    match parseInt text with
    | none => .error .errProtocol
    | some n =>
        if n < 0 then .ok (.nilArray, rest)
        else (readItems n.toNat rest).map fun r => (.array r.1, r.2)
  else .error .errProtocol

/-- `ReadReply`; the fuel bounds how deep arrays are nested. -/
def readNested : ℕ → Bytes → Except ReadError (Value × Bytes)
  | 0, _ => .error .eof
  | fuel + 1, input =>
      match readLine input with
      | .error err => .error err
      | .ok ([], _) => .error .errProtocol
      | .ok (typ :: text, rest) => readTyped (readMany (readNested fuel)) typ text rest

/-- Every nested array takes at least a byte of the input. -/
def readReply (input : Bytes) : Except ReadError (Value × Bytes) :=
  readNested (input.length + 1) input

/-! ## Which replies can be read back -/

def OneLine (s : Bytes) : Prop := 10 ∉ s ∧ s.getLast? ≠ some 13

instance (s : Bytes) : Decidable (OneLine s) := inferInstanceAs (Decidable (_ ∧ _))

mutual

def Value.Plain : Value → Prop
  | .simple s => OneLine s
  | .error s => OneLine s
  | .array items => PlainAll items
  | _ => True

def PlainAll : List Value → Prop
  | [] => True
  | first :: rest => first.Plain ∧ PlainAll rest

end

/-- The lengths of slices are of type `int`, and the reader adds two. -/
def maxLen : ℕ := 2 ^ 63 - 2

mutual

def Value.Fits : Value → Prop
  | .bulk b => b.length < maxLen
  | .array items => items.length < maxLen ∧ FitsAll items
  | _ => True

def FitsAll : List Value → Prop
  | [] => True
  | first :: rest => first.Fits ∧ FitsAll rest

end

/-! ## Lines -/

theorem readBytes_append {s : Bytes} (hline : 10 ∉ s) (rest : Bytes) :
    readBytes (s ++ 10 :: rest) = .ok (s ++ [10], rest) := by
  induction s with
  | nil => simp [readBytes]
  | cons b s ih =>
      rw [List.mem_cons, not_or] at hline
      have hne : b ≠ 10 := Ne.symm hline.1
      simp [readBytes, hne, ih hline.2, Except.map]

theorem trimCRLF_append_crlf {line : Bytes}
    (hlast : ∀ b, line.getLast? = some b → b ≠ 10 ∧ b ≠ 13) :
    trimCRLF (line ++ crlf) = line := by
  have hkept : line.reverse.dropWhile (fun c => c == 10 || c == 13) = line.reverse := by
    cases hreverse : line.reverse with
    | nil => rfl
    | cons b rest =>
        have hline : line = rest.reverse ++ [b] := by
          rw [← List.reverse_reverse line, hreverse, List.reverse_cons]
        have hb := hlast b (by simp [hline])
        rw [List.dropWhile_cons_of_neg (by simp [hb.1, hb.2])]
  have hdrop : (line ++ crlf).reverse.dropWhile (fun c => c == 10 || c == 13) =
      line.reverse.dropWhile fun c => c == 10 || c == 13 := by
    rw [List.reverse_append]
    rfl
  rw [trimCRLF, hdrop, hkept, List.reverse_reverse]

theorem getLast?_cons_oneLine {typ : UInt8} (hlf : typ ≠ 10) (hcr : typ ≠ 13) {text : Bytes}
    (htext : OneLine text) :
    ∀ b, (typ :: text).getLast? = some b → b ≠ 10 ∧ b ≠ 13 := by
  intro b hb
  cases hlast : text.getLast? with
  | none =>
      have hempty : text = [] := List.getLast?_eq_none_iff.mp hlast
      subst hempty
      simp only [List.getLast?_singleton, Option.some.injEq] at hb
      rw [← hb]
      exact ⟨hlf, hcr⟩
  | some last =>
      rw [List.getLast?_cons, hlast, Option.getD_some, Option.some.injEq] at hb
      subst hb
      refine ⟨?_, ?_⟩
      · intro heq
        exact htext.1 (heq ▸ List.mem_of_getLast? hlast)
      · intro heq
        exact htext.2 (heq ▸ hlast)

theorem readLine_oneLine {typ : UInt8} (hlf : typ ≠ 10) (hcr : typ ≠ 13) {text : Bytes}
    (htext : OneLine text) (rest : Bytes) :
    readLine (typ :: text ++ crlf ++ rest) = .ok (typ :: text, rest) := by
  have hline : 10 ∉ typ :: text ++ [13] := by
    simp [Ne.symm hlf, htext.1]
  have hsplit : typ :: text ++ crlf ++ rest = (typ :: text ++ [13]) ++ 10 :: rest := by
    simp [crlf]
  have hend : typ :: text ++ [13] ++ [10] = typ :: text ++ crlf := by
    simp [crlf]
  rw [readLine, hsplit, readBytes_append hline, hend]
  simp only [Except.map, trimCRLF_append_crlf (getLast?_cons_oneLine hlf hcr htext)]

theorem oneLine_of_digits {s : Bytes} (hdigits : ∀ b ∈ s, b = 45 ∨ 48 ≤ b ∧ b ≤ 57) :
    OneLine s := by
  refine ⟨?_, ?_⟩
  · intro hmem
    have hdigit := hdigits 10 hmem
    revert hdigit
    decide
  · intro hlast
    have hdigit := hdigits 13 (List.mem_of_getLast? hlast)
    revert hdigit
    decide

theorem oneLine_formatInt (n : ℤ) : OneLine (formatInt n) :=
  oneLine_of_digits fun _ hmem => mem_formatInt hmem

theorem oneLine_formatNat (n : ℕ) : OneLine (formatNat n) :=
  oneLine_of_digits fun _ hmem => Or.inr (digit_of_mem_formatNat hmem)

theorem formatInt_natCast (n : ℕ) : formatInt n = formatNat n := by
  simp [formatInt]

theorem not_mem_of_readBytes {input line rest : Bytes}
    (hread : readBytes input = .ok (line, rest)) : ∃ s, line = s ++ [10] ∧ 10 ∉ s := by
  induction input generalizing line with
  | nil => simp [readBytes] at hread
  | cons b input ih =>
      simp only [readBytes] at hread
      split_ifs at hread with hb
      · cases hread
        exact ⟨[], by simp [hb], by simp⟩
      · cases hrest : readBytes input with
        | error err => simp [hrest, Except.map] at hread
        | ok r =>
            simp only [hrest, Except.map, Except.ok.injEq, Prod.mk.injEq] at hread
            have hread_rest : readBytes input = .ok (r.1, rest) := by
              rw [hrest, ← hread.2]
            obtain ⟨s, hs, hfree⟩ := ih hread_rest
            refine ⟨b :: s, ?_, ?_⟩
            · rw [← hread.1, hs]
              rfl
            · simp [hfree, Ne.symm hb]

theorem not_mem_of_readLine {input line rest : Bytes}
    (hread : readLine input = .ok (line, rest)) : 10 ∉ line := by
  unfold readLine at hread
  cases hbytes : readBytes input with
  | error err => simp [hbytes, Except.map] at hread
  | ok r =>
      obtain ⟨first, after⟩ := r
      simp only [hbytes, Except.map, Except.ok.injEq, Prod.mk.injEq] at hread
      obtain ⟨s, hs, hfree⟩ := not_mem_of_readBytes hbytes
      have htrim : (s ++ [10]).reverse.dropWhile (fun c => c == 10 || c == 13) =
          s.reverse.dropWhile fun c => c == 10 || c == 13 := by
        rw [List.reverse_append]
        rfl
      rw [← hread.1, hs, trimCRLF, htrim, List.mem_reverse]
      intro hmem
      exact hfree (List.mem_reverse.mp ((List.dropWhile_sublist _).subset hmem))

/-! ## Replies -/

theorem readNested_of_line {input text rest : Bytes} {typ : UInt8} (fuel : ℕ)
    (hline : readLine input = .ok (typ :: text, rest)) :
    readNested (fuel + 1) input = readTyped (readMany (readNested fuel)) typ text rest := by
  rw [readNested, hline]

theorem readFull_append (b rest : Bytes) : readFull b.length (b ++ rest) = .ok (b, rest) := by
  have hle : b.length ≤ (b ++ rest).length := by
    rw [List.length_append]
    omega
  rw [readFull, if_pos hle, List.take_left, List.drop_left]

theorem readFull_crlf (b rest : Bytes) :
    readFull (b.length + 2) (b ++ crlf ++ rest) = .ok (b ++ crlf, rest) := by
  have hlength : (b ++ crlf).length = b.length + 2 := by
    simp [crlf]
  rw [← hlength]
  exact readFull_append (b ++ crlf) rest

theorem readNested_simple {s : Bytes} (hline : OneLine s) (fuel : ℕ) (rest : Bytes) :
    readNested (fuel + 1) (writeSimple s ++ rest) = .ok (.simple s, rest) := by
  rw [writeSimple, readNested_of_line fuel (readLine_oneLine (by decide) (by decide) hline rest)]
  rfl

theorem readNested_error {s : Bytes} (hline : OneLine s) (fuel : ℕ) (rest : Bytes) :
    readNested (fuel + 1) (writeError s ++ rest) = .ok (.error s, rest) := by
  rw [writeError, readNested_of_line fuel (readLine_oneLine (by decide) (by decide) hline rest)]
  rfl

theorem readNested_int (n : Int64) (fuel : ℕ) (rest : Bytes) :
    readNested (fuel + 1) (writeInt n ++ rest) = .ok (.int n, rest) := by
  have hparse := parseInt_formatInt (Int64.le_toInt n) (Int64.toInt_lt n)
  rw [writeInt, readNested_of_line fuel
    (readLine_oneLine (by decide) (by decide) (oneLine_formatInt n.toInt) rest)]
  simp [readTyped, hparse]

theorem readNested_bulk {b : Bytes} (hfits : b.length < maxLen) (fuel : ℕ) (rest : Bytes) :
    readNested (fuel + 1) (writeBulk b ++ rest) = .ok (.bulk b, rest) := by
  have hparse : parseInt (formatNat b.length) = some (b.length : ℤ) :=
    parseInt_formatNat (by unfold maxLen at hfits; omega)
  have hsplit : writeBulk b ++ rest =
      36 :: formatNat b.length ++ crlf ++ (b ++ crlf ++ rest) := by
    simp [writeBulk]
  rw [hsplit, readNested_of_line fuel
    (readLine_oneLine (by decide) (by decide) (oneLine_formatNat b.length) _)]
  have hsign : ¬ ((b.length : ℤ) < 0) := by omega
  have htyped : readTyped (readMany (readNested fuel)) 36 (formatNat b.length)
      (b ++ crlf ++ rest) =
      (readFull (b.length + 2) (b ++ crlf ++ rest)).map fun r =>
        (.bulk (r.1.take b.length), r.2) := by
    simp [readTyped, hparse, hsign]
  rw [htyped, readFull_crlf]
  simp [Except.map]

theorem readLine_negative {typ : UInt8} (hlf : typ ≠ 10) (hcr : typ ≠ 13) (rest : Bytes) :
    readLine ([typ, 45, 49, 13, 10] ++ rest) = .ok ([typ, 45, 49], rest) := by
  have hline : OneLine [45, 49] := by decide
  exact readLine_oneLine hlf hcr hline rest

theorem readNested_nil (fuel : ℕ) (rest : Bytes) :
    readNested (fuel + 1) (writeNil ++ rest) = .ok (.nil, rest) := by
  rw [writeNil, readNested_of_line fuel (readLine_negative (by decide) (by decide) rest)]
  rfl

theorem readNested_nilArray (fuel : ℕ) (rest : Bytes) :
    readNested (fuel + 1) (writeArrayHeader (-1) ++ rest) = .ok (.nilArray, rest) := by
  have hheader : writeArrayHeader (-1) = [42, 45, 49, 13, 10] := rfl
  rw [hheader, readNested_of_line fuel (readLine_negative (by decide) (by decide) rest)]
  rfl

theorem writeArrayHeader_natCast (n : ℕ) :
    writeArrayHeader n = 42 :: formatNat n ++ crlf := by
  have hsign : ¬ ((n : ℤ) < 0) := by omega
  rw [writeArrayHeader, if_neg hsign, formatInt_natCast]

theorem readNested_array {items : List Value} {body rest : Bytes} {fuel : ℕ}
    (hfits : items.length < maxLen)
    (hitems : readMany (readNested fuel) items.length (body ++ rest) = .ok (items, rest)) :
    readNested (fuel + 1) (writeArrayHeader items.length ++ body ++ rest) =
      .ok (.array items, rest) := by
  have hparse : parseInt (formatNat items.length) = some (items.length : ℤ) :=
    parseInt_formatNat (by unfold maxLen at hfits; omega)
  rw [writeArrayHeader_natCast, List.append_assoc, readNested_of_line fuel
    (readLine_oneLine (by decide) (by decide) (oneLine_formatNat items.length) _)]
  simp [readTyped, hparse, hitems, Except.map]

theorem readMany_map {α β ε : Type} {read : Bytes → Except ε (β × Bytes)}
    {write : α → Bytes} {f : α → β} {items : List α}
    (hread : ∀ item ∈ items, ∀ rest, read (write item ++ rest) = .ok (f item, rest))
    (rest : Bytes) :
    readMany read items.length (items.flatMap write ++ rest) =
      .ok (items.map f, rest) := by
  induction items with
  | nil => rfl
  | cons first others ih =>
      have hfirst := hread first List.mem_cons_self (others.flatMap write ++ rest)
      have hothers := ih fun item hmem => hread item (List.mem_cons_of_mem first hmem)
      rw [List.flatMap_cons, List.length_cons, List.append_assoc, readMany, hfirst]
      simp [hothers, Except.map]

theorem readMany_flatMap {α ε : Type} {read : Bytes → Except ε (α × Bytes)}
    {write : α → Bytes} {items : List α}
    (hread : ∀ item ∈ items, ∀ rest, read (write item ++ rest) = .ok (item, rest))
    (rest : Bytes) :
    readMany read items.length (items.flatMap write ++ rest) = .ok (items, rest) := by
  have hmap := readMany_map (f := id) hread rest
  rwa [List.map_id] at hmap

theorem writeReplies_eq (items : List Value) : writeReplies items = items.flatMap writeReply := by
  induction items with
  | nil => rfl
  | cons first others ih => rw [writeReplies, ih, List.flatMap_cons]

theorem readMany_writeReplies {read : Bytes → Except ReadError (Value × Bytes)}
    {items : List Value}
    (hread : ∀ v ∈ items, ∀ rest, read (writeReply v ++ rest) = .ok (v, rest)) (rest : Bytes) :
    readMany read items.length (writeReplies items ++ rest) = .ok (items, rest) := by
  rw [writeReplies_eq]
  exact readMany_flatMap hread rest

theorem plainAll_iff {items : List Value} : PlainAll items ↔ ∀ v ∈ items, v.Plain := by
  induction items with
  | nil => simp [PlainAll]
  | cons first others ih => simp [PlainAll, ih]

theorem fitsAll_iff {items : List Value} : FitsAll items ↔ ∀ v ∈ items, v.Fits := by
  induction items with
  | nil => simp [FitsAll]
  | cons first others ih => simp [FitsAll, ih]

theorem length_writeReply_le {items : List Value} {v : Value} (hmem : v ∈ items) :
    (writeReply v).length ≤ (writeReplies items).length := by
  induction items with
  | nil => contradiction
  | cons first others ih =>
      rw [writeReplies, List.length_append]
      rcases List.mem_cons.mp hmem with heq | hother
      · rw [heq]
        omega
      · have hle := ih hother
        omega

theorem readNested_writeReply (v : Value) (hplain : v.Plain) (hfits : v.Fits) {fuel : ℕ}
    (hfuel : (writeReply v).length < fuel) (rest : Bytes) :
    readNested fuel (writeReply v ++ rest) = .ok (v, rest) := by
  obtain ⟨fuel, rfl⟩ : ∃ n, fuel = n + 1 := ⟨fuel - 1, by omega⟩
  match v with
  | .simple s => exact readNested_simple hplain fuel rest
  | .error s => exact readNested_error hplain fuel rest
  | .int n => exact readNested_int n fuel rest
  | .bulk b => exact readNested_bulk hfits fuel rest
  | .nil => exact readNested_nil fuel rest
  | .nilArray => exact readNested_nilArray fuel rest
  | .array items =>
      apply readNested_array hfits.1
      apply readMany_writeReplies
      intro item hmem rest
      apply readNested_writeReply item (plainAll_iff.mp hplain item hmem)
        (fitsAll_iff.mp hfits.2 item hmem)
      have hle := length_writeReply_le hmem
      rw [writeReply, writeArrayHeader_natCast, List.cons_append, List.cons_append,
        List.length_cons, List.length_append] at hfuel
      omega

theorem length_lt_fuel (v : Value) (rest : Bytes) :
    (writeReply v).length < (writeReply v ++ rest).length + 1 := by
  rw [List.length_append]
  omega

/-- A reply of any depth is read back as it was written, and what follows it is left. -/
theorem readReply_writeReply {v : Value} (hplain : v.Plain) (hfits : v.Fits) (rest : Bytes) :
    readReply (writeReply v ++ rest) = .ok (v, rest) := by
  apply readNested_writeReply v hplain hfits
  exact length_lt_fuel v rest

/-- A nested reply whose bulk looks like the protocol, in front of another one. -/
theorem readReply_writeReply_nested :
    readReply (writeReply (.array [.simple [79, 75], .array [.nil, .int (-5)], .nilArray,
        .bulk [13, 10, 36, 45, 49, 13, 10]]) ++ [43]) =
      .ok (.array [.simple [79, 75], .array [.nil, .int (-5)], .nilArray,
        .bulk [13, 10, 36, 45, 49, 13, 10]], [43]) := by
  apply readReply_writeReply
  · simp [Value.Plain, PlainAll, OneLine]
  · simp [Value.Fits, FitsAll, maxLen]

theorem readMany_readReply {items : List Value} (hplain : ∀ v ∈ items, v.Plain)
    (hfits : ∀ v ∈ items, v.Fits) (rest : Bytes) :
    readMany readReply items.length (writeReplies items ++ rest) = .ok (items, rest) := by
  apply readMany_writeReplies
  intro v hmem rest
  exact readNested_writeReply v (hplain v hmem) (hfits v hmem) (length_lt_fuel v rest) rest

/-! ## What can come out of the reader -/

theorem readMany_succ_eq_ok {α ε : Type} {read : Bytes → Except ε (α × Bytes)} {n : ℕ}
    {input rest : Bytes} {items : List α}
    (hread : readMany read (n + 1) input = .ok (items, rest)) :
    ∃ first middle others, read input = .ok (first, middle) ∧
      readMany read n middle = .ok (others, rest) ∧ items = first :: others := by
  rw [readMany] at hread
  cases hfirst : read input with
  | error err => simp [hfirst] at hread
  | ok r =>
      cases hothers : readMany read n r.2 with
      | error err => simp [hfirst, hothers, Except.map] at hread
      | ok others =>
          simp only [hfirst, hothers, Except.map, Except.ok.injEq, Prod.mk.injEq] at hread
          exact ⟨r.1, r.2, others.1, rfl, by rw [hothers, ← hread.2], hread.1.symm⟩

theorem length_of_readMany {α ε : Type} {read : Bytes → Except ε (α × Bytes)} {n : ℕ}
    {input rest : Bytes} {items : List α}
    (hread : readMany read n input = .ok (items, rest)) : items.length = n := by
  induction n generalizing input items with
  | zero =>
      cases hread
      rfl
  | succ n ih =>
      obtain ⟨first, middle, others, _, hothers, rfl⟩ := readMany_succ_eq_ok hread
      rw [List.length_cons, ih hothers]

theorem exists_read_of_mem_readMany {α ε : Type} {read : Bytes → Except ε (α × Bytes)}
    {n : ℕ} {input rest : Bytes} {items : List α}
    (hread : readMany read n input = .ok (items, rest)) {v : α} (hmem : v ∈ items) :
    ∃ before after, read before = .ok (v, after) := by
  induction n generalizing input items with
  | zero =>
      cases hread
      contradiction
  | succ n ih =>
      obtain ⟨first, middle, others, hfirst, hothers, rfl⟩ := readMany_succ_eq_ok hread
      rcases List.mem_cons.mp hmem with heq | hother
      · exact ⟨input, middle, heq ▸ hfirst⟩
      · exact ih hothers hother

theorem readTyped_eq_error {readItems : ℕ → Bytes → Except ReadError (List Value × Bytes)}
    {typ : UInt8} {line text rest after : Bytes}
    (hread : readTyped readItems typ line rest = .ok (.error text, after)) : text = line := by
  unfold readTyped at hread
  split_ifs at hread
  · simp at hread
  · simp only [Except.ok.injEq, Prod.mk.injEq, Value.error.injEq] at hread
    exact hread.1.symm
  · cases hparse : parseInt line <;> simp [hparse] at hread
  · cases hparse : parseInt line with
    | none => simp [hparse] at hread
    | some n =>
        simp only [hparse] at hread
        split_ifs at hread
        · simp at hread
        · cases hfull : readFull (n.toNat + 2) rest <;> simp [hfull, Except.map] at hread
  · cases hparse : parseInt line with
    | none => simp [hparse] at hread
    | some n =>
        simp only [hparse] at hread
        split_ifs at hread
        · simp at hread
        · cases hitems : readItems n.toNat rest <;> simp [hitems, Except.map] at hread

theorem not_mem_of_readReply_error {input text rest : Bytes}
    (hread : readReply input = .ok (.error text, rest)) : 10 ∉ text := by
  unfold readReply readNested at hread
  cases hline : readLine input with
  | error err => simp [hline] at hread
  | ok r =>
      obtain ⟨line, after⟩ := r
      have hfree := not_mem_of_readLine hline
      cases line with
      | nil => simp [hline] at hread
      | cons typ body =>
          simp only [hline] at hread
          rw [readTyped_eq_error hread]
          exact fun hmem => hfree (List.mem_cons_of_mem typ hmem)

end Resp
end DistCache
