import DistCache.CommandFraming

/-!
# The memory that the readers ask for

The readers ask `make` for as many elements as a header line says before anything of
them has arrived, and `make` panics if that is negative or too much.  They also call
themselves, for an empty line and for an item of an array, and the stack for these
calls is limited.  Here the readers are run with their calls of `make` and with room
for a number of calls.

Only the length of an argument is bounded before it is used.
-/

namespace DistCache
namespace Resp

def maxAlloc : ℕ := 2 ^ 47

/-- How a reader can end without a value; after the last two the program is over. -/
inductive Halt where
  | failed (err : ReadError)
  | panicked
  | overflowed
  deriving DecidableEq, Repr

def Dies {α : Type} (result : Except Halt α) : Prop :=
  result = .error .panicked ∨ result = .error .overflowed

/-- `make` for `len` elements of `size` bytes. -/
def makeSlice (size : ℕ) (len : ℤ) : Except Halt Unit :=
  if 0 ≤ len ∧ size * len ≤ maxAlloc then .ok () else .error .panicked

def sliceSize : ℕ := 24

def valueSize : ℕ := 88

namespace Making

/-! ## The readers with their calls of `make` -/

def readArg (input : Bytes) : Except Halt (Bytes × Bytes) :=
  match argHeader input with
  | .error err => .error (.failed err)
  | .ok (blen, rest) =>
      (makeSlice 1 (int64 (blen + 2))).bind fun _ =>
        ((readFull (blen + 2) rest).mapError .failed).map fun r => (r.1.take blen, r.2)

def parseInline (line : Bytes) : Except Halt (List Bytes) :=
  match fieldsFrom 0 [] line with
  | [] => .error (.failed .errProtocol)
  | words => (makeSlice sliceSize words.length).bind fun _ => .ok words

/-- `ReadCommand`, with room on the stack for so many calls. -/
def readCommand : ℕ → Bytes → Except Halt (List Bytes × Bytes)
  | 0, _ => .error .overflowed
  | depth + 1, input =>
      match readLine input with
      | .error err => .error (.failed err)
      | .ok ([], rest) => readCommand depth rest
      | .ok (42 :: text, rest) =>
          match parseInt text with
          | none => .error (.failed .errProtocol)
          | some n =>
              if n < 0 then .error (.failed .errProtocol)
              else (makeSlice sliceSize n).bind fun _ => readMany readArg n.toNat rest
      | .ok (line, rest) => (parseInline line).map fun args => (args, rest)

def readTyped (readItems : ℕ → Bytes → Except Halt (List Value × Bytes))
    (typ : UInt8) (text rest : Bytes) : Except Halt (Value × Bytes) :=
  if typ = 43 then .ok (.simple text, rest)
  else if typ = 45 then .ok (.error text, rest)
  else if typ = 58 then
    match parseInt text with
    | none => .error (.failed .errProtocol)
    | some n => .ok (.int (Int64.ofInt n), rest)
  else if typ = 36 then
    match parseInt text with
    | none => .error (.failed .errProtocol)
    | some n =>
        if n < 0 then .ok (.nil, rest)
        else
          (makeSlice 1 (int64 (n + 2))).bind fun _ =>
            ((readFull (n.toNat + 2) rest).mapError .failed).map fun r =>
              (.bulk (r.1.take n.toNat), r.2)
  else if typ = 42 then
    match parseInt text with
    | none => .error (.failed .errProtocol)
    | some n =>
        if n < 0 then .ok (.nilArray, rest)
        else
          (makeSlice valueSize n).bind fun _ =>
            (readItems n.toNat rest).map fun r => (.array r.1, r.2)
  else .error (.failed .errProtocol)

/-- `ReadReply`, with room on the stack for so many calls. -/
def readReply : ℕ → Bytes → Except Halt (Value × Bytes)
  | 0, _ => .error .overflowed
  | depth + 1, input =>
      match readLine input with
      | .error err => .error (.failed err)
      | .ok ([], _) => .error (.failed .errProtocol)
      | .ok (typ :: text, rest) => readTyped (readMany (readReply depth)) typ text rest

end Making

/-! ## The numbers that are taken from the input -/

/-- Where the reader stands after so many empty lines. -/
inductive Skips : ℕ → Bytes → Bytes → Prop where
  | here (input : Bytes) : Skips 0 input input
  | blank {n : ℕ} {input rest pos : Bytes} (hblank : readLine input = .ok ([], rest))
      (hrest : Skips n rest pos) : Skips (n + 1) input pos

/-- How many arguments the first line of a command announces, or has. -/
def argCount : Bytes → ℤ
  | 42 :: text => (parseInt text).getD 0
  | line => (fieldsFrom 0 [] line).length

/-- Where in the input, and inside of how many arrays, the reader comes to read a
reply. -/
inductive Reaches : ℕ → Bytes → Bytes → Prop where
  | here (input : Bytes) : Reaches 0 input input
  | item {depth : ℕ} {input text rest pos last : Bytes} {n : ℤ} {i : ℕ} {items : List Value}
      (hline : readLine input = .ok (42 :: text, rest)) (hcount : parseInt text = some n)
      (hi : (i : ℤ) < n) (hbefore : readMany readReply i rest = .ok (items, pos))
      (hlast : Reaches depth pos last) : Reaches (depth + 1) input last

/-- The arguments that the line at this place announces have room in memory. -/
def LineFits (input : Bytes) : Prop :=
  ∀ line rest, readLine input = .ok (line, rest) → sliceSize * argCount line ≤ maxAlloc

/-- What the header at this place announces has room in memory. -/
def HeaderFits (input : Bytes) : Prop :=
  ∀ typ text rest n, readLine input = .ok (typ :: text, rest) → parseInt text = some n →
    (typ = 36 → n + 2 ≤ maxAlloc) ∧ (typ = 42 → valueSize * n ≤ maxAlloc)

def CommandFits (depth : ℕ) (input : Bytes) : Prop :=
  ∀ n pos, Skips n input pos → n < depth ∧ LineFits pos

def ReplyFits (depth : ℕ) (input : Bytes) : Prop :=
  ∀ n pos, Reaches n input pos → n < depth ∧ HeaderFits pos

/-! ## A reader that dies only for want of room -/

/-- What the reader with its calls does, given what it does without them: it answers
the same if there is room, and dies otherwise. -/
structure Guarded {α : Type} (fits : Prop) (plain : Except ReadError α)
    (making : Except Halt α) : Prop where
  answers : fits → making = plain.mapError .failed
  dies : ¬ fits → Dies making

variable {α β : Type}

theorem Guarded.of_always {plain : Except ReadError α} {fits : Prop} (hfits : fits) :
    Guarded fits plain (plain.mapError .failed) :=
  ⟨fun _ => rfl, fun hnot => absurd hfits hnot⟩

theorem Guarded.congr {fits fits' : Prop} {plain : Except ReadError α} {making : Except Halt α}
    (hguarded : Guarded fits plain making) (hiff : fits' ↔ fits) : Guarded fits' plain making :=
  ⟨fun hfits => hguarded.answers (hiff.mp hfits),
    fun hnot => hguarded.dies fun hfits => hnot (hiff.mpr hfits)⟩

theorem Guarded.map {fits : Prop} {plain : Except ReadError α} {making : Except Halt α}
    (hguarded : Guarded fits plain making) (f : α → β) :
    Guarded fits (plain.map f) (making.map f) := by
  refine ⟨fun hfits => ?_, fun hnot => ?_⟩
  · rw [hguarded.answers hfits]
    cases plain <;> rfl
  · exact (hguarded.dies hnot).imp (fun h => by rw [h]; rfl) fun h => by rw [h]; rfl

theorem Guarded.make {fits : Prop} {plain : Except ReadError α} {making : Except Halt α}
    (hguarded : Guarded fits plain making) (size : ℕ) (len : ℤ) :
    Guarded ((0 ≤ len ∧ size * len ≤ maxAlloc) ∧ fits) plain
      ((makeSlice size len).bind fun _ => making) := by
  by_cases hlen : 0 ≤ len ∧ size * len ≤ maxAlloc
  · have hmake : makeSlice size len = .ok () := by rw [makeSlice, if_pos hlen]
    rw [hmake]
    exact hguarded.congr ⟨fun h => h.2, fun h => ⟨hlen, h⟩⟩
  · have hmake : makeSlice size len = .error .panicked := by rw [makeSlice, if_neg hlen]
    rw [hmake]
    exact ⟨fun h => absurd h.1 hlen, fun _ => Or.inl rfl⟩

theorem Guarded.not_dies_iff {fits : Prop} {plain : Except ReadError α}
    {making : Except Halt α} (hguarded : Guarded fits plain making) : ¬ Dies making ↔ fits := by
  by_cases hfits : fits
  · rw [hguarded.answers hfits]
    cases plain <;> simp [Dies, Except.mapError, hfits]
  · exact iff_of_false (not_not.mpr (hguarded.dies hfits)) hfits

theorem dies_readMany {read : Bytes → Except Halt (α × Bytes)} {input : Bytes} (n : ℕ)
    (hdies : Dies (read input)) : Dies (readMany read (n + 1) input) := by
  rcases hdies with hdies | hdies
  · exact Or.inl (by rw [readMany, hdies])
  · exact Or.inr (by rw [readMany, hdies])

theorem Guarded.readMany {fits : Bytes → Prop} {plain : Bytes → Except ReadError (α × Bytes)}
    {making : Bytes → Except Halt (α × Bytes)}
    (hguarded : ∀ input, Guarded (fits input) (plain input) (making input)) (n : ℕ)
    (input : Bytes) :
    Guarded (∀ i < n, ∀ items pos, readMany plain i input = .ok (items, pos) → fits pos)
      (readMany plain n input) (readMany making n input) := by
  induction n generalizing input with
  | zero => exact Guarded.of_always fun i hi => absurd hi (Nat.not_lt_zero i)
  | succ n ih =>
      have hfirst := hguarded input
      by_cases hhere : fits input
      · have hmaking := hfirst.answers hhere
        cases hplain : plain input with
        | error err =>
            rw [hplain] at hmaking
            rw [Resp.readMany, Resp.readMany, hplain, hmaking]
            apply Guarded.of_always
            intro i hi items pos hread
            cases i with
            | zero =>
                cases hread
                exact hhere
            | succ i => simp [Resp.readMany, hplain] at hread
        | ok r =>
            obtain ⟨v, rest⟩ := r
            rw [hplain] at hmaking
            have hrest := (ih rest).map fun r => (v :: r.1, r.2)
            rw [Resp.readMany, Resp.readMany, hplain, hmaking]
            apply hrest.congr
            constructor
            · intro hall i hi items pos hread
              apply hall (i + 1) (by omega) (v :: items) pos
              rw [Resp.readMany, hplain]
              simp only [hread, Except.map]
            · intro hall i hi items pos hread
              cases i with
              | zero =>
                  cases hread
                  exact hhere
              | succ i =>
                  obtain ⟨first, middle, others, hfirst', hothers, -⟩ := readMany_succ_eq_ok hread
                  rw [hplain] at hfirst'
                  cases hfirst'
                  exact hall i (by omega) others pos hothers
      · have hnot : ¬ ∀ i < n + 1, ∀ items pos,
            Resp.readMany plain i input = .ok (items, pos) → fits pos :=
          fun hall => hhere (hall 0 (Nat.succ_pos n) [] input rfl)
        exact ⟨fun hall => absurd hall hnot, fun _ => dies_readMany n (hfirst.dies hhere)⟩

/-! ## Every reader leaves less than it got -/

theorem length_lt_of_readLine {input line rest : Bytes}
    (hread : readLine input = .ok (line, rest)) : rest.length < input.length := by
  obtain ⟨raw, hinput, -, k, hraw⟩ := isLine_of_readLine hread
  rw [hinput, hraw, List.length_append, List.length_append, List.length_singleton]
  omega

theorem length_le_of_readFull {n : ℕ} {input buf rest : Bytes}
    (hread : readFull n input = .ok (buf, rest)) : rest.length ≤ input.length := by
  unfold readFull at hread
  split_ifs at hread
  simp only [Except.ok.injEq, Prod.mk.injEq] at hread
  rw [← hread.2, List.length_drop]
  omega

theorem length_le_of_readMany {read : Bytes → Except ReadError (α × Bytes)}
    (hshorter : ∀ input v rest, read input = .ok (v, rest) → rest.length ≤ input.length)
    {n : ℕ} {input rest : Bytes} {items : List α}
    (hread : readMany read n input = .ok (items, rest)) : rest.length ≤ input.length := by
  induction n generalizing input items with
  | zero =>
      cases hread
      exact le_rfl
  | succ n ih =>
      obtain ⟨first, middle, others, hfirst, hothers, -⟩ := readMany_succ_eq_ok hread
      exact (ih hothers).trans (hshorter input first middle hfirst)

theorem length_le_of_readTyped {readItems : ℕ → Bytes → Except ReadError (List Value × Bytes)}
    (hshorter : ∀ n input items rest, readItems n input = .ok (items, rest) →
      rest.length ≤ input.length)
    {typ : UInt8} {text rest after : Bytes} {v : Value}
    (hread : readTyped readItems typ text rest = .ok (v, after)) :
    after.length ≤ rest.length := by
  unfold readTyped at hread
  split_ifs at hread
  · cases hread
    exact le_rfl
  · cases hread
    exact le_rfl
  · cases hparse : parseInt text with
    | none => simp [hparse] at hread
    | some n =>
        simp only [hparse] at hread
        cases hread
        exact le_rfl
  · cases hparse : parseInt text with
    | none => simp [hparse] at hread
    | some n =>
        simp only [hparse] at hread
        split_ifs at hread
        · cases hread
          exact le_rfl
        · cases hfull : readFull (n.toNat + 2) rest with
          | error err => simp [hfull, Except.map] at hread
          | ok r =>
              simp only [hfull, Except.map] at hread
              cases hread
              exact length_le_of_readFull hfull
  · cases hparse : parseInt text with
    | none => simp [hparse] at hread
    | some n =>
        simp only [hparse] at hread
        split_ifs at hread
        · cases hread
          exact le_rfl
        · cases hitems : readItems n.toNat rest with
          | error err => simp [hitems, Except.map] at hread
          | ok r =>
              simp only [hitems, Except.map] at hread
              cases hread
              exact hshorter n.toNat rest r.1 r.2 hitems

theorem length_lt_of_readNested {fuel : ℕ} {input rest : Bytes} {v : Value}
    (hread : readNested fuel input = .ok (v, rest)) : rest.length < input.length := by
  induction fuel generalizing input rest v with
  | zero => simp [readNested] at hread
  | succ fuel ih =>
      rw [readNested] at hread
      split at hread
      · cases hread
      · cases hread
      · rename_i typ text after hline
        have hitems : ∀ n input items rest,
            readMany (readNested fuel) n input = .ok (items, rest) →
              rest.length ≤ input.length :=
          fun n input items rest => length_le_of_readMany fun input v rest hread => (ih hread).le
        have hle := length_le_of_readTyped hitems hread
        have hlt := length_lt_of_readLine hline
        omega

theorem length_le_of_readReply (input : Bytes) (v : Value) (rest : Bytes)
    (hread : readReply input = .ok (v, rest)) : rest.length ≤ input.length :=
  (length_lt_of_readNested hread).le

/-! ## Enough fuel -/

theorem readMany_congr {read read' : Bytes → Except ReadError (α × Bytes)} {bound : ℕ}
    (hsame : ∀ input, input.length ≤ bound → read input = read' input)
    (hshorter : ∀ input v rest, read' input = .ok (v, rest) → rest.length ≤ input.length)
    (n : ℕ) {input : Bytes} (hbound : input.length ≤ bound) :
    readMany read n input = readMany read' n input := by
  induction n generalizing input with
  | zero => rfl
  | succ n ih =>
      rw [readMany, readMany, hsame input hbound]
      cases hread : read' input with
      | error err => rfl
      | ok r =>
          obtain ⟨v, rest⟩ := r
          have hle := hshorter input v rest hread
          simp only [ih (hle.trans hbound)]

theorem readTyped_congr {readItems readItems' : ℕ → Bytes → Except ReadError (List Value × Bytes)}
    {rest : Bytes} (hsame : ∀ n, readItems n rest = readItems' n rest) (typ : UInt8)
    (text : Bytes) : readTyped readItems typ text rest = readTyped readItems' typ text rest := by
  unfold readTyped
  simp only [hsame]

theorem readNested_congr {fuel fuel' : ℕ} {input : Bytes} (hfuel : input.length < fuel)
    (hfuel' : input.length < fuel') : readNested fuel input = readNested fuel' input := by
  induction fuel generalizing fuel' input with
  | zero => omega
  | succ fuel ih =>
      obtain ⟨fuel', rfl⟩ : ∃ n, fuel' = n + 1 := ⟨fuel' - 1, by omega⟩
      rw [readNested, readNested]
      cases hline : readLine input with
      | error err => rfl
      | ok r =>
          obtain ⟨line, rest⟩ := r
          have hlt := length_lt_of_readLine hline
          cases line with
          | nil => rfl
          | cons typ text =>
              have hsame : ∀ pos : Bytes, pos.length ≤ rest.length →
                  readNested fuel pos = readNested fuel' pos :=
                fun pos hpos => ih (by omega) (by omega)
              apply readTyped_congr
              intro n
              apply readMany_congr hsame _ n le_rfl
              intro pos v after hread
              exact (length_lt_of_readNested hread).le

theorem readNested_eq_readReply {fuel : ℕ} {input : Bytes} (hfuel : input.length < fuel) :
    readNested fuel input = readReply input :=
  readNested_congr hfuel (Nat.lt_succ_self _)

theorem readCommandLoop_array {input text rest : Bytes} (fuel : ℕ)
    (hline : readLine input = .ok (42 :: text, rest)) :
    readCommandLoop (fuel + 1) input =
      match parseInt text with
      | none => .error .errProtocol
      | some n => if n < 0 then .error .errProtocol else readMany readArg n.toNat rest := by
  cases hparse : parseInt text with
  | none => simp only [readCommandLoop, hline, hparse]
  | some n => simp only [readCommandLoop, hline, hparse]

theorem readCommandLoop_inline {input text rest : Bytes} {typ : UInt8} (htyp : typ ≠ 42)
    (fuel : ℕ) (hline : readLine input = .ok (typ :: text, rest)) :
    readCommandLoop (fuel + 1) input =
      (parseInline (typ :: text)).map fun args => (args, rest) := by
  rw [readCommandLoop, hline]
  split
  · contradiction
  · rename_i heq
    cases heq
  · rename_i heq
    cases heq
    exact absurd rfl htyp
  · rename_i heq
    cases heq
    rfl

theorem readCommandLoop_congr {fuel fuel' : ℕ} {input : Bytes} (hfuel : input.length < fuel)
    (hfuel' : input.length < fuel') : readCommandLoop fuel input = readCommandLoop fuel' input := by
  induction fuel generalizing fuel' input with
  | zero => omega
  | succ fuel ih =>
      obtain ⟨fuel', rfl⟩ : ∃ n, fuel' = n + 1 := ⟨fuel' - 1, by omega⟩
      cases hline : readLine input with
      | error err => rw [readCommandLoop, readCommandLoop, hline]
      | ok r =>
          obtain ⟨line, rest⟩ := r
          have hlt := length_lt_of_readLine hline
          cases line with
          | nil =>
              rw [readCommandLoop, readCommandLoop, hline]
              exact ih (by omega) (by omega)
          | cons typ text =>
              by_cases htyp : typ = 42
              · subst htyp
                rw [readCommandLoop_array fuel hline, readCommandLoop_array fuel' hline]
              · rw [readCommandLoop_inline htyp fuel hline,
                  readCommandLoop_inline htyp fuel' hline]

/-! ## The command reader -/

theorem parseInt_lt {text : Bytes} {n : ℤ} (hparse : parseInt text = some n) : n < 2 ^ 63 := by
  unfold parseInt at hparse
  split at hparse
  · obtain ⟨k, -, hk⟩ := Option.bind_eq_some_iff.mp hparse
    split_ifs at hk
    cases hk
    omega
  · obtain ⟨k, -, hk⟩ := Option.bind_eq_some_iff.mp hparse
    split_ifs at hk with hlt
    cases hk
    exact_mod_cast hlt
  · obtain ⟨k, -, hk⟩ := Option.bind_eq_some_iff.mp hparse
    split_ifs at hk with hlt
    cases hk
    exact_mod_cast hlt

theorem make_bytes_iff {n : ℤ} (hsign : 0 ≤ n) (hlt : n < 2 ^ 63) :
    0 ≤ int64 (n + 2) ∧ (1 : ℕ) * int64 (n + 2) ≤ maxAlloc ↔ n + 2 ≤ maxAlloc := by
  have hmax : (maxAlloc : ℤ) = 2 ^ 47 := by norm_num [maxAlloc]
  have hwrap : n + 2 < 2 ^ 63 ∧ int64 (n + 2) = n + 2 ∨
      2 ^ 63 ≤ n + 2 ∧ int64 (n + 2) = n + 2 - 2 ^ 64 := by
    rw [int64, Int.bmod_def]
    omega
  rw [hmax]
  omega

theorem making_readArg (input : Bytes) :
    Making.readArg input = (readArg input).mapError .failed := by
  have hbulk : (maxBulkLen : ℤ) = 2 ^ 28 := by norm_num [maxBulkLen]
  have hmax : (maxAlloc : ℤ) = 2 ^ 47 := by norm_num [maxAlloc]
  rw [readArg_eq, Making.readArg]
  cases hheader : argHeader input with
  | error err => rfl
  | ok h =>
      obtain ⟨blen, rest⟩ := h
      obtain ⟨line, text, -, -, -, hbounded⟩ := isLine_of_argHeader hheader
      have hlt : (blen : ℤ) < 2 ^ 63 := by omega
      have hroom : (blen : ℤ) + 2 ≤ maxAlloc := by omega
      have hrange := (make_bytes_iff (Int.natCast_nonneg blen) hlt).mpr hroom
      have hread : Guarded True (readFull (blen + 2) rest) _ := Guarded.of_always trivial
      have hmake := (hread.map fun r => (r.1.take blen, r.2)).make 1 (int64 (blen + 2))
      exact hmake.answers ⟨hrange, trivial⟩

theorem guarded_readArgs (n : ℕ) (input : Bytes) :
    Guarded True (readMany readArg n input) (readMany Making.readArg n input) := by
  refine ⟨fun _ => ?_, fun hnot => absurd trivial hnot⟩
  induction n generalizing input with
  | zero => rfl
  | succ n ih =>
      rw [readMany, readMany, making_readArg]
      cases readArg input with
      | error err => rfl
      | ok r =>
          simp only [Except.mapError, ih]
          cases readMany readArg n r.2 <;> rfl

theorem guarded_parseInline (line : Bytes) :
    Guarded (sliceSize * ((fieldsFrom 0 [] line).length : ℤ) ≤ maxAlloc) (parseInline line)
      (Making.parseInline line) := by
  unfold parseInline Making.parseInline
  cases hwords : fieldsFrom 0 [] line with
  | nil => exact Guarded.of_always (by simp)
  | cons word words =>
      have hwords : Guarded True (.ok (word :: words)) _ := Guarded.of_always trivial
      have hmake := hwords.make sliceSize ((word :: words).length : ℤ)
      exact hmake.congr ⟨fun h => ⟨⟨by omega, h⟩, trivial⟩, fun h => h.1.2⟩

theorem lineFits_of_line {input line rest : Bytes} (hline : readLine input = .ok (line, rest)) :
    LineFits input ↔ sliceSize * argCount line ≤ maxAlloc := by
  refine ⟨fun hfits => hfits line rest hline, fun hfits line' rest' hline' => ?_⟩
  rw [hline] at hline'
  cases hline'
  exact hfits

theorem commandFits_iff {input : Bytes} (depth : ℕ) :
    CommandFits (depth + 1) input ↔ LineFits input ∧
      ∀ rest, readLine input = .ok ([], rest) → CommandFits depth rest := by
  constructor
  · intro hfits
    refine ⟨(hfits 0 input (.here input)).2, fun rest hline n pos hskips => ?_⟩
    have hlater := hfits (n + 1) pos (.blank hline hskips)
    exact ⟨Nat.lt_of_succ_lt_succ hlater.1, hlater.2⟩
  · rintro ⟨hhere, hrest⟩ n pos hskips
    cases hskips with
    | here => exact ⟨Nat.succ_pos depth, hhere⟩
    | blank hblank hskips =>
        have hlater := hrest _ hblank _ pos hskips
        exact ⟨Nat.succ_lt_succ hlater.1, hlater.2⟩

theorem commandFits_of_error {input : Bytes} {err : ReadError}
    (hline : readLine input = .error err) (depth : ℕ) : CommandFits (depth + 1) input := by
  rw [commandFits_iff, LineFits, hline]
  exact ⟨fun _ _ h => (by cases h), fun _ h => (by cases h)⟩

theorem commandFits_of_blank {input rest : Bytes} (hline : readLine input = .ok ([], rest))
    (depth : ℕ) : CommandFits (depth + 1) input ↔ CommandFits depth rest := by
  rw [commandFits_iff, lineFits_of_line hline, hline]
  constructor
  · exact fun hfits => hfits.2 rest rfl
  · intro hfits
    refine ⟨by decide, fun rest' heq => ?_⟩
    cases heq
    exact hfits

theorem commandFits_of_line {input text rest : Bytes} {typ : UInt8}
    (hline : readLine input = .ok (typ :: text, rest)) (depth : ℕ) :
    CommandFits (depth + 1) input ↔ sliceSize * argCount (typ :: text) ≤ maxAlloc := by
  rw [commandFits_iff, lineFits_of_line hline, hline, and_iff_left]
  exact fun _ heq => (by cases heq)

theorem guarded_array {text : Bytes} (rest : Bytes) :
    Guarded (sliceSize * argCount (42 :: text) ≤ maxAlloc)
      (match parseInt text with
        | none => .error .errProtocol
        | some n => if n < 0 then .error .errProtocol else readMany readArg n.toNat rest)
      (match parseInt text with
        | none => .error (.failed .errProtocol)
        | some n =>
            if n < 0 then .error (.failed .errProtocol)
            else (makeSlice sliceSize n).bind fun _ => readMany Making.readArg n.toNat rest) := by
  cases hparse : parseInt text with
  | none =>
      apply Guarded.of_always
      simp [argCount, hparse]
  | some n =>
      have hcount : argCount (42 :: text) = n := by simp [argCount, hparse]
      rw [hcount]
      by_cases hsign : n < 0
      · simp only [if_pos hsign]
        apply Guarded.of_always
        have hneg : (sliceSize : ℤ) * n ≤ 0 := by
          rw [show (sliceSize : ℤ) = 24 by rfl]
          omega
        omega
      · simp only [if_neg hsign]
        have hmake := (guarded_readArgs n.toNat rest).make sliceSize n
        exact hmake.congr ⟨fun h => ⟨⟨by omega, h⟩, trivial⟩, fun h => h.1.2⟩

theorem making_readCommand_array {input text rest : Bytes} (depth : ℕ)
    (hline : readLine input = .ok (42 :: text, rest)) :
    Making.readCommand (depth + 1) input =
      match parseInt text with
      | none => .error (.failed .errProtocol)
      | some n =>
          if n < 0 then .error (.failed .errProtocol)
          else (makeSlice sliceSize n).bind fun _ => readMany Making.readArg n.toNat rest := by
  simp only [Making.readCommand, hline]

theorem making_readCommand_inline {input text rest : Bytes} {typ : UInt8} (htyp : typ ≠ 42)
    (depth : ℕ) (hline : readLine input = .ok (typ :: text, rest)) :
    Making.readCommand (depth + 1) input =
      (Making.parseInline (typ :: text)).map fun args => (args, rest) := by
  rw [Making.readCommand, hline]
  split
  · contradiction
  · rename_i heq
    cases heq
  · rename_i heq
    cases heq
    exact absurd rfl htyp
  · rename_i heq
    cases heq
    rfl

theorem readCommand_of_blank {input rest : Bytes} (hline : readLine input = .ok ([], rest)) :
    readCommand input = readCommand rest := by
  have hlt := length_lt_of_readLine hline
  rw [readCommand, readCommandLoop, hline]
  exact readCommandLoop_congr hlt (Nat.lt_succ_self _)

/-- With enough room for its empty lines, `ReadCommand` does what `readCommand` says
unless the first line asks for more than there is. -/
theorem guarded_readCommand (depth : ℕ) (input : Bytes) :
    Guarded (CommandFits depth input) (readCommand input) (Making.readCommand depth input) := by
  induction depth generalizing input with
  | zero =>
      refine ⟨fun hfits => ?_, fun _ => Or.inr rfl⟩
      exact absurd (hfits 0 input (.here input)).1 (Nat.lt_irrefl 0)
  | succ depth ih =>
      cases hline : readLine input with
      | error err =>
          rw [readCommand, readCommandLoop, Making.readCommand, hline]
          exact Guarded.of_always (commandFits_of_error hline depth)
      | ok r =>
          obtain ⟨line, rest⟩ := r
          cases line with
          | nil =>
              rw [readCommand_of_blank hline, Making.readCommand, hline]
              exact (ih rest).congr (commandFits_of_blank hline depth)
          | cons typ text =>
              have hfits := commandFits_of_line hline depth
              rw [readCommand]
              by_cases htyp : typ = 42
              · subst htyp
                rw [readCommandLoop_array _ hline, making_readCommand_array depth hline]
                exact (guarded_array rest).congr hfits
              · rw [readCommandLoop_inline htyp _ hline,
                  making_readCommand_inline htyp depth hline]
                have hcount : argCount (typ :: text) =
                    ((fieldsFrom 0 [] (typ :: text)).length : ℤ) := by
                  simp [argCount, htyp]
                rw [hcount] at hfits
                exact ((guarded_parseInline (typ :: text)).map _).congr hfits

/-! ## The reply reader -/

/-- The header announces no more than there is. -/
def NumberFits (typ : UInt8) (text : Bytes) : Prop :=
  ∀ n, parseInt text = some n →
    (typ = 36 → n + 2 ≤ maxAlloc) ∧ (typ = 42 → valueSize * n ≤ maxAlloc)

theorem headerFits_of_line {input text rest : Bytes} {typ : UInt8}
    (hline : readLine input = .ok (typ :: text, rest)) :
    HeaderFits input ↔ NumberFits typ text := by
  refine ⟨fun hfits n hparse => hfits typ text rest n hline hparse, ?_⟩
  intro hfits typ' text' rest' n hline' hparse
  rw [hline] at hline'
  cases hline'
  exact hfits n hparse

theorem guarded_bulk {text : Bytes} {n : ℤ} (hparse : parseInt text = some n) (hsign : ¬ n < 0)
    (rest : Bytes) :
    Guarded (n + 2 ≤ maxAlloc)
      ((readFull (n.toNat + 2) rest).map fun r => (Value.bulk (r.1.take n.toNat), r.2))
      ((makeSlice 1 (int64 (n + 2))).bind fun _ =>
        ((readFull (n.toNat + 2) rest).mapError .failed).map fun r =>
          (Value.bulk (r.1.take n.toNat), r.2)) := by
  have hread : Guarded True (readFull (n.toNat + 2) rest) _ := Guarded.of_always trivial
  have hmake := (hread.map fun r => (Value.bulk (r.1.take n.toNat), r.2)).make 1 (int64 (n + 2))
  have hrange := make_bytes_iff (not_lt.mp hsign) (parseInt_lt hparse)
  exact hmake.congr ⟨fun h => ⟨hrange.mpr h, trivial⟩, fun h => hrange.mp h.1⟩

theorem guarded_readTyped {readItems : ℕ → Bytes → Except ReadError (List Value × Bytes)}
    {making : ℕ → Bytes → Except Halt (List Value × Bytes)} {itemsFit : ℕ → Prop} {rest : Bytes}
    (hitems : ∀ n, Guarded (itemsFit n) (readItems n rest) (making n rest)) (typ : UInt8)
    (text : Bytes) :
    Guarded (NumberFits typ text ∧
        (typ = 42 → ∀ n, parseInt text = some n → 0 ≤ n → itemsFit n.toNat))
      (readTyped readItems typ text rest) (Making.readTyped making typ text rest) := by
  have hother : typ ≠ 36 → typ ≠ 42 → NumberFits typ text ∧
      (typ = 42 → ∀ n, parseInt text = some n → 0 ≤ n → itemsFit n.toNat) := by
    intro hbulk harray
    exact ⟨fun n _ => ⟨fun h => absurd h hbulk, fun h => absurd h harray⟩,
      fun h => absurd h harray⟩
  unfold readTyped Making.readTyped
  by_cases hsimple : typ = 43
  · simp only [if_pos hsimple]
    exact Guarded.of_always (hother (by rw [hsimple]; decide) (by rw [hsimple]; decide))
  by_cases herror : typ = 45
  · simp only [if_neg hsimple, if_pos herror]
    exact Guarded.of_always (hother (by rw [herror]; decide) (by rw [herror]; decide))
  by_cases hint : typ = 58
  · simp only [if_neg hsimple, if_neg herror, if_pos hint]
    have hfits := hother (by rw [hint]; decide) (by rw [hint]; decide)
    cases hparse : parseInt text with
    | none => exact Guarded.of_always (by simpa only [hparse] using hfits)
    | some n => exact Guarded.of_always (by simpa only [hparse] using hfits)
  by_cases hbulk : typ = 36
  · simp only [if_neg hsimple, if_neg herror, if_neg hint, if_pos hbulk]
    have harray : typ ≠ 42 := by rw [hbulk]; decide
    cases hparse : parseInt text with
    | none =>
        apply Guarded.of_always
        exact ⟨fun n hn => by simp [hparse] at hn, fun h => absurd h harray⟩
    | some n =>
        by_cases hsign : n < 0
        · simp only [if_pos hsign]
          apply Guarded.of_always
          refine ⟨fun m hm => ⟨fun _ => ?_, fun h => absurd h harray⟩, fun h => absurd h harray⟩
          rw [hparse] at hm
          cases hm
          have hmax : (maxAlloc : ℤ) = 2 ^ 47 := by norm_num [maxAlloc]
          omega
        · simp only [if_neg hsign]
          apply (guarded_bulk hparse hsign rest).congr
          constructor
          · intro hfits
            exact (hfits.1 n hparse).1 hbulk
          · intro hroom
            refine ⟨fun m hm => ⟨fun _ => ?_, fun h => absurd h harray⟩, fun h => absurd h harray⟩
            rw [hparse] at hm
            cases hm
            exact hroom
  by_cases harray : typ = 42
  · simp only [if_neg hsimple, if_neg herror, if_neg hint, if_neg hbulk, if_pos harray]
    cases hparse : parseInt text with
    | none =>
        apply Guarded.of_always
        exact ⟨fun n hn => by simp [hparse] at hn, fun _ n hn => by simp at hn⟩
    | some n =>
        by_cases hsign : n < 0
        · simp only [if_pos hsign]
          apply Guarded.of_always
          refine ⟨fun m hm => ⟨fun h => absurd h hbulk, fun _ => ?_⟩, fun _ m hm hpos => ?_⟩
          · rw [hparse] at hm
            cases hm
            have hneg : (valueSize : ℤ) * n ≤ 0 := by
              rw [show (valueSize : ℤ) = 88 by rfl]
              omega
            omega
          · cases hm
            omega
        · simp only [if_neg hsign]
          have hmake := ((hitems n.toNat).map fun r => (Value.array r.1, r.2)).make valueSize n
          apply hmake.congr
          constructor
          · rintro ⟨hfits, hfitItems⟩
            exact ⟨⟨not_lt.mp hsign, (hfits n hparse).2 harray⟩,
              hfitItems harray n rfl (not_lt.mp hsign)⟩
          · rintro ⟨⟨-, hroom⟩, hfitItems⟩
            refine ⟨fun m hm => ⟨fun h => absurd h hbulk, fun _ => ?_⟩, fun _ m hm _ => ?_⟩
            · rw [hparse] at hm
              cases hm
              exact hroom
            · cases hm
              exact hfitItems
  · simp only [if_neg hsimple, if_neg herror, if_neg hint, if_neg hbulk, if_neg harray]
    exact Guarded.of_always (hother hbulk harray)

theorem replyFits_of_line {input text rest : Bytes} {typ : UInt8}
    (hline : readLine input = .ok (typ :: text, rest)) (depth : ℕ) :
    ReplyFits (depth + 1) input ↔ NumberFits typ text ∧
      (typ = 42 → ∀ n, parseInt text = some n → 0 ≤ n → ∀ i < n.toNat, ∀ items pos,
        readMany readReply i rest = .ok (items, pos) → ReplyFits depth pos) := by
  constructor
  · intro hfits
    refine ⟨(headerFits_of_line hline).mp (hfits 0 input (.here input)).2, ?_⟩
    intro htyp n hparse _ i hi items pos hbefore level last hlast
    rw [htyp] at hline
    have hdeeper := hfits (level + 1) last (.item hline hparse (by omega) hbefore hlast)
    exact ⟨Nat.lt_of_succ_lt_succ hdeeper.1, hdeeper.2⟩
  · rintro ⟨hnumber, hitems⟩ level last hlast
    cases hlast with
    | here => exact ⟨Nat.succ_pos depth, (headerFits_of_line hline).mpr hnumber⟩
    | item hline' hcount hi hbefore hlast =>
        rw [hline] at hline'
        cases hline'
        have hdeeper := hitems rfl _ hcount (by omega) _ (by omega) _ _ hbefore _ last hlast
        exact ⟨Nat.succ_lt_succ hdeeper.1, hdeeper.2⟩

theorem replyFits_of_not_line {input : Bytes}
    (hline : ∀ typ text rest, readLine input ≠ .ok (typ :: text, rest)) (depth : ℕ) :
    ReplyFits (depth + 1) input := by
  intro level last hlast
  cases hlast with
  | here =>
      exact ⟨Nat.succ_pos depth,
        fun typ text rest n hline' _ => absurd hline' (hline typ text rest)⟩
  | item hline' _ _ _ _ => exact absurd hline' (hline _ _ _)

/-- With enough room for its nested arrays, `ReadReply` does what `readReply` says
unless a header that it comes to asks for more than there is. -/
theorem guarded_readReply (depth : ℕ) (input : Bytes) :
    Guarded (ReplyFits depth input) (readReply input) (Making.readReply depth input) := by
  induction depth generalizing input with
  | zero =>
      refine ⟨fun hfits => ?_, fun _ => Or.inr rfl⟩
      exact absurd (hfits 0 input (.here input)).1 (Nat.lt_irrefl 0)
  | succ depth ih =>
      rw [readReply, readNested, Making.readReply]
      cases hline : readLine input with
      | error err => exact Guarded.of_always (replyFits_of_not_line (by simp [hline]) depth)
      | ok r =>
          obtain ⟨line, rest⟩ := r
          have hlt := length_lt_of_readLine hline
          cases line with
          | nil => exact Guarded.of_always (replyFits_of_not_line (by simp [hline]) depth)
          | cons typ text =>
              have hnested : ∀ pos : Bytes, pos.length ≤ rest.length →
                  readNested input.length pos = readReply pos :=
                fun pos hpos => readNested_eq_readReply (by omega)
              have hitems := fun n => Guarded.readMany ih n rest
              have hplain := fun n =>
                readMany_congr hnested length_le_of_readReply n (le_refl rest.length)
              simp only [readTyped_congr hplain]
              exact (guarded_readTyped hitems typ text).congr (replyFits_of_line hline depth)

/-! ## Both readers -/

/-- Both readers come to an end on every input, with a value or an error exactly if
there is room for what they ask: for a call for each of the empty lines in front of a
command and for the arguments that its first line announces, and for the calls and
for what the headers announce at every place where a reply is read. -/
theorem readers_end_without_panic_iff (depth : ℕ) (input : Bytes) :
    (¬ Dies (Making.readCommand depth input) ↔
      ∀ n pos, Skips n input pos → n < depth ∧ LineFits pos) ∧
    (¬ Dies (Making.readReply depth input) ↔
      ∀ n pos, Reaches n input pos → n < depth ∧ HeaderFits pos) :=
  ⟨(guarded_readCommand depth input).not_dies_iff, (guarded_readReply depth input).not_dies_iff⟩

theorem readCommand_newlines (depth : ℕ) (rest : Bytes) :
    Making.readCommand depth (List.replicate depth 10 ++ rest) = .error .overflowed := by
  induction depth with
  | zero => rfl
  | succ depth ih => exact ih

theorem readReply_nested (depth : ℕ) (rest : Bytes) :
    Making.readReply depth ((List.replicate depth [42, 49, 13, 10]).flatten ++ rest) =
      .error .overflowed := by
  induction depth with
  | zero => rfl
  | succ depth ih =>
      have hline : ∀ input, readLine ([42, 49, 13, 10] ++ input) = .ok ([42, 49], input) :=
        fun _ => rfl
      have hparse : parseInt [49] = some 1 := by decide
      have hmake : makeSlice valueSize 1 = .ok () := by decide
      rw [List.replicate_succ, List.flatten_cons, List.append_assoc, Making.readReply, hline]
      simp [Making.readTyped, hparse, hmake, Except.bind, readMany, ih, Except.map]

/-- A header with the largest number of 64 bits, for a command and for a bulk, where
the length that is made has wrapped around; and, whatever the room on the stack, that
many newlines in front of a command or arrays around a reply. -/
theorem largest_header_panics :
    Making.readCommand 2 (42 :: formatNat (2 ^ 63 - 1) ++ crlf) = .error .panicked ∧
      Making.readReply 2 (36 :: formatNat (2 ^ 63 - 1) ++ crlf) = .error .panicked ∧
      (∀ depth rest, Making.readCommand depth (List.replicate depth 10 ++ rest) =
        .error .overflowed) ∧
      ∀ depth rest, Making.readReply depth
        ((List.replicate depth [42, 49, 13, 10]).flatten ++ rest) = .error .overflowed := by
  have hparse : parseInt (formatNat (2 ^ 63 - 1)) = some ((2 ^ 63 - 1 : ℕ) : ℤ) :=
    parseInt_formatNat (by norm_num)
  have hline : ∀ typ, typ ≠ 10 → typ ≠ 13 → readLine (typ :: formatNat (2 ^ 63 - 1) ++ crlf) =
      .ok (typ :: formatNat (2 ^ 63 - 1), []) := by
    intro typ hlf hcr
    have hread := readLine_oneLine hlf hcr (oneLine_formatNat (2 ^ 63 - 1)) []
    rwa [List.append_nil] at hread
  have hslices : makeSlice sliceSize ((2 ^ 63 - 1 : ℕ) : ℤ) = .error .panicked := by decide
  have hbytes : makeSlice 1 (int64 (((2 ^ 63 - 1 : ℕ) : ℤ) + 2)) = .error .panicked := by decide
  refine ⟨?_, ?_, readCommand_newlines, readReply_nested⟩
  · rw [making_readCommand_array 1 (hline 42 (by decide) (by decide)), hparse]
    simp only [hslices]
    rfl
  · rw [Making.readReply, hline 36 (by decide) (by decide)]
    simp only [Making.readTyped, hparse, hbytes]
    rfl

end Resp
end DistCache
