import DistCache.RespProtocol

/-!
# Commands on the wire

A command is an array of bulks: a line with the number of the arguments and, for each of
them, a line with its length and that many bytes.  A line that is no array is split into
words, and empty lines are skipped.  A negative length and one above `maxBulkLen` are
refused.  What `make` does with a count that no memory has is left out here.
-/

namespace DistCache
namespace Resp

/-- 256 MiB. -/
def maxBulkLen : ℕ := 256 * 2 ^ 20

/-! ## The writer -/

def writeArg (arg : Bytes) : Bytes := 36 :: formatNat arg.length ++ crlf ++ arg ++ crlf

def writeCommand (args : List Bytes) : Bytes :=
  writeArrayHeader args.length ++ args.flatMap writeArg

/-! ## The reader -/

def spaceWidth : Bytes → ℕ
  | 0xE1 :: 0x9A :: 0x80 :: _ => 3
  | 0xE2 :: 0x80 :: c :: _ =>
      if 0x80 ≤ c ∧ c ≤ 0x8A ∨ c = 0xA8 ∨ c = 0xA9 ∨ c = 0xAF then 3 else 0
  | 0xE2 :: 0x81 :: 0x9F :: _ => 3
  | 0xE3 :: 0x80 :: 0x80 :: _ => 3
  | 0xC2 :: c :: _ => if c = 0x85 ∨ c = 0xA0 then 2 else 0
  | c :: _ => if 9 ≤ c ∧ c ≤ 13 ∨ c = 32 then 1 else 0
  | [] => 0

def endWord (word : Bytes) : List Bytes := if word = [] then [] else [word]

/-- `strings.Fields`; `skip` counts the bytes of a white space character that are
still to come. -/
def fieldsFrom : ℕ → Bytes → Bytes → List Bytes
  | _, word, [] => endWord word
  | skip + 1, word, _ :: rest => fieldsFrom skip word rest
  | 0, word, c :: rest =>
      match spaceWidth (c :: rest) with
      | 0 => fieldsFrom 0 (word ++ [c]) rest
      | width + 1 => endWord word ++ fieldsFrom width [] rest

def parseInline (line : Bytes) : Except ReadError (List Bytes) :=
  match fieldsFrom 0 [] line with
  | [] => .error .errProtocol
  | words => .ok words

def readArg (input : Bytes) : Except ReadError (Bytes × Bytes) :=
  match readLine input with
  | .error err => .error err
  | .ok (36 :: text, rest) =>
      match parseInt text with
      | none => .error .errProtocol
      | some blen =>
          if blen < 0 ∨ (maxBulkLen : ℤ) < blen then .error .errProtocol
          else (readFull (blen.toNat + 2) rest).map fun r => (r.1.take blen.toNat, r.2)
  | .ok _ => .error .errProtocol

/-- `ReadCommand`; the fuel bounds how many empty lines are skipped. -/
def readCommandLoop : ℕ → Bytes → Except ReadError (List Bytes × Bytes)
  | 0, _ => .error .eof
  | fuel + 1, input =>
      match readLine input with
      | .error err => .error err
      | .ok ([], rest) => readCommandLoop fuel rest
      | .ok (42 :: text, rest) =>
          match parseInt text with
          | none => .error .errProtocol
          | some n => if n < 0 then .error .errProtocol else readMany readArg n.toNat rest
      | .ok (line, rest) => (parseInline line).map fun args => (args, rest)

/-- Every empty line takes at least a byte of the input. -/
def readCommand (input : Bytes) : Except ReadError (List Bytes × Bytes) :=
  readCommandLoop (input.length + 1) input

/-! ## Reading back what was written -/

/-- The arguments that the reader admits; the length of a slice is an `int`. -/
structure Admitted (args : List Bytes) : Prop where
  count : args.length < 2 ^ 63
  sizes : ∀ arg ∈ args, arg.length ≤ maxBulkLen

theorem readArg_writeArg {arg : Bytes} (hsize : arg.length ≤ maxBulkLen) (rest : Bytes) :
    readArg (writeArg arg ++ rest) = .ok (arg, rest) := by
  have hmax : maxBulkLen = 2 ^ 28 := by norm_num [maxBulkLen]
  have hparse : parseInt (formatNat arg.length) = some (arg.length : ℤ) :=
    parseInt_formatNat (by omega)
  have hsplit : writeArg arg ++ rest =
      36 :: formatNat arg.length ++ crlf ++ (arg ++ crlf ++ rest) := by
    simp [writeArg]
  have hline : readLine (writeArg arg ++ rest) =
      .ok (36 :: formatNat arg.length, arg ++ crlf ++ rest) := by
    rw [hsplit]
    exact readLine_oneLine (by decide) (by decide) (oneLine_formatNat arg.length) _
  have hbounds : ¬ ((arg.length : ℤ) < 0 ∨ (maxBulkLen : ℤ) < arg.length) := by omega
  simp only [readArg, hline, hparse, if_neg hbounds, Int.toNat_natCast, readFull_crlf]
  simp [Except.map]

theorem readCommand_writeCommand {args : List Bytes} (hadmitted : Admitted args)
    (rest : Bytes) : readCommand (writeCommand args ++ rest) = .ok (args, rest) := by
  have hparse : parseInt (formatNat args.length) = some (args.length : ℤ) :=
    parseInt_formatNat hadmitted.count
  have hline : readLine (writeCommand args ++ rest) =
      .ok (42 :: formatNat args.length, args.flatMap writeArg ++ rest) := by
    rw [writeCommand, writeArrayHeader_natCast, List.append_assoc]
    exact readLine_oneLine (by decide) (by decide) (oneLine_formatNat args.length) _
  have hargs : readMany readArg args.length (args.flatMap writeArg ++ rest) =
      .ok (args, rest) :=
    readMany_flatMap (fun arg hmem => readArg_writeArg (hadmitted.sizes arg hmem)) rest
  have hsign : ¬ ((args.length : ℤ) < 0) := by omega
  simp only [readCommand, readCommandLoop, hline, hparse, if_neg hsign, Int.toNat_natCast,
    hargs]

/-- A pipeline of commands is read back command by command, and what follows it is
left. -/
theorem pipeline_read_back (cmds : List (List Bytes)) (hadmitted : ∀ args ∈ cmds, Admitted args)
    (rest : Bytes) :
    readMany readCommand cmds.length (cmds.flatMap writeCommand ++ rest) = .ok (cmds, rest) := by
  apply readMany_flatMap
  intro args hmem rest
  exact readCommand_writeCommand (hadmitted args hmem) rest

/-- Arguments that look like the protocol, an empty one and an empty command. -/
theorem pipeline_read_back_binary :
    readMany readCommand 3
        ([[[83, 69, 84], [36, 51, 13, 10], [13, 10, 0, 42]], [], [[], [10]]].flatMap
          writeCommand ++ [42, 49]) =
      .ok ([[[83, 69, 84], [36, 51, 13, 10], [13, 10, 0, 42]], [], [[], [10]]], [42, 49]) := by
  apply pipeline_read_back [[[83, 69, 84], [36, 51, 13, 10], [13, 10, 0, 42]], [], [[], [10]]]
  intro args hmem
  simp only [List.mem_cons, List.not_mem_nil, or_false] at hmem
  rcases hmem with rfl | rfl | rfl
  · exact ⟨by decide, by decide⟩
  · exact ⟨by decide, by decide⟩
  · exact ⟨by decide, by decide⟩

end Resp
end DistCache
