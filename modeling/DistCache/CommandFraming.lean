import DistCache.RespCommands
import Mathlib.Data.List.TakeWhile

/-!
# What the command reader has consumed

A well framed array is a line with the number of its arguments and, for each of them, a
line with its length, its bytes and a line end.  `ReadCommand` takes more than that: a
line may close with its line feed alone or with several carriage returns, the number is
what `Atoi` takes for one, and the two bytes behind an argument are cut off without a
look at them.
-/

namespace DistCache
namespace Resp

/-! ## Lines -/

/-- The bytes of a line with this text: any carriage returns and the line feed
come behind it. -/
def IsLine (raw text : Bytes) : Prop :=
  OneLine text ∧ ∃ k, raw = text ++ List.replicate k 13 ++ [10]

theorem trimCRLF_replicate {text : Bytes} (htext : OneLine text) (k : ℕ) :
    trimCRLF (text ++ List.replicate k 13 ++ [10]) = text := by
  have hreverse : (text ++ List.replicate k 13 ++ [10]).reverse =
      10 :: (List.replicate k 13 ++ text.reverse) := by
    simp
  have hends : (List.replicate k (13 : UInt8) ++ text.reverse).dropWhile
      (fun c => c == 10 || c == 13) =
      text.reverse.dropWhile fun c => c == 10 || c == 13 := by
    rw [List.dropWhile_append_of_pos]
    intro c hmem
    simp [(List.mem_replicate.mp hmem).2]
  have hkept : text.reverse.dropWhile (fun c => c == 10 || c == 13) = text.reverse := by
    cases hlast : text.reverse with
    | nil => rfl
    | cons b rest =>
        have hsplit : text = rest.reverse ++ [b] := by
          rw [← List.reverse_reverse text, hlast, List.reverse_cons]
        have hlf : b ≠ 10 := by
          rintro rfl
          exact htext.1 (by simp [hsplit])
        have hcr : b ≠ 13 := by
          rintro rfl
          exact htext.2 (by simp [hsplit])
        rw [List.dropWhile_cons_of_neg (by simp [hlf, hcr])]
  rw [trimCRLF, hreverse, List.dropWhile_cons_of_pos (by decide), hends, hkept,
    List.reverse_reverse]

theorem readLine_of_isLine {raw text : Bytes} (hline : IsLine raw text) (rest : Bytes) :
    readLine (raw ++ rest) = .ok (text, rest) := by
  obtain ⟨htext, k, rfl⟩ := hline
  have hfree : 10 ∉ text ++ List.replicate k 13 := by
    simp [htext.1]
  have hsplit : text ++ List.replicate k 13 ++ [10] ++ rest =
      text ++ List.replicate k 13 ++ 10 :: rest := by
    simp
  rw [readLine, hsplit, readBytes_append hfree]
  simp only [Except.map, trimCRLF_replicate htext k]

theorem append_of_readBytes {input line rest : Bytes}
    (hread : readBytes input = .ok (line, rest)) : input = line ++ rest := by
  induction input generalizing line with
  | nil => simp [readBytes] at hread
  | cons b input ih =>
      simp only [readBytes] at hread
      split_ifs at hread with hb
      · cases hread
        simp
      · cases hrest : readBytes input with
        | error err => simp [hrest, Except.map] at hread
        | ok r =>
            simp only [hrest, Except.map, Except.ok.injEq, Prod.mk.injEq] at hread
            have hinput : input = r.1 ++ rest := ih (by rw [hrest, ← hread.2])
            rw [← hread.1, List.cons_append, ← hinput]

theorem isLine_trimCRLF {s : Bytes} (hfree : 10 ∉ s) :
    IsLine (s ++ [10]) (trimCRLF (s ++ [10])) := by
  have htrim : trimCRLF (s ++ [10]) =
      (s.reverse.dropWhile fun c => c == 10 || c == 13).reverse := by
    rw [trimCRLF, List.reverse_append]
    rfl
  have hsplit : s = (s.reverse.dropWhile fun c => c == 10 || c == 13).reverse ++
      (s.reverse.takeWhile fun c => c == 10 || c == 13).reverse := by
    rw [← List.reverse_append, List.takeWhile_append_dropWhile, List.reverse_reverse]
  have hends : ∀ c ∈ (s.reverse.takeWhile fun c => c == 10 || c == 13).reverse,
      c = (13 : UInt8) := by
    intro c hmem
    rw [List.mem_reverse] at hmem
    have hends := List.mem_takeWhile_imp hmem
    have hin : c ∈ s := List.mem_reverse.mp ((List.takeWhile_sublist _).subset hmem)
    have hlf : c ≠ 10 := by
      rintro rfl
      exact hfree hin
    simpa [hlf] using hends
  rw [htrim]
  refine ⟨⟨?_, ?_⟩, (s.reverse.takeWhile fun c => c == 10 || c == 13).reverse.length, ?_⟩
  · rw [List.mem_reverse]
    intro hmem
    exact hfree (List.mem_reverse.mp ((List.dropWhile_sublist _).subset hmem))
  · rw [List.getLast?_reverse]
    intro hhead
    have hnot := List.head?_dropWhile_not (fun c : UInt8 => c == 10 || c == 13) s.reverse
    rw [hhead] at hnot
    simp at hnot
  · rw [← List.eq_replicate_of_mem hends, ← hsplit]

theorem isLine_of_readLine {input text rest : Bytes}
    (hread : readLine input = .ok (text, rest)) :
    ∃ raw, input = raw ++ rest ∧ IsLine raw text := by
  unfold readLine at hread
  cases hbytes : readBytes input with
  | error err => simp [hbytes, Except.map] at hread
  | ok r =>
      obtain ⟨line, after⟩ := r
      simp only [hbytes, Except.map, Except.ok.injEq, Prod.mk.injEq] at hread
      obtain ⟨s, hs, hfree⟩ := not_mem_of_readBytes hbytes
      refine ⟨line, ?_, ?_⟩
      · rw [← hread.2]
        exact append_of_readBytes hbytes
      · rw [← hread.1, hs]
        exact isLine_trimCRLF hfree

/-! ## Frames -/

/-- The bytes that stand for these arguments. -/
def framed (args : List Bytes) : Bytes :=
  42 :: formatNat args.length ++ crlf ++
    args.flatMap fun arg => 36 :: formatNat arg.length ++ crlf ++ arg ++ crlf

/-- An argument as the reader takes it, with the two bytes that it cuts off. -/
structure Frame where
  line : Bytes
  text : Bytes
  arg : Bytes
  trailer : Bytes
  isLine : IsLine line (36 :: text)
  length : parseInt text = some (arg.length : ℤ)
  bounded : arg.length ≤ maxBulkLen
  two : trailer.length = 2

namespace Frame

def bytes (f : Frame) : Bytes := f.line ++ f.arg ++ f.trailer

/-- The line has the decimal length and ends as it should, and so does the argument. -/
def Strict (f : Frame) : Prop :=
  f.line = 36 :: formatNat f.arg.length ++ crlf ∧ f.trailer = crlf

end Frame

def argHeader (input : Bytes) : Except ReadError (ℕ × Bytes) :=
  match readLine input with
  | .error err => .error err
  | .ok (36 :: text, rest) =>
      match parseInt text with
      | none => .error .errProtocol
      | some blen =>
          if blen < 0 ∨ (maxBulkLen : ℤ) < blen then .error .errProtocol
          else .ok (blen.toNat, rest)
  | .ok _ => .error .errProtocol

theorem readArg_eq (input : Bytes) :
    readArg input = (argHeader input).bind fun h =>
      (readFull (h.1 + 2) h.2).map fun r => (r.1.take h.1, r.2) := by
  unfold readArg argHeader
  cases readLine input with
  | error err => rfl
  | ok r =>
      obtain ⟨line, rest⟩ := r
      cases line with
      | nil => rfl
      | cons typ text =>
          by_cases htyp : typ = 36
          · subst htyp
            simp only
            cases parseInt text with
            | none => rfl
            | some blen =>
                simp only
                split_ifs <;> rfl
          · simp [htyp, Except.bind]

/-! ## What the reader takes -/

theorem isLine_of_argHeader {input rest : Bytes} {blen : ℕ}
    (hread : argHeader input = .ok (blen, rest)) :
    ∃ line text, input = line ++ rest ∧ IsLine line (36 :: text) ∧
      parseInt text = some (blen : ℤ) ∧ blen ≤ maxBulkLen := by
  unfold argHeader at hread
  split at hread
  · cases hread
  · rename_i text after hline
    obtain ⟨line, hinput, hisLine⟩ := isLine_of_readLine hline
    cases hparse : parseInt text with
    | none => simp [hparse] at hread
    | some n =>
        simp only [hparse] at hread
        split_ifs at hread with hbounds
        simp only [Except.ok.injEq, Prod.mk.injEq] at hread
        obtain ⟨rfl, rfl⟩ := hread
        have hnat : (n.toNat : ℤ) = n := by omega
        exact ⟨line, text, hinput, hisLine, by rw [hnat, hparse], by omega⟩
  · cases hread

theorem frame_of_readArg {input rest arg : Bytes} (hread : readArg input = .ok (arg, rest)) :
    ∃ f : Frame, input = f.bytes ++ rest ∧ f.arg = arg := by
  rw [readArg_eq] at hread
  cases hheader : argHeader input with
  | error err => simp [hheader, Except.bind] at hread
  | ok h =>
      obtain ⟨blen, after⟩ := h
      obtain ⟨line, text, hinput, hline, hparse, hbounded⟩ := isLine_of_argHeader hheader
      simp only [hheader, Except.bind, readFull] at hread
      split_ifs at hread with hle
      · simp only [Except.map, Except.ok.injEq, Prod.mk.injEq] at hread
        obtain ⟨rfl, rfl⟩ := hread
        have harg : (after.take (blen + 2)).take blen = after.take blen := by
          rw [List.take_take, Nat.min_eq_left (by omega)]
        have hargs : (after.take blen).length = blen := by
          rw [List.length_take, Nat.min_eq_left (by omega)]
        let f : Frame :=
          { line := line, text := text, arg := after.take blen,
            trailer := (after.take (blen + 2)).drop blen, isLine := hline,
            length := by rw [hargs, hparse], bounded := by rw [hargs]; exact hbounded,
            two := by rw [List.length_drop, List.length_take]; omega }
        refine ⟨f, ?_, harg.symm⟩
        have hsplit : after.take blen ++ (after.take (blen + 2)).drop blen =
            after.take (blen + 2) := by
          rw [← harg, List.take_append_drop]
        rw [Frame.bytes, List.append_assoc line, hsplit, List.append_assoc,
          List.take_append_drop, hinput]
      · simp [Except.map] at hread
      · simp [Except.map] at hread

theorem frames_of_readMany {n : ℕ} {input rest : Bytes} {args : List Bytes}
    (hread : readMany readArg n input = .ok (args, rest)) :
    ∃ frames : List Frame, input = frames.flatMap Frame.bytes ++ rest ∧
      frames.map Frame.arg = args := by
  induction n generalizing input args with
  | zero =>
      cases hread
      exact ⟨[], rfl, rfl⟩
  | succ n ih =>
      obtain ⟨first, middle, others, hfirst, hothers, rfl⟩ := readMany_succ_eq_ok hread
      obtain ⟨f, hinput, harg⟩ := frame_of_readArg hfirst
      obtain ⟨frames, hmiddle, hargs⟩ := ih hothers
      refine ⟨f :: frames, ?_, ?_⟩
      · rw [hinput, hmiddle, List.flatMap_cons, List.append_assoc]
      · rw [List.map_cons, harg, hargs]

theorem line_of_star {input line rest : Bytes} (hstar : input.head? = some 42)
    (hline : readLine input = .ok (line, rest)) : ∃ text, line = 42 :: text := by
  obtain ⟨raw, hinput, -, k, hraw⟩ := isLine_of_readLine hline
  cases line with
  | nil =>
      cases k with
      | zero => simp [hinput, hraw] at hstar
      | succ k => simp [hinput, hraw, List.replicate_succ] at hstar
  | cons typ text =>
      have htyp : typ = 42 := by simpa [hinput, hraw] using hstar
      exact ⟨text, by rw [htyp]⟩

theorem frames_of_readCommand {input rest : Bytes} {args : List Bytes}
    (hstar : input.head? = some 42) (hread : readCommand input = .ok (args, rest)) :
    ∃ header text, ∃ frames : List Frame, IsLine header (42 :: text) ∧
      parseInt text = some (args.length : ℤ) ∧ frames.map Frame.arg = args ∧
      input = header ++ frames.flatMap Frame.bytes ++ rest := by
  rw [readCommand, readCommandLoop] at hread
  cases hline : readLine input with
  | error err => simp [hline] at hread
  | ok r =>
      obtain ⟨line, after⟩ := r
      obtain ⟨text, rfl⟩ := line_of_star hstar hline
      obtain ⟨header, hinput, hheader⟩ := isLine_of_readLine hline
      cases hparse : parseInt text with
      | none => simp [hline, hparse] at hread
      | some n =>
          simp only [hline, hparse] at hread
          split_ifs at hread with hsign
          have hcount := length_of_readMany hread
          have hnat : (n.toNat : ℤ) = n := by omega
          obtain ⟨frames, hafter, hargs⟩ := frames_of_readMany hread
          refine ⟨header, text, frames, hheader, by rw [hcount, hnat, hparse], hargs, ?_⟩
          rw [hinput, hafter, List.append_assoc]

/-! ## Exactly the well framed arrays -/

theorem eq_of_decimal_line {raw line rest rest' : Bytes} {typ : UInt8} {n : ℕ}
    (hlf : typ ≠ 10) (hcr : typ ≠ 13) (hline : IsLine raw line)
    (heq : raw ++ rest = typ :: formatNat n ++ crlf ++ rest') :
    raw = typ :: formatNat n ++ crlf ∧ rest = rest' := by
  have hread := readLine_of_isLine hline rest
  rw [heq, readLine_oneLine hlf hcr (oneLine_formatNat n) rest'] at hread
  simp only [Except.ok.injEq, Prod.mk.injEq] at hread
  obtain ⟨-, rfl⟩ := hread
  exact ⟨List.append_cancel_right heq, rfl⟩

theorem strict_frames {frames : List Frame}
    (heq : frames.flatMap Frame.bytes = (frames.map Frame.arg).flatMap fun arg =>
      36 :: formatNat arg.length ++ crlf ++ arg ++ crlf) : ∀ f ∈ frames, f.Strict := by
  induction frames with
  | nil => exact fun f hf => absurd hf List.not_mem_nil
  | cons f frames ih =>
      simp only [List.map_cons, List.flatMap_cons, Frame.bytes, List.append_assoc] at heq
      rw [← List.append_assoc (36 :: formatNat f.arg.length)] at heq
      obtain ⟨hline, hrest⟩ := eq_of_decimal_line (by decide) (by decide) f.isLine heq
      have htrailer := List.append_cancel_left hrest
      obtain ⟨hend, htail⟩ := List.append_inj htrailer f.two
      simp only [← List.append_assoc] at htail
      exact List.forall_mem_cons.mpr ⟨⟨hline, hend⟩, ih htail⟩

theorem bytes_of_strict {frames : List Frame} (hstrict : ∀ f ∈ frames, f.Strict) :
    frames.flatMap Frame.bytes = (frames.map Frame.arg).flatMap fun arg =>
      36 :: formatNat arg.length ++ crlf ++ arg ++ crlf := by
  induction frames with
  | nil => rfl
  | cons f frames ih =>
      obtain ⟨hfirst, hrest⟩ := List.forall_mem_cons.mp hstrict
      rw [List.flatMap_cons, List.map_cons, List.flatMap_cons, ih hrest, Frame.bytes, hfirst.1,
        hfirst.2]

theorem eq_framed_iff {header line : Bytes} {frames : List Frame} (hheader : IsLine header line) :
    header ++ frames.flatMap Frame.bytes = framed (frames.map Frame.arg) ↔
      header = 42 :: formatNat frames.length ++ crlf ∧ ∀ f ∈ frames, f.Strict := by
  rw [framed, List.length_map]
  constructor
  · intro heq
    obtain ⟨hline, hrest⟩ := eq_of_decimal_line (by decide) (by decide) hheader heq
    exact ⟨hline, strict_frames hrest⟩
  · rintro ⟨hline, hstrict⟩
    rw [hline, bytes_of_strict hstrict]

/-- What is read from an input that starts with a star was a line with a number and
a frame for each argument.  It was the well framed array exactly if the numbers were
in decimal, the lines ended with a carriage return and a line feed, and so did the
arguments. -/
theorem accepted_well_framed_iff {input rest : Bytes} {args : List Bytes}
    (hstar : input.head? = some 42) (hread : readCommand input = .ok (args, rest)) :
    ∃ header text, ∃ frames : List Frame, IsLine header (42 :: text) ∧
      parseInt text = some (args.length : ℤ) ∧ frames.map Frame.arg = args ∧
      input = header ++ frames.flatMap Frame.bytes ++ rest ∧
      (header ++ frames.flatMap Frame.bytes = framed args ↔
        header = 42 :: formatNat args.length ++ crlf ∧ ∀ f ∈ frames, f.Strict) := by
  obtain ⟨header, text, frames, hheader, hcount, rfl, hinput⟩ :=
    frames_of_readCommand hstar hread
  refine ⟨header, text, frames, hheader, hcount, rfl, hinput, ?_⟩
  rw [eq_framed_iff hheader, List.length_map]

/-- One argument behind a line that ends with its line feed alone, in front of
another command. -/
theorem accepted_well_framed_one_byte :
    ∃ header text, ∃ frames : List Frame, IsLine header (42 :: text) ∧
      parseInt text = some 1 ∧ frames.map Frame.arg = [[97]] ∧
      [42, 49, 13, 10, 36, 49, 10, 97, 13, 10, 42] =
        header ++ frames.flatMap Frame.bytes ++ [42] ∧
      (header ++ frames.flatMap Frame.bytes = framed [[97]] ↔
        header = [42, 49, 13, 10] ∧ ∀ f ∈ frames, f.Strict) := by
  have hread : readCommand [42, 49, 13, 10, 36, 49, 10, 97, 13, 10, 42] = .ok ([[97]], [42]) := rfl
  have hiff := accepted_well_framed_iff rfl hread
  exact hiff

/-- Letters behind an argument, a length with a sign, and numbers with a sign and a
leading zero on lines that do not end with a carriage return and a line feed. -/
theorem accepted_without_framing :
    (readCommand [42, 49, 13, 10, 36, 49, 13, 10, 97, 88, 89] = .ok ([[97]], []) ∧
      [42, 49, 13, 10, 36, 49, 13, 10, 97, 88, 89] ≠ framed [[97]]) ∧
    (readCommand [42, 49, 13, 10, 36, 45, 48, 13, 10, 13, 10] = .ok ([[]], []) ∧
      [42, 49, 13, 10, 36, 45, 48, 13, 10, 13, 10] ≠ framed [[]]) ∧
    readCommand [42, 43, 49, 10, 36, 43, 48, 49, 13, 13, 10, 97, 13, 10] = .ok ([[97]], []) ∧
      [42, 43, 49, 10, 36, 43, 48, 49, 13, 13, 10, 97, 13, 10] ≠ framed [[97]] := by
  refine ⟨⟨rfl, ?_⟩, ⟨rfl, ?_⟩, rfl, ?_⟩ <;> decide

end Resp
end DistCache
