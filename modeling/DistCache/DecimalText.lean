import DistCache.CacheShard

/-!
# Numbers written in decimal are read back

The program writes its lengths, counts and counters with `%d` or `FormatInt` and
reads them with `Atoi` or `ParseInt`.  A number that fits into 64 bits comes back
as it was, and its text has digits and a sign and nothing else.
-/

namespace DistCache

theorem parseDigits_append (first second : Bytes) (n : ℕ) :
    parseDigits (first ++ second) n = (parseDigits first n).bind (parseDigits second) := by
  induction first generalizing n with
  | nil => rfl
  | cons d rest ih =>
      simp only [List.cons_append, parseDigits]
      by_cases hdigit : 48 ≤ d ∧ d ≤ 57
      · rw [if_pos hdigit, if_pos hdigit, ih]
      · rw [if_neg hdigit, if_neg hdigit]
        rfl

theorem toNat_digit {d : ℕ} (hd : d < 10) : (UInt8.ofNat (48 + d)).toNat = 48 + d := by
  rw [UInt8.toNat_ofNat']
  omega

theorem isDigit_digit {d : ℕ} (hd : d < 10) :
    48 ≤ UInt8.ofNat (48 + d) ∧ UInt8.ofNat (48 + d) ≤ 57 := by
  rw [UInt8.le_iff_toNat_le, UInt8.le_iff_toNat_le, toNat_digit hd]
  have hlow : (48 : UInt8).toNat = 48 := rfl
  have hhigh : (57 : UInt8).toNat = 57 := rfl
  omega

theorem parseDigits_reverse_digits {digits : List ℕ} (hdigits : ∀ d ∈ digits, d < 10) (n : ℕ) :
    parseDigits ((digits.map fun d => UInt8.ofNat (48 + d)).reverse) n =
      some (n * 10 ^ digits.length + Nat.ofDigits 10 digits) := by
  induction digits with
  | nil => simp [parseDigits]
  | cons d rest ih =>
      have hd : d < 10 := hdigits d (by simp)
      have hrest := ih fun other hmem => hdigits other (List.mem_cons_of_mem d hmem)
      rw [List.map_cons, List.reverse_cons, parseDigits_append, hrest, Option.bind_some]
      simp only [parseDigits, if_pos (isDigit_digit hd), toNat_digit hd, List.length_cons,
        Nat.ofDigits_cons, pow_succ]
      congr 1
      rw [Nat.add_sub_cancel_left]
      ring

theorem digit_of_mem_formatNat {n : ℕ} {b : UInt8} (hmem : b ∈ formatNat n) :
    48 ≤ b ∧ b ≤ 57 := by
  unfold formatNat at hmem
  split_ifs at hmem with hzero
  · rw [List.mem_singleton.mp hmem]
    exact isDigit_digit (d := 0) (by omega)
  · rw [List.mem_reverse, List.mem_map] at hmem
    obtain ⟨d, hd, rfl⟩ := hmem
    exact isDigit_digit (Nat.digits_lt_base (by omega) hd)

theorem formatNat_ne_nil (n : ℕ) : formatNat n ≠ [] := by
  unfold formatNat
  split_ifs with hzero
  · simp
  · simpa [Nat.digits_eq_nil_iff_eq_zero] using hzero

theorem parseUint_formatNat (n : ℕ) : parseUint (formatNat n) = some n := by
  have hparse : parseDigits (formatNat n) 0 = some n := by
    unfold formatNat
    split_ifs with hzero
    · rw [hzero]
      rfl
    · have hdigits : ∀ d ∈ Nat.digits 10 n, d < 10 := fun d hd =>
        Nat.digits_lt_base (by omega) hd
      rw [parseDigits_reverse_digits hdigits, Nat.ofDigits_digits, Nat.zero_mul, Nat.zero_add]
  unfold parseUint
  cases htext : formatNat n with
  | nil => exact absurd htext (formatNat_ne_nil n)
  | cons d rest =>
      rw [htext] at hparse
      exact hparse

theorem parseInt_formatNat {n : ℕ} (hfits : n < 2 ^ 63) :
    parseInt (formatNat n) = some (n : ℤ) := by
  have huint := parseUint_formatNat n
  cases htext : formatNat n with
  | nil => exact absurd htext (formatNat_ne_nil n)
  | cons d rest =>
      have hdigit : 48 ≤ d ∧ d ≤ 57 := digit_of_mem_formatNat (n := n) (by simp [htext])
      have hminus : d ≠ 45 := by
        rintro rfl
        exact absurd hdigit.1 (by decide)
      have hplus : d ≠ 43 := by
        rintro rfl
        exact absurd hdigit.1 (by decide)
      rw [htext] at huint
      unfold parseInt
      split
      · rename_i other hcons
        exact absurd (List.cons.inj hcons).1 hminus
      · rename_i other hcons
        exact absurd (List.cons.inj hcons).1 hplus
      · rw [huint, Option.bind_some, if_pos hfits]

theorem parseInt_formatInt {n : ℤ} (hlow : -2 ^ 63 ≤ n) (hhigh : n < 2 ^ 63) :
    parseInt (formatInt n) = some n := by
  unfold formatInt
  split_ifs with hneg
  · have habs : n.natAbs ≤ 2 ^ 63 := by omega
    have hvalue : -((n.natAbs : ℕ) : ℤ) = n := by omega
    simp only [parseInt, parseUint_formatNat, Option.bind_some, if_pos habs, hvalue]
  · have hvalue : ((n.natAbs : ℕ) : ℤ) = n := by omega
    rw [parseInt_formatNat (by omega), hvalue]

theorem mem_formatInt {n : ℤ} {b : UInt8} (hmem : b ∈ formatInt n) :
    b = 45 ∨ 48 ≤ b ∧ b ≤ 57 := by
  unfold formatInt at hmem
  split_ifs at hmem
  · rcases List.mem_cons.mp hmem with hsign | hdigit
    · exact Or.inl hsign
    · exact Or.inr (digit_of_mem_formatNat hdigit)
  · exact Or.inr (digit_of_mem_formatNat hmem)

end DistCache
