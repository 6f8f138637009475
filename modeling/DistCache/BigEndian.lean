import Mathlib.Tactic

/-!
# Numbers as big-endian byte strings

`encode w n` writes the last `w` bytes of `n`, the highest first, and `decode`
reads a byte string of any length back.  The two are inverse to each other on
strings of `w` bytes and numbers below `256 ^ w`.  The slices of a string that
was put together from parts are at the end.
-/

namespace DistCache
namespace BigEndian

def encode : ℕ → ℕ → List UInt8
  | 0, _ => []
  | w + 1, n => encode w (n / 256) ++ [UInt8.ofNat n]

def decode (bytes : List UInt8) : ℕ :=
  bytes.foldl (fun n b => 256 * n + b.toNat) 0

@[simp] theorem length_encode (w n : ℕ) : (encode w n).length = w := by
  induction w generalizing n with
  | zero => rfl
  | succ w ih => simp [encode, ih]

@[simp] theorem decode_nil : decode [] = 0 := rfl

theorem decode_snoc (bytes : List UInt8) (b : UInt8) :
    decode (bytes ++ [b]) = 256 * decode bytes + b.toNat := by
  simp [decode]

theorem decode_encode (w n : ℕ) : decode (encode w n) = n % 256 ^ w := by
  induction w generalizing n with
  | zero => simp [encode, Nat.mod_one]
  | succ w ih =>
      have hbyte : (UInt8.ofNat n).toNat = n % 256 := by simp
      have hsplit : n % 256 ^ (w + 1) = n % 256 + 256 * (n / 256 % 256 ^ w) := by
        rw [pow_succ', Nat.mod_mul]
      rw [encode, decode_snoc, ih, hbyte, hsplit]
      omega

theorem decode_encode_of_lt {w n : ℕ} (hn : n < 256 ^ w) : decode (encode w n) = n := by
  rw [decode_encode, Nat.mod_eq_of_lt hn]

theorem decode_lt (bytes : List UInt8) : decode bytes < 256 ^ bytes.length := by
  induction bytes using List.reverseRecOn with
  | nil => simp
  | append_singleton bytes b ih =>
      have hb := b.toNat_lt
      rw [decode_snoc, List.length_append, List.length_singleton, pow_succ]
      omega

theorem encode_decode (bytes : List UInt8) : encode bytes.length (decode bytes) = bytes := by
  induction bytes using List.reverseRecOn with
  | nil => rfl
  | append_singleton bytes b ih =>
      have hb := b.toNat_lt
      have hhigh : (256 * decode bytes + b.toNat) / 256 = decode bytes := by omega
      have hlow : UInt8.ofNat (256 * decode bytes + b.toNat) = b := by
        apply UInt8.toNat_inj.mp
        simp only [UInt8.toNat_ofNat']
        omega
      rw [List.length_append, List.length_singleton, encode, decode_snoc, hhigh, hlow, ih]

theorem encode_decode_of_length {w : ℕ} {bytes : List UInt8} (hlength : bytes.length = w) :
    encode w (decode bytes) = bytes := by
  subst hlength
  exact encode_decode bytes

/-! ## Slices -/

section Slices

variable {α : Type*}

theorem slice_append {before part after : List α} {off width : ℕ}
    (hoff : before.length = off) (hwidth : part.length = width) :
    ((before ++ (part ++ after)).drop off).take width = part := by
  rw [List.drop_left' hoff, List.take_left' hwidth]

theorem drop_eq_slice_append (l : List α) (off width : ℕ) :
    l.drop off = (l.drop off).take width ++ l.drop (off + width) := by
  rw [← List.drop_drop, List.take_append_drop]

end Slices

end BigEndian
end DistCache
