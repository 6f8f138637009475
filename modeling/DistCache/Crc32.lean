import Mathlib.Tactic

/-!
# CRC-32

The checksum with the reflected IEEE polynomial, one bit at a time.  The bytes
are fed into a register, and the checksum is the complement of the register.
Since the complement loses nothing, two texts with the same checksum leave the
register in the same state, and whatever is appended to both keeps their
checksums equal.
-/

namespace DistCache
namespace Crc32

def polynomial : BitVec 32 := 0xEDB88320#32

def shift (crc : BitVec 32) : BitVec 32 :=
  if crc.getLsbD 0 then (crc >>> 1) ^^^ polynomial else crc >>> 1

def feed (crc : BitVec 32) (byte : UInt8) : BitVec 32 :=
  Nat.iterate shift 8 (crc ^^^ byte.toBitVec.setWidth 32)

def register (bytes : List UInt8) : BitVec 32 :=
  bytes.foldl feed (BitVec.allOnes 32)

def checksum (bytes : List UInt8) : ℕ := (~~~ register bytes).toNat

example : checksum [49, 50, 51, 52, 53, 54, 55, 56, 57] = 0xCBF43926 := by decide +kernel

theorem register_append (first second : List UInt8) :
    register (first ++ second) = second.foldl feed (register first) :=
  List.foldl_append

theorem register_eq_of_checksum_eq {first second : List UInt8}
    (heq : checksum first = checksum second) : register first = register second := by
  have hcomplement : ~~~ register first = ~~~ register second := BitVec.eq_of_toNat_eq heq
  rw [← BitVec.not_not (b := register first), hcomplement, BitVec.not_not]

theorem checksum_append_congr {first second : List UInt8}
    (heq : checksum first = checksum second) (more : List UInt8) :
    checksum (first ++ more) = checksum (second ++ more) := by
  unfold checksum
  rw [register_append, register_append, register_eq_of_checksum_eq heq]

end Crc32
end DistCache
