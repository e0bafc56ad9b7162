import Mathlib.Data.BitVec
import Mathlib.Tactic.Positivity
import Mathlib.Tactic.Ring
import Mathlib.Tactic.Zify

/-! Bytes, 64-bit words and little-endian byte strings. -/

set_option autoImplicit false

namespace Aclm.X64

abbrev Byte := BitVec 8
abbrev Word := BitVec 64

/-- The `n` low bytes of `v`, least significant first. -/
def leBytes : Nat → Nat → List Byte
  | 0, _ => []
  | n + 1, v => BitVec.ofNat 8 v :: leBytes n (v / 256)

def leValue : List Byte → Nat
  | [] => 0
  | b :: bs => b.toNat + 256 * leValue bs

@[simp] theorem leBytes_length (n v : Nat) : (leBytes n v).length = n := by
  induction n generalizing v with
  | zero => rfl
  | succ n ih => simp [leBytes, ih]

@[simp] theorem leValue_leBytes (n v : Nat) : leValue (leBytes n v) = v % 256 ^ n := by
  induction n generalizing v with
  | zero => simp [leBytes, leValue, Nat.mod_one]
  | succ n ih =>
    have power : 256 ^ (n + 1) = 256 * 256 ^ n := Nat.pow_succ'
    rw [power, Nat.mod_mul]
    simp only [leBytes, leValue, ih, BitVec.toNat_ofNat, Nat.reducePow]

theorem leValue_lt (bs : List Byte) : leValue bs < 256 ^ bs.length := by
  induction bs with
  | nil => simp [leValue]
  | cons b bs ih =>
    have := b.isLt
    simp only [leValue, List.length_cons, Nat.pow_succ']
    omega

theorem leBytes_leValue (bs : List Byte) : leBytes bs.length (leValue bs) = bs := by
  induction bs with
  | nil => rfl
  | cons b bs ih =>
    have hb := b.isLt
    have head : BitVec.ofNat 8 (b.toNat + 256 * leValue bs) = b := by
      apply BitVec.eq_of_toNat_eq
      simp only [BitVec.toNat_ofNat]
      omega
    have tail : (b.toNat + 256 * leValue bs) / 256 = leValue bs := by omega
    simp only [List.length_cons, leValue, leBytes, head, tail, ih]

/-- The low `bits` bits of `v` read as a two's-complement number. -/
def toSigned (bits v : Nat) : Int :=
  let low := v % 2 ^ bits
  if low < 2 ^ (bits - 1) then low else (low : Int) - 2 ^ bits

/-- The two's-complement pattern of `v` in `bits` bits. -/
def ofSigned (bits : Nat) (v : Int) : Nat := (v % 2 ^ bits).toNat

theorem ofSigned_lt (bits : Nat) (v : Int) : ofSigned bits v < 2 ^ bits := by
  have positive : (0 : Int) < 2 ^ bits := by positivity
  have upper := Int.emod_lt_of_pos v positive
  have lower := Int.emod_nonneg v (ne_of_gt positive)
  simp only [ofSigned]
  zify
  rw [Int.toNat_of_nonneg lower]
  exact upper

theorem toSigned_ofSigned (bits : Nat) (v : Int) (positive : 0 < bits)
    (lower : -2 ^ (bits - 1) ≤ v) (upper : v < 2 ^ (bits - 1)) :
    toSigned bits (ofSigned bits v) = v := by
  obtain ⟨k, rfl⟩ : ∃ k, bits = k + 1 := ⟨bits - 1, by omega⟩
  simp only [Nat.add_sub_cancel] at lower upper
  have small := ofSigned_lt (k + 1) v
  have half : (0 : Int) < 2 ^ k := by positivity
  have double : (2 : Int) ^ (k + 1) = 2 * 2 ^ k := by ring
  have value : (ofSigned (k + 1) v : Int) = v % 2 ^ (k + 1) :=
    Int.toNat_of_nonneg (Int.emod_nonneg v (by positivity))
  simp only [toSigned, Nat.add_sub_cancel, Nat.mod_eq_of_lt small]
  rcases lt_or_ge v 0 with negative | nonnegative
  · have wrapped : v % 2 ^ (k + 1) = v + 2 ^ (k + 1) := by
      rw [← Int.add_emod_right, Int.emod_eq_of_lt] <;> omega
    rw [if_neg]
    · rw [value, wrapped]; ring
    · zify; rw [value, wrapped]; omega
  · have same : v % 2 ^ (k + 1) = v := Int.emod_eq_of_lt nonnegative (by omega)
    rw [if_pos]
    · rw [value, same]
    · zify; rw [value, same]; exact upper


end Aclm.X64
