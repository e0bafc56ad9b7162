import Aclm.X64.Word
import Mathlib.Tactic.Ring

/-! The arithmetic flags, what each operation does to them, and the conditions that read them. -/

set_option autoImplicit false

namespace Aclm.X64

structure Flags where
  cf : Bool
  pf : Bool
  af : Bool
  zf : Bool
  sf : Bool
  of : Bool
  df : Bool
  deriving DecidableEq, Repr

/-- Even number of ones in the low byte. -/
def parity (v : Word) : Bool :=
  (List.range 8).countP (fun i => v.getLsbD i) % 2 == 0

namespace Flags

/-- The flags in RFLAGS. -/
def ofWord (w : Word) : Flags :=
  ⟨w.getLsbD 0, w.getLsbD 2, w.getLsbD 4, w.getLsbD 6, w.getLsbD 7, w.getLsbD 11, w.getLsbD 10⟩

/-- The flags that only depend on the result. -/
def ofResult (f : Flags) (v : Word) : Flags :=
  { f with zf := v == 0, sf := v.msb, pf := parity v }

def add (f : Flags) (a b : Word) (carry : Bool) : Flags :=
  let v := a + b + BitVec.ofNat 64 carry.toNat
  { f.ofResult v with
    cf := 2 ^ 64 ≤ a.toNat + b.toNat + carry.toNat
    of := v.toInt != a.toInt + b.toInt + carry.toNat
    af := 16 ≤ a.toNat % 16 + b.toNat % 16 + carry.toNat }

def sub (f : Flags) (a b : Word) (borrow : Bool) : Flags :=
  let v := a - b - BitVec.ofNat 64 borrow.toNat
  { f.ofResult v with
    cf := a.toNat < b.toNat + borrow.toNat
    of := v.toInt != a.toInt - b.toInt - borrow.toNat
    af := a.toNat % 16 < b.toNat % 16 + borrow.toNat }

/-- The bitwise operations clear CF and OF; AF is left to the processor. -/
def logic (f undefined : Flags) (v : Word) : Flags :=
  { f.ofResult v with cf := false, of := false, af := undefined.af }

/-- INC and DEC keep CF. -/
def inc (f : Flags) (a : Word) : Flags := { f.add a 1 false with cf := f.cf }

def dec (f : Flags) (a : Word) : Flags := { f.sub a 1 false with cf := f.cf }

/-- CF and OF tell whether the signed product was cut; the other flags are left to the processor. -/
def imul (f undefined : Flags) (a b : Word) : Flags :=
  let cut := (a * b).toInt != a.toInt * b.toInt
  { undefined with cf := cut, of := cut, df := f.df }

/-- A left shift by a count already masked to six bits. -/
def shl (f undefined : Flags) (a : Word) (count : Nat) : Flags :=
  if count = 0 then f
  else
    let v := a <<< count
    let carry := a.getLsbD (64 - count)
    { f.ofResult v with
      cf := carry
      of := if count = 1 then v.msb != carry else undefined.of
      af := undefined.af }

end Flags

/-- The sixteen condition codes, in the order of their four-bit encoding. -/
inductive Cond where
  | o | no | b | ae | e | ne | be | a | s | ns | p | np | l | ge | le | g
  deriving DecidableEq, Repr

namespace Cond

def code : Cond → Nat
  | o => 0 | no => 1 | b => 2 | ae => 3 | e => 4 | ne => 5 | be => 6 | a => 7
  | s => 8 | ns => 9 | p => 10 | np => 11 | l => 12 | ge => 13 | le => 14 | g => 15

def ofCode : Nat → Cond
  | 0 => o | 1 => no | 2 => b | 3 => ae | 4 => e | 5 => ne | 6 => be | 7 => a
  | 8 => s | 9 => ns | 10 => p | 11 => np | 12 => l | 13 => ge | 14 => le | _ => g

theorem code_lt (c : Cond) : c.code < 16 := by cases c <;> decide

@[simp] theorem ofCode_code (c : Cond) : ofCode c.code = c := by cases c <;> rfl

def holds (f : Flags) : Cond → Bool
  | o => f.of
  | no => !f.of
  | b => f.cf
  | ae => !f.cf
  | e => f.zf
  | ne => !f.zf
  | be => f.cf || f.zf
  | a => !(f.cf || f.zf)
  | s => f.sf
  | ns => !f.sf
  | p => f.pf
  | np => !f.pf
  | l => f.sf != f.of
  | ge => f.sf == f.of
  | le => f.zf || f.sf != f.of
  | g => !(f.zf || f.sf != f.of)

end Cond

section Comparison

variable (f : Flags) (x y : Word)

theorem sub_zf : (f.sub x y false).zf = decide (x = y) := by
  simp only [Flags.sub, Flags.ofResult, Bool.toNat_false, BitVec.ofNat_eq_ofNat, BitVec.sub_zero]
  by_cases same : x = y
  · simp [same]
  · have : x - y ≠ 0#64 := fun zero =>
      same (by rw [BitVec.sub_eq_iff_eq_add.mp zero, BitVec.zero_add])
    simp [same, this]

theorem sub_cf : (f.sub x y false).cf = decide (x < y) := by
  simp [Flags.sub, BitVec.lt_def]

/-- After a comparison SF and OF differ exactly when the left operand is the smaller one as a
signed number: OF records that the sign of the difference is wrong. -/
theorem sub_sf_ne_of :
    ((f.sub x y false).sf != (f.sub x y false).of) = decide (x.toInt < y.toInt) := by
  have sign : (x - y).msb = decide ((x - y).toInt < 0) := BitVec.msb_eq_toInt
  have wrapped : (x - y).toInt = (x.toInt - y.toInt).bmod (2 ^ 64) := BitVec.toInt_sub
  have xl := BitVec.le_toInt x
  have xu := BitVec.toInt_lt (x := x)
  have yl := BitVec.le_toInt y
  have yu := BitVec.toInt_lt (x := y)
  simp only [Flags.sub, Flags.ofResult, Bool.toNat_false, BitVec.ofNat_eq_ofNat, BitVec.sub_zero,
    Int.natCast_zero, Int.sub_zero, sign]
  generalize (x - y).toInt = d at *
  generalize x.toInt = a at *
  generalize y.toInt = c at *
  simp only [Nat.reducePow, Nat.add_one_sub_one] at xl xu yl yu wrapped
  rw [Int.bmod_def] at wrapped
  by_cases less : a < c <;> by_cases neg : d < 0 <;> by_cases same : d = a - c <;>
    simp [less, neg, same, bne] <;> omega

theorem holds_e : Cond.holds (f.sub x y false) .e = decide (x = y) := sub_zf f x y

theorem holds_b : Cond.holds (f.sub x y false) .b = decide (x < y) := sub_cf f x y

theorem holds_l : Cond.holds (f.sub x y false) .l = decide (x.toInt < y.toInt) := sub_sf_ne_of f x y

theorem holds_be : Cond.holds (f.sub x y false) .be = decide (x ≤ y) := by
  simp only [Cond.holds, sub_cf, sub_zf]
  rw [← Bool.decide_or]
  congr 1
  simp only [BitVec.lt_def, BitVec.le_def, BitVec.toNat_eq, eq_iff_iff]
  omega

theorem holds_le : Cond.holds (f.sub x y false) .le = decide (x.toInt ≤ y.toInt) := by
  simp only [Cond.holds, sub_sf_ne_of, sub_zf]
  rw [← Bool.decide_or]
  congr 1
  rw [← BitVec.toInt_inj, eq_iff_iff]
  omega

theorem holds_ne : Cond.holds (f.sub x y false) .ne = decide (x ≠ y) := by
  simp [Cond.holds, sub_zf]

theorem holds_ae : Cond.holds (f.sub x y false) .ae = decide (y ≤ x) := by
  simp [Cond.holds, sub_cf, ← decide_not, BitVec.not_lt]

theorem holds_a : Cond.holds (f.sub x y false) .a = decide (y < x) := by
  have opposite : Cond.holds (f.sub x y false) .a = !Cond.holds (f.sub x y false) .be := rfl
  simp [opposite, holds_be, ← decide_not, BitVec.not_le]

theorem holds_ge : Cond.holds (f.sub x y false) .ge = decide (y.toInt ≤ x.toInt) := by
  have opposite : Cond.holds (f.sub x y false) .ge = !Cond.holds (f.sub x y false) .l := by simp [Cond.holds, bne]
  simp [opposite, holds_l, ← decide_not]

theorem holds_g : Cond.holds (f.sub x y false) .g = decide (y.toInt < x.toInt) := by
  have opposite : Cond.holds (f.sub x y false) .g = !Cond.holds (f.sub x y false) .le := rfl
  simp [opposite, holds_le, ← decide_not]

end Comparison

end Aclm.X64
