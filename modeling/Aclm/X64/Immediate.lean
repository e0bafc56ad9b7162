import Aclm.X64.Decode

/-! Immediates in fields narrower than the operation, which the processor sign-extends, and the
instructions with such an immediate that no run of the model executes. -/

set_option autoImplicit false

namespace Aclm.X64

/-- What a field of `bits` bits with the low bits of `v` stands for. -/
def narrowed (bits : Nat) (v : Int) : Int := (v + 2 ^ (bits - 1)) % 2 ^ bits - 2 ^ (bits - 1)

/-- The numbers whose 64-bit pattern is the sign extension of its low `bits` bits. -/
def Narrow (bits : Nat) (v : Int) : Prop := (v + 2 ^ (bits - 1)) % 2 ^ 64 < 2 ^ bits

instance (bits : Nat) (v : Int) : Decidable (Narrow bits v) := inferInstanceAs (Decidable (_ < _))

theorem ofInt_eq_iff (a b : Int) : BitVec.ofInt 64 a = BitVec.ofInt 64 b ↔ a % 2 ^ 64 = b % 2 ^ 64 := by
  rw [← BitVec.toNat_inj, BitVec.toNat_ofInt, BitVec.toNat_ofInt]
  have lowerA := Int.emod_nonneg a (by decide : (2 ^ 64 : Int) ≠ 0)
  have lowerB := Int.emod_nonneg b (by decide : (2 ^ 64 : Int) ≠ 0)
  simp only [Nat.cast_ofNat, Nat.cast_pow]
  omega

/-- Sign extension keeps exactly the narrow numbers. -/
theorem narrowed_iff {bits : Nat} (fits : bits ≤ 64) (v : Int) :
    BitVec.ofInt 64 (narrowed bits v) = BitVec.ofInt 64 v ↔ Narrow bits v := by
  have divides : (2 : Int) ^ bits ∣ 2 ^ 64 := pow_dvd_pow 2 fits
  have positive : (0 : Int) < 2 ^ bits := by positivity
  have le : (2 : Int) ^ bits ≤ 2 ^ 64 := Int.le_of_dvd (by decide) divides
  have lower := Int.emod_nonneg (v + 2 ^ (bits - 1)) positive.ne'
  have upper := Int.emod_lt_of_pos (v + 2 ^ (bits - 1)) positive
  have remainder : (v + 2 ^ (bits - 1)) % 2 ^ 64 % 2 ^ bits = (v + 2 ^ (bits - 1)) % 2 ^ bits :=
    Int.emod_emod_of_dvd _ divides
  have shifted : narrowed bits v % 2 ^ 64 = v % 2 ^ 64 ↔
      (v + 2 ^ (bits - 1)) % 2 ^ bits = (v + 2 ^ (bits - 1)) % 2 ^ 64 := by
    rw [← Int.emod_add_cancel_right (2 ^ (bits - 1)), narrowed, sub_add_cancel,
      Int.emod_eq_of_lt lower (upper.trans_le le)]
  rw [ofInt_eq_iff, shifted, Narrow]
  constructor
  · intro same
    rw [← same]
    exact upper
  · intro small
    rw [← remainder, Int.emod_eq_of_lt (Int.emod_nonneg _ (by decide)) small]

theorem ofSigned_narrowed {bits : Nat} (v : Int) : ofSigned bits (narrowed bits v) = ofSigned bits v := by
  rw [ofSigned, ofSigned, narrowed, Int.emod_sub_emod, add_sub_cancel_right]

/-! ### Reading such a field -/

section Fields

variable (v : Int) (rest : List Byte)

theorem takeS8_narrowed : takeS8 (leBytes 1 (ofSigned 8 v) ++ rest) = some (narrowed 8 v, rest) := by
  rw [← ofSigned_narrowed]
  exact takeS8_ofSigned rest (by unfold narrowed; omega) (by unfold narrowed; omega)

theorem takeS32_narrowed : takeS32 (leBytes 4 (ofSigned 32 v) ++ rest) = some (narrowed 32 v, rest) := by
  rw [← ofSigned_narrowed]
  exact takeS32_ofSigned rest (by unfold narrowed; omega) (by unfold narrowed; omega)

end Fields

/-- A word is determined by the masks that clear it. -/
theorem eq_of_cleared {a b : Word} (alike : ∀ v, v &&& a = 0 ↔ v &&& b = 0) : a = b := by
  have within {a b : Word} (alike : ∀ v, v &&& a = 0 ↔ v &&& b = 0) {k : Nat} (bit : a.getLsbD k = true) :
      b.getLsbD k = true := by
    have clear : a &&& ~~~b = 0#64 := by
      have masked := (alike (a &&& ~~~b)).mpr (by ext; simp)
      rwa [BitVec.and_assoc, BitVec.and_comm _ a, ← BitVec.and_assoc, BitVec.and_self] at masked
    have here := congrArg (·.getLsbD k) clear
    have inside := BitVec.lt_of_getLsbD bit
    simpa [bit, inside] using here
  exact BitVec.eq_of_getLsbD_eq fun k _ => Bool.eq_iff_iff.mpr ⟨within alike, within fun v => (alike v).symm⟩

/-! ### Instructions with an immediate -/

inductive ImmInstr where
  | imul (dst src : Reg) (imm : Word)
  | test (a : Reg) (imm : Word)
  deriving DecidableEq, Repr

namespace ImmInstr

def exec (env : Env) (c : Cpu) : ImmInstr → Cpu
  | imul dst src imm =>
    let a := c.reg src
    (c.set dst (a * imm)).setFlags (c.flags.imul (env.undefined c.flags a imm) a imm)
  | test a imm => c.setFlags (c.flags.logic (env.undefined c.flags (c.reg a) imm) (c.reg a &&& imm))

/-- `REX.W 69 /r id` and `REX.W F7 /0 id`, with a register operand. -/
def decode (bs : List Byte) : Option (ImmInstr × List Byte) := do
  let (p, bs) := takeRex bs
  let p := p.getD .absent
  let (op, rest) ← take8 bs
  let (field, rm, rest) ← takeRm p rest
  let (imm, rest) ← takeS32 rest
  match rm with
  | .reg s =>
    if ¬p.w then none
    else if op = 0x69 then some (.imul (Reg.ofFields p.r field) s (BitVec.ofInt 64 imm), rest)
    else if op = 0xF7 ∧ field = 0 then some (.test s (BitVec.ofInt 64 imm), rest)
    else none
  | _ => none

end ImmInstr

end Aclm.X64
