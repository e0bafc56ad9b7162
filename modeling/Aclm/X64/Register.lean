import Aclm.X64.Word

/-! The sixteen general-purpose registers and the fields that encode them. -/

set_option autoImplicit false

namespace Aclm.X64

inductive Reg where
  | rax | rcx | rdx | rbx | rsp | rbp | rsi | rdi
  | r8 | r9 | r10 | r11 | r12 | r13 | r14 | r15
  deriving DecidableEq, Repr

namespace Reg

def num : Reg → Nat
  | rax => 0 | rcx => 1 | rdx => 2 | rbx => 3 | rsp => 4 | rbp => 5 | rsi => 6 | rdi => 7
  | r8 => 8 | r9 => 9 | r10 => 10 | r11 => 11 | r12 => 12 | r13 => 13 | r14 => 14 | r15 => 15

/-- The register named by its extension bit and its three-bit field. -/
def ofFields : Bool → Nat → Reg
  | false, 0 => rax | false, 1 => rcx | false, 2 => rdx | false, 3 => rbx
  | false, 4 => rsp | false, 5 => rbp | false, 6 => rsi | false, _ => rdi
  | true, 0 => r8 | true, 1 => r9 | true, 2 => r10 | true, 3 => r11
  | true, 4 => r12 | true, 5 => r13 | true, 6 => r14 | true, _ => r15

/-- The bit that a REX prefix carries for the register. -/
def high (r : Reg) : Bool := 8 ≤ r.num

def low (r : Reg) : Nat := r.num % 8

theorem num_lt (r : Reg) : r.num < 16 := by cases r <;> decide

theorem low_lt (r : Reg) : r.low < 8 := Nat.mod_lt _ (by decide)

@[simp] theorem ofFields_high_low (r : Reg) : ofFields r.high r.low = r := by cases r <;> rfl

theorem num_div (r : Reg) : r.num / 8 = r.high.toNat := by cases r <;> rfl

theorem num_injective : Function.Injective num := by
  intro r s same
  have recover (t : Reg) : ofFields (decide (8 ≤ t.num)) (t.num % 8) = t := ofFields_high_low t
  rw [← recover r, ← recover s, same]

end Reg

/-- A register file with one register replaced. -/
def setReg (regs : Reg → Word) (r : Reg) (v : Word) : Reg → Word :=
  fun s => if s = r then v else regs s

end Aclm.X64
