import Aclm.Codegen.Emit
import Aclm.Encoder.Decoding
import Aclm.X64.Immediate

/-! The statements with an immediate inside their instruction: `cpu:imulimm`, `cpu:imul3` and
`cpu:testimm`. Their encoders keep the low 32 bits and the processor sign-extends these. -/

set_option autoImplicit false

namespace Aclm.Codegen

open X64 (Byte Word Reg Cpu Env ImmInstr Narrow narrowed)
open Encoder

inductive ImmForm where
  | imulimm (dest : String)
  | imul3 (dest src : String)
  | testimm (dest : String)
  deriving DecidableEq, Repr

namespace ImmForm

def op (imm : Int) : ImmForm → Op
  | imulimm dest => .cpuImulImm dest imm
  | imul3 dest src => .cpuImul3 dest src imm
  | testimm dest => .cpuTestImm dest imm

/-- The destination and the register that is read. -/
def regs : ImmForm → Except PyErr (Reg × Reg)
  | imulimm dest | testimm dest => do
    let d ← resolve dest
    .ok (d, d)
  | imul3 dest src => do
    let d ← resolve dest
    let s ← resolve src
    .ok (d, s)

/-- What the statement is to do with its immediate; the flags that a multiplication leaves are not
part of it. -/
def Computes (dst src : Reg) (imm : Word) (c d : Cpu) : ImmForm → Prop
  | imulimm _ | imul3 .. => ∃ f, d = (c.set dst (c.reg src * imm)).setFlags f
  | testimm _ => ∃ u, d = c.setFlags (c.flags.logic u (c.reg src &&& imm))

/-- The statement is rejected, or it is one instruction that computes with the immediate as written. -/
def Exact (g : CodeGenerator) (form : ImmForm) (imm : Int) : Prop :=
  ∀ g', emitOp (form.op imm) g = .ok () g' → ∃ dst src bs i, form.regs = .ok (dst, src) ∧
    g'.script = g.script ++ [.bytes bs] ∧ (∀ rest, ImmInstr.decode (bs ++ rest) = some (i, rest)) ∧
      ∀ env c, form.Computes dst src (BitVec.ofInt 64 imm) c (i.exec env c)

/-- The instruction with an operand in its field. -/
def instr (dst src : Reg) (imm : Word) : ImmForm → ImmInstr
  | imulimm _ | imul3 .. => .imul dst src imm
  | testimm _ => .test src imm

def bytes (dst src : Reg) (imm : Int) : ImmForm → List Byte
  | imulimm _ | imul3 .. => regReg [0x69] dst src ++ u32 imm
  | testimm _ => regExt [0xF7] 0 src ++ u32 imm

theorem emitOp_ok (form : ImmForm) (imm : Int) {g g' : CodeGenerator} :
    emitOp (form.op imm) g = .ok () g' ↔
      ∃ dst src, form.regs = .ok (dst, src) ∧ g' = g.withScript (g.script ++ [.bytes (form.bytes dst src imm)]) := by
  cases form with
  | imulimm dest =>
    simp only [op, emitOp, one, reg_bind_ok, asm_ok, regs, bytes, imulRegImm]
    cases resolve dest <;> simp [bind, Except.bind]
  | imul3 dest src =>
    simp only [op, emitOp, two, reg_bind_ok, asm_ok, regs, bytes, imulRegRegImm]
    cases resolve dest <;> cases resolve src <;> simp [bind, Except.bind]
  | testimm dest =>
    simp only [op, emitOp, one, reg_bind_ok, asm_ok, regs, bytes, testRegImm32]
    cases resolve dest <;> simp [bind, Except.bind]

theorem decodes (form : ImmForm) (dst src : Reg) (imm : Int) (rest : List Byte) :
    ImmInstr.decode (form.bytes dst src imm ++ rest) =
      some (form.instr dst src (BitVec.ofInt 64 (narrowed 32 imm)), rest) := by
  cases form <;> simp [bytes, instr, ImmInstr.decode, regReg_eq, regExt_eq, takeRm_regReg, takeRm_ext, u32, X64.take8, X64.takeS32_narrowed]

/-- The effect tells immediates apart: a multiplication of one shows its immediate, and a test of the
bits that only one of two immediates has is zero for the other. -/
theorem computes_iff (form : ImmForm) (dst src : Reg) (imm imm' : Word) :
    (∀ env c, form.Computes dst src imm c ((form.instr dst src imm').exec env c)) ↔ imm' = imm := by
  constructor
  · intro computes
    have multiplied (shown : ∃ f, (ImmInstr.imul dst src imm').exec .silent (Cpu.filled 1) =
        (((Cpu.filled 1).set dst ((Cpu.filled 1).reg src * imm)).setFlags f)) : imm' = imm := by
      obtain ⟨f, same⟩ := shown
      simpa [ImmInstr.exec, Cpu.filled] using congrArg (fun c => c.reg dst) same
    cases form with
    | imulimm dest => exact multiplied (computes .silent (Cpu.filled 1))
    | imul3 dest _ => exact multiplied (computes .silent (Cpu.filled 1))
    | testimm dest =>
      have zero (v : Word) : v &&& imm' = 0 ↔ v &&& imm = 0 := by
        obtain ⟨u, same⟩ := computes .silent (Cpu.filled v)
        have flag := congrArg (fun c => c.flags.zf) same
        simpa [instr, ImmInstr.exec, Cpu.filled, X64.Flags.logic, X64.Flags.ofResult] using flag
      exact X64.eq_of_cleared zero
  · rintro rfl env c
    cases form with
    | imulimm dest => exact ⟨_, rfl⟩
    | imul3 dest _ => exact ⟨_, rfl⟩
    | testimm dest => exact ⟨_, rfl⟩

theorem Exact.narrow {g : CodeGenerator} {form : ImmForm} {imm : Int} (exact : form.Exact g imm) {dst src : Reg}
    (named : form.regs = .ok (dst, src)) : Narrow 32 imm := by
  obtain ⟨dst', src', bs, i, named', appended, decoded, computes⟩ :=
    exact _ ((form.emitOp_ok imm).mpr ⟨dst, src, named, rfl⟩)
  rw [named] at named'
  cases named'
  rw [CodeGenerator.withScript_script, List.append_cancel_left_eq] at appended
  cases appended
  have same := (form.decodes dst src imm []).symm.trans (decoded [])
  cases same
  exact (X64.narrowed_iff (by decide) imm).mp ((form.computes_iff dst src _ _).mp computes)

end ImmForm

/-- The immediate is taken as written exactly where its 64-bit pattern is the sign extension of its
low 32 bits. -/
theorem immediate_exact_iff (g : CodeGenerator) (form : ImmForm) (imm : Int) :
    form.Exact g imm ↔ (∃ e, form.regs = .error e) ∨ Narrow 32 imm := by
  constructor
  · intro exact
    cases named : form.regs with
    | error e => exact .inl ⟨e, rfl⟩
    | ok regs => exact .inr (exact.narrow named)
  · rintro (⟨e, unnamed⟩ | narrow) g' emitted
    · obtain ⟨dst, src, named, -⟩ := (form.emitOp_ok imm).mp emitted
      rw [unnamed] at named
      cases named
    · obtain ⟨dst, src, named, rfl⟩ := (form.emitOp_ok imm).mp emitted
      refine ⟨dst, src, _, _, named, rfl, form.decodes dst src imm, ?_⟩
      exact (form.computes_iff dst src _ _).mpr ((X64.narrowed_iff (by decide) imm).mpr narrow)

/-- `cpu:imulimm reg1, 0x80000000` multiplies by a negative number. -/
theorem immediate_wrong : ¬(ImmForm.imulimm "reg1").Exact (.new false) 0x80000000 := by
  intro exact
  have named : (ImmForm.imulimm "reg1").regs = .ok (.rax, .rax) := by decide
  exact absurd (exact.narrow named) (by decide)

end Aclm.Codegen
