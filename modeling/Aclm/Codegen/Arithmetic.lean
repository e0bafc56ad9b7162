import Aclm.Codegen.Arguments
import Aclm.Encoder.Saved

/-! The binary operations on registers: what they compute, and what their code keeps.
Shifts and divisions need RCX, RAX and RDX, which go onto the stack around them. -/

set_option autoImplicit false

namespace Aclm

open X64 (Word)

/-- What an operation makes of the value of its destination and that of its operand. A shift takes its count modulo
64, and the rotations through the carry read the carry flag as well. -/
def CpuBinOp.apply (carry : Bool) (op : CpuBinOp) (a b : Word) : Word :=
  let count := b.toNat % 64
  match op with
  | set => b
  | add => a + b
  | sub => a - b
  | mul => a * b
  | and => a &&& b
  | or => a ||| b
  | xor => a ^^^ b
  | shl | sal => a <<< count
  | shr => a >>> count
  | sar => a.sshiftRight count
  | rol => a.rotateLeft count
  | ror => a.rotateRight count
  | rcl => ((BitVec.cons carry a).rotateLeft count).setWidth 64
  | rcr => ((BitVec.cons carry a).rotateRight count).setWidth 64
  | div => BitVec.ofInt 64 (a.toInt.tdiv b.toInt)
  | mod => BitVec.ofInt 64 (a.toInt.tmod b.toInt)

def CpuBinOp.Divides (op : CpuBinOp) : Prop := op = div ∨ op = mod

instance (op : CpuBinOp) : Decidable op.Divides := inferInstanceAs (Decidable (_ ∨ _))

/-- A division does not trap: the divisor is not zero, and the quotient is a 64-bit number. -/
def CpuBinOp.Defined (op : CpuBinOp) (a b : Word) : Prop :=
  op.Divides → b ≠ 0 ∧ -2 ^ 63 ≤ a.toInt.tdiv b.toInt ∧ a.toInt.tdiv b.toInt < 2 ^ 63

/-- Only the rotations through the carry read it. -/
theorem CpuBinOp.apply_carry {op : CpuBinOp} (plain : op ≠ .rcl ∧ op ≠ .rcr) (carry carry' : Bool) :
    op.apply carry = op.apply carry' := by
  cases op with
  | rcl => exact absurd rfl plain.1
  | rcr => exact absurd rfl plain.2
  | _ => rfl

namespace Codegen

open X64 (Reg Cpu Env Machine Flags)
open X64.Memory (SameAbove)
open Encoder

/-! ### Shifts -/

section Shifts

variable {env : Env} {place : String → Word}

/-- The destination is shifted and the flags are set as by one instruction, and nothing else but the word below the
stack has changed. -/
structure Shifted (env : Env) (op : ShiftOp) (dst : Reg) (count : Nat) (c d : Cpu) : Prop where
  value : d.reg dst = (op.shift.apply env.undefined c.flags (c.reg dst) count).1
  flags : d.flags = (op.shift.apply env.undefined c.flags (c.reg dst) count).2
  regs : ∀ r, r ≠ dst → d.reg r = c.reg r
  mem : SameAbove (c.reg .rsp) 8 c.mem d.mem

theorem ofInt_mod (n : Int) : (BitVec.ofInt 64 n).toNat % 64 = (n % 64).toNat := by
  rw [BitVec.toNat_ofInt]
  omega

theorem effect_shiftRegImm8 (op : ShiftOp) (dst : Reg) (n : Int) (c : Cpu) :
    (Call.shiftRegImm8 op dst (n % 64)).effect env place c =
      (X64.Instr.shiftImm op.shift dst (n % 64).toNat).exec env c := by
  have masked : (op.mask (n % 64)).toNat = (n % 64).toNat := by
    cases op <;> simp only [ShiftOp.mask] <;> omega
  simp [Call.effect, Call.Modelled, Call.fixup, Call.instrs, X64.execAll, masked]

theorem shiftCalls_literal (op : ShiftOp) (n : Int) (dst val : Reg) (c : Cpu) :
    ∃ d, effects env place (shiftCalls op (.number n) dst val) c = some d ∧
      Shifted env op dst ((BitVec.ofInt 64 n).toNat % 64) c d := by
  have small : (n % 64).toNat % 64 = (BitVec.ofInt 64 n).toNat % 64 := by
    rw [ofInt_mod]
    omega
  obtain ⟨result, shifted⟩ : ∃ p, op.shift.apply env.undefined c.flags (c.reg dst) ((BitVec.ofInt 64 n).toNat % 64) = p :=
    ⟨_, rfl⟩
  refine ⟨(c.set dst result.1).setFlags result.2, ?_, ?_, ?_, fun r other => ?_, .refl _ _ _⟩
  · simp only [shiftCalls, effects_cons, effects_nil, effect_shiftRegImm8, X64.Instr.exec, Option.bind_some, small, shifted]
  · rw [shifted]
    simp
  · rw [shifted]
    simp
  · simp [other]

/-- RCX is the destination: the shift is made in RAX. -/
theorem shiftCalls_rcx {op : ShiftOp} {value : Expr} (computed : ∀ n, value ≠ .number n) {val : Reg}
    (notRax : val ≠ .rax) (notSp : val ≠ .rsp) (c : Cpu) :
    ∃ d, effects env place (shiftCalls op value .rcx val) c = some d ∧
      Shifted env op .rcx ((c.reg val).toNat % 64) c d := by
  have code : shiftCalls op value .rcx val = [.pushReg .rax, .movRegReg .rax .rcx, .movRegReg .rcx val,
      .shiftRegCl op .rax, .movRegReg .rcx .rax, .popReg .rax] := by
    unfold shiftCalls
    split
    · exact absurd rfl (computed _)
    · rfl
  refine ⟨_, by rw [code]; simp [X64.Instr.exec, notRax, notSp]; rfl, ?_, ?_, fun r other => ?_, ?_⟩
  · simp
  · simp
  · by_cases isRax : r = .rax
    · simp [isRax]
    · by_cases isSp : r = .rsp
      · simp [isSp]
      · simp [other, isRax, isSp]
  · simpa using @SameAbove.store_below (c.reg .rsp) c.mem (c.reg .rax)

/-- Another register is the destination: RCX waits on the stack. -/
theorem shiftCalls_other {op : ShiftOp} {value : Expr} (computed : ∀ n, value ≠ .number n) {dst val : Reg}
    (notRcx : dst ≠ .rcx) (notSp : dst ≠ .rsp) (apart : val ≠ .rsp) (c : Cpu) :
    ∃ d, effects env place (shiftCalls op value dst val) c = some d ∧
      Shifted env op dst ((c.reg val).toNat % 64) c d := by
  have code : shiftCalls op value dst val = [.pushReg .rcx, .movRegReg .rcx val, .shiftRegCl op dst, .popReg .rcx] := by
    unfold shiftCalls
    split
    · exact absurd rfl (computed _)
    · rw [if_neg notRcx]
  refine ⟨_, by rw [code]; simp [X64.Instr.exec, notRcx, notSp, Ne.symm notSp, apart]; rfl, ?_, ?_, fun r other => ?_, ?_⟩
  · simp [notRcx, notSp]
  · simp
  · by_cases isRcx : r = .rcx
    · simp [isRcx]
    · by_cases isSp : r = .rsp
      · simp [isSp]
      · simp [other, isRcx, isSp]
  · simpa using @SameAbove.store_below (c.reg .rsp) c.mem (c.reg .rcx)

/-- A shift by the number that `val` holds, whichever code is chosen. -/
theorem shiftCalls_effects {op : ShiftOp} {value : Expr} {dst val : Reg} (notSp : dst ≠ .rsp) (notRax : val ≠ .rax)
    (apart : val ≠ .rsp) {c : Cpu} (literal : ∀ n, value = .number n → c.reg val = BitVec.ofInt 64 n) :
    ∃ d, effects env place (shiftCalls op value dst val) c = some d ∧
      Shifted env op dst ((c.reg val).toNat % 64) c d := by
  by_cases number : ∃ n, value = .number n
  · obtain ⟨n, rfl⟩ := number
    rw [literal n rfl]
    exact shiftCalls_literal op n dst val c
  · have computed : ∀ n, value ≠ .number n := fun n same => number ⟨n, same⟩
    by_cases isRcx : dst = .rcx
    · subst isRcx
      exact shiftCalls_rcx computed notRax apart c
    · exact shiftCalls_other computed isRcx notSp apart c

theorem rotate_zero {w : Nat} (v : BitVec w) : v.rotateLeft 0 = v ∧ v.rotateRight 0 = v := by
  constructor
  · simp [BitVec.rotateLeft_def, BitVec.ushiftRight_eq_zero]
  · simp [BitVec.rotateRight_def]

/-- The value of a shift, without its flags. -/
theorem shift_value {op : CpuBinOp} {shift : ShiftOp} (named : shiftOp op = some shift)
    (undefined : Flags → Word → Word → Flags) (f : Flags) (a b : Word) :
    (shift.shift.apply undefined f a (b.toNat % 64)).1 = op.apply f.cf a b := by
  have unmoved (carry : Bool) : (BitVec.cons carry a).setWidth 64 = a := BitVec.setWidth_cons
  by_cases zero : b.toNat % 64 = 0
  · cases op <;> cases named <;> simp [X64.Shift.apply, CpuBinOp.apply, zero, rotate_zero, unmoved]
  · cases op <;> cases named <;> simp [ShiftOp.shift, X64.Shift.apply, CpuBinOp.apply, zero]

end Shifts

/-! ### Divisions -/

section Divisions

variable {env : Env} {place : String → Word}

/-- RAX with its sign in RDX. -/
theorem extended_value (a : Word) :
    (if a.msb then BitVec.allOnes 64 else (0 : Word)).toInt * 2 ^ 64 + (a.toNat : Int) = a.toInt := by
  rw [BitVec.toInt_eq_msb_cond a]
  cases a.msb with
  | true =>
    have ones : (BitVec.allOnes 64).toInt = -1 := by decide
    simp only [if_true, ones]
    omega
  | false => simp

/-- The machine is asked for what the code calls defined. -/
theorem idiv_effect {val : Reg} {e : Cpu} {a : Word}
    (dividend : (e.reg .rdx).toInt * 2 ^ 64 + ((e.reg .rax).toNat : Int) = a.toInt) {op : CpuBinOp} (divides : op.Divides) :
    (op.Defined a (e.reg val) → ∃ f, (idivReg val).effect env place e =
      some (((e.set .rax (BitVec.ofInt 64 (a.toInt.tdiv (e.reg val).toInt))).set .rdx
        (BitVec.ofInt 64 (a.toInt.tmod (e.reg val).toInt))).setFlags f)) ∧
    (¬op.Defined a (e.reg val) → (idivReg val).effect env place e = none) := by
  rw [idivReg, effect_unaryReg]
  simp only [UnaryOp.instr, X64.Instr.exec, X64.Wide.apply, dividend]
  constructor
  · intro defined
    obtain ⟨notZero, lower, upper⟩ := defined divides
    rw [if_neg (by simp only [not_or, Int.not_lt, Int.not_le]; exact ⟨notZero, lower, upper⟩)]
    exact ⟨_, rfl⟩
  · intro undefined
    rw [if_pos]
    by_contra fits
    simp only [not_or, Int.not_lt, Int.not_le] at fits
    exact undefined fun _ => fits

/-- The dividend is the destination with its sign. -/
theorem dividend_effects (dst : Reg) (c : Cpu) :
    ∃ e, effects env place [.movRegReg .rax dst, .cqo] c = some e ∧
      (e.reg .rdx).toInt * 2 ^ 64 + ((e.reg .rax).toNat : Int) = (c.reg dst).toInt ∧
      (∀ r, r ≠ .rax → r ≠ .rdx → e.reg r = c.reg r) ∧ e.mem = c.mem := by
  have cqo (e : Cpu) : Call.cqo.effect env place e = (X64.Instr.cqo).exec env e := rfl
  refine ⟨(c.set .rax (c.reg dst)).set .rdx (if (c.reg dst).msb then BitVec.allOnes 64 else 0), ?_, ?_,
    fun r notRax notRdx => by simp [notRax, notRdx], by simp⟩
  · simp [cqo, X64.Instr.exec]
  · rw [← extended_value (c.reg dst)]
    rfl

/-- What stands between saving RAX and RDX and restoring them. -/
def divideCalls (op : CpuBinOp) (dst val : Reg) : List Call :=
  [.movRegReg .rax dst, .cqo] ++ [idivReg val, .movRegReg val (if op = .mod then .rdx else .rax)]

theorem divide_effects {op : CpuBinOp} (divides : op.Divides) {dst val : Reg} (scratch : val ∉ [Reg.rax, .rdx, .rsp])
    {c : Cpu} (defined : op.Defined (c.reg dst) (c.reg val)) (carry : Bool) :
    ∃ d, effects env place (divideCalls op dst val) c = some d ∧ d.reg val = op.apply carry (c.reg dst) (c.reg val) ∧
      (∀ r, r ∉ [Reg.rax, .rdx, val] → d.reg r = c.reg r) ∧ d.mem = c.mem := by
  simp only [List.mem_cons, List.not_mem_nil, or_false, not_or] at scratch
  obtain ⟨notRax, notRdx, -⟩ := scratch
  obtain ⟨e, extend, dividend, others, mem⟩ := @dividend_effects env place dst c
  have divisor : e.reg val = c.reg val := others val notRax notRdx
  rw [← divisor] at defined ⊢
  obtain ⟨f, divided⟩ := (@idiv_effect env place val e _ dividend op divides).1 defined
  refine ⟨_, by rw [divideCalls, effects_append, extend]; simp [divided]; rfl, ?_, fun r other => ?_, ?_⟩
  · rcases divides with rfl | rfl <;> simp [CpuBinOp.apply]
  · simp only [List.mem_cons, List.not_mem_nil, or_false, not_or] at other
    simpa [other.1, other.2.1, other.2.2] using others r other.1 other.2.1
  · simpa using mem

theorem divide_defined {op : CpuBinOp} (divides : op.Divides) {dst val : Reg} (scratch : val ∉ [Reg.rax, .rdx, .rsp])
    {c d : Cpu} (ran : effects env place (divideCalls op dst val) c = some d) : op.Defined (c.reg dst) (c.reg val) := by
  simp only [List.mem_cons, List.not_mem_nil, or_false, not_or] at scratch
  obtain ⟨e, extend, dividend, others, -⟩ := @dividend_effects env place dst c
  by_contra undefined
  rw [← others val scratch.1 scratch.2.1] at undefined
  have trap := (@idiv_effect env place val e _ dividend op divides).2 undefined
  rw [divideCalls, effects_append, extend, Option.bind_some, effects_cons, trap] at ran
  cases ran

/-- The destination and `val` have the result of the division, and nothing else but the two words below the stack has
changed. -/
structure Divided (v : Word) (dst val : Reg) (c d : Cpu) : Prop where
  value : d.reg dst = v
  scratch : d.reg val = v
  regs : ∀ r, r ≠ dst → r ≠ val → d.reg r = c.reg r
  mem : SameAbove (c.reg .rsp) 16 c.mem d.mem

theorem divCalls_eq (op : CpuBinOp) (dst val : Reg) : divCalls (if op = .mod then .rdx else .rax) dst val =
    saving [.rax, .rdx] (divideCalls op dst val) ++ [.movRegReg dst val] := rfl

theorem divCalls_effects {op : CpuBinOp} (divides : op.Divides) {dst val : Reg} (notSp : dst ≠ .rsp)
    (scratch : val ∉ [Reg.rax, .rdx, .rsp]) {c : Cpu} (defined : op.Defined (c.reg dst) (c.reg val)) (carry : Bool) :
    ∃ d, effects env place (divCalls (if op = .mod then .rdx else .rax) dst val) c = some d ∧
      Divided (op.apply carry (c.reg dst) (c.reg val)) dst val c d := by
  obtain ⟨m, pushed, saved⟩ := @save_effects env place [.rax, .rdx] (by decide) (by decide) c
  have apart := scratch
  simp only [List.mem_cons, List.not_mem_nil, or_false, not_or] at apart
  obtain ⟨notRax, notRdx, notTop⟩ := apart
  have entry (r : Reg) (other : r ≠ .rsp) : m.reg r = c.reg r := saved.regs r other
  rw [← entry dst notSp, ← entry val notTop] at defined ⊢
  obtain ⟨k, divided, result, others, mem⟩ := @divide_effects env place _ divides _ _ scratch _ defined carry
  have sp : k.reg .rsp = m.reg .rsp := others .rsp (by simp [Ne.symm notTop])
  obtain ⟨d, popped, back⟩ := @Saved.restore env place _ _ _ k saved (by decide) (by decide) (by decide) sp
    (mem ▸ .refl _ _ _)
  have held : d.reg val = op.apply carry (m.reg dst) (m.reg val) := by
    rw [back.others val (by simp [notRax, notRdx]) notTop, result]
  refine ⟨d.set dst (d.reg val), ?_, ?_, ?_, fun r notDst notVal => ?_, ?_⟩
  · rw [divCalls_eq, saving, effects_append, effects_append, effects_append, pushed, Option.bind_some, divided,
      Option.bind_some, popped]
    simp
  · simp [held]
  · simp [held]
  · rw [X64.Cpu.set_reg, if_neg notDst]
    by_cases isSp : r = .rsp
    · rw [isSp, back.sp]
    by_cases isSaved : r ∈ [Reg.rax, .rdx]
    · exact back.saved r isSaved
    · rw [back.others r isSaved isSp, others r (by simpa [notVal] using isSaved), entry r isSp]
  · intro x above
    rw [X64.Cpu.set_mem, back.mem, mem]
    refine saved.mem x ?_
    rw [saved.sp]
    simp only [List.length_cons, List.length_nil]
    bv_omega

/-- Code that runs to its end has not trapped. -/
theorem divCalls_defined {op : CpuBinOp} (divides : op.Divides) {dst val : Reg} (notSp : dst ≠ .rsp)
    (scratch : val ∉ [Reg.rax, .rdx, .rsp]) {c d : Cpu}
    (ran : effects env place (divCalls (if op = .mod then .rdx else .rax) dst val) c = some d) :
    op.Defined (c.reg dst) (c.reg val) := by
  obtain ⟨m, pushed, saved⟩ := @save_effects env place [.rax, .rdx] (by decide) (by decide) c
  have notTop : val ≠ .rsp := fun same => scratch (by simp [same])
  rw [divCalls_eq, saving, effects_append, effects_append, effects_append, pushed, Option.bind_some] at ran
  obtain ⟨_, ran, -⟩ := Option.bind_eq_some_iff.mp ran
  obtain ⟨k, divided, -⟩ := Option.bind_eq_some_iff.mp ran
  have defined := divide_defined divides scratch divided
  rwa [saved.regs dst notSp, saved.regs val notTop] at defined

end Divisions

/-! ### Every operation -/

section Operations

variable {env : Env} {place : String → Word}

/-- The destination has the value, a division leaves it in `val` too, and nothing else but the flags and the two words
below the stack has changed. -/
structure Computed (op : CpuBinOp) (v : Word) (dst val : Reg) (c d : Cpu) : Prop where
  value : d.reg dst = v
  scratch : d.reg val = if op.Divides then v else c.reg val
  regs : ∀ r, r ≠ dst → r ≠ val → d.reg r = c.reg r
  mem : SameAbove (c.reg .rsp) 16 c.mem d.mem

theorem plain_effect {op : CpuBinOp} {dst val : Reg} {call : Call} (plain : plainOp dst val op = some call) (c : Cpu) :
    ∃ f, call.effect env place c =
      some ((c.set dst (op.apply c.flags.cf (c.reg dst) (c.reg val))).setFlags f) := by
  cases op <;> cases plain
  case add => exact ⟨_, effect_addRegReg env place c dst val⟩
  case sub => exact ⟨_, effect_binopRegReg env place c .sub dst val⟩
  case mul => exact ⟨_, effect_imulRegReg env place c dst val⟩
  case and => exact ⟨_, effect_andRegReg env place c dst val⟩
  case or => exact ⟨_, effect_orRegReg env place c dst val⟩
  case xor => exact ⟨_, effect_binopRegReg env place c .xor dst val⟩

theorem cpuBinCalls_effects {op : CpuBinOp} (arithmetic : op ≠ .set) {value : Expr} {dst val : Reg} (notSp : dst ≠ .rsp)
    (apart : val ≠ dst) (scratch : val ∉ [Reg.rax, .rdx, .rsp]) {c : Cpu}
    (literal : ∀ n, value = .number n → c.reg val = BitVec.ofInt 64 n) (defined : op.Defined (c.reg dst) (c.reg val)) :
    ∃ d, effects env place (cpuBinCalls op value dst val) c = some d ∧
      Computed op (op.apply c.flags.cf (c.reg dst) (c.reg val)) dst val c d := by
  have free := scratch
  simp only [List.mem_cons, List.not_mem_nil, or_false, not_or] at free
  unfold cpuBinCalls
  split
  · next call plain =>
    obtain ⟨f, ran⟩ := @plain_effect env place _ _ _ _ plain c
    have whole : ¬op.Divides := by
      rintro (rfl | rfl) <;> cases plain
    refine ⟨(c.set dst (op.apply c.flags.cf (c.reg dst) (c.reg val))).setFlags f, by rw [effects_cons, ran]; rfl, by simp,
      ?_, fun r notDst _ => by simp [notDst], .refl _ _ _⟩
    rw [if_neg whole]
    simp [apart]
  · next shift _ named =>
    obtain ⟨d, ran, shifted⟩ := @shiftCalls_effects env place shift value _ _ notSp free.1 free.2.2 c literal
    have whole : ¬op.Divides := by
      rintro (rfl | rfl) <;> cases named
    refine ⟨d, ran, ?_, ?_, fun r notDst _ => shifted.regs r notDst, shifted.mem.mono (by decide)⟩
    · rw [shifted.value, shift_value named]
    · rw [if_neg whole, shifted.regs val apart]
  · next plain unshifted =>
    have divides : op.Divides := by
      cases op
      case set => exact absurd rfl arithmetic
      case div => exact .inl rfl
      case mod => exact .inr rfl
      case add | sub | mul | and | or | xor => cases plain
      all_goals cases unshifted
    obtain ⟨d, ran, divided⟩ := @divCalls_effects env place _ divides _ _ notSp scratch _ defined c.flags.cf
    exact ⟨d, ran, divided.value, by rw [if_pos divides, divided.scratch], divided.regs, divided.mem⟩

theorem cpuBinCalls_div {op : CpuBinOp} (divides : op.Divides) (value : Expr) (dst val : Reg) :
    cpuBinCalls op value dst val = divCalls (if op = .mod then .rdx else .rax) dst val := by
  rcases divides with rfl | rfl <;> rfl

end Operations

/-! ### On a register -/

/-- What `_cpu_bin` appends for a register and an operand that is no arithmetic. -/
def registerCalls (op : CpuBinOp) (value : Expr) (o : Operand) (dst : Reg) : List Call :=
  o.mov SCRATCH ++ cpuBinCalls op value dst SCRATCH

theorem cpuBin_register {g g' : CodeGenerator} {op : CpuBinOp} (arithmetic : op ≠ .set) {dest : String} {dst : Reg}
    (notLocal : g.fnLocals.get? dest = none) (named : resolve dest = .ok dst) {value : Expr} (leaf : value.IsLeaf)
    (emission : cpuBin op dest value g = .ok () g') :
    ∃ o, g.operand value = .ok o ∧ g' = g.withScript (g.script ++ registerCalls op value o dst) := by
  simp only [cpuBin, get_bind_ok, notLocal, reg_bind_ok, if_neg arithmetic, eval_bind_ok, asm_ok] at emission
  obtain ⟨r, found, calls, evaluated, rfl⟩ := emission
  cases named.symm.trans found
  obtain ⟨o, known⟩ := operand_of_evalCalls leaf evaluated
  rw [evalCalls_leaf known] at evaluated
  cases evaluated
  exact ⟨o, known, by simp [registerCalls]⟩

section Execution

variable {env : Env} {place : String → Word}

/-- The destination has the value, and no other register that a program can name, no part of the stack and no memory
but the two words just below it has changed. -/
structure RegisterSet (v : Word) (dst : Reg) (c d : Cpu) : Prop where
  value : d.reg dst = v
  regs : ∀ r, User r → r ≠ dst → d.reg r = c.reg r
  sp : d.reg .rsp = c.reg .rsp
  mem : SameAbove (c.reg .rsp) 16 c.mem d.mem

theorem registerCalls_effects {op : CpuBinOp} (arithmetic : op ≠ .set) {g : CodeGenerator} {value : Expr} {o : Operand}
    (known : g.operand value = .ok o) {dst : Reg} (user : User dst) {c : Cpu}
    (defined : op.Defined (c.reg dst) (o.value place c)) :
    ∃ d, effects env place (registerCalls op value o dst) c = some d ∧
      RegisterSet (op.apply c.flags.cf (c.reg dst) (o.value place c)) dst c d := by
  obtain ⟨notSp, -, -, notScratch⟩ := (user_iff dst).mp user
  obtain ⟨m, brought⟩ : ∃ m, c.set SCRATCH (o.value place c) = m := ⟨_, rfl⟩
  have held : m.reg SCRATCH = o.value place c := by simp [← brought]
  have other (r : Reg) (apart : r ≠ SCRATCH) : m.reg r = c.reg r := by simp [← brought, apart]
  rw [← held, ← other dst notScratch] at defined ⊢
  have flags : c.flags = m.flags := by simp [← brought]
  obtain ⟨d, ran, computed⟩ := @cpuBinCalls_effects env place op arithmetic value dst SCRATCH notSp (Ne.symm notScratch)
    (by decide) m (fun n same => by subst same; cases known; exact held) defined
  refine ⟨d, ?_, ?_, fun r named apart => ?_, ?_, ?_⟩
  · rw [registerCalls, effects_append, mov_effects, brought, Option.bind_some, ran]
  · rw [computed.value, flags]
  · have visible := ((user_iff r).mp named).2.2.2
    rw [computed.regs r apart visible, other r visible]
  · rw [computed.regs .rsp (Ne.symm notSp) (by decide), other .rsp (by decide)]
  · have kept := computed.mem
    rwa [other .rsp (by decide), ← brought] at kept

end Execution

/-- Every operation but `set`, the divisions and shifts with all their aliases among them, gives a register its 64-bit
result and keeps everything else. -/
theorem register_operation_correct {g g' : CodeGenerator} {op : CpuBinOp} (arithmetic : op ≠ .set) {dest : String}
    {dst : Reg} (notLocal : g.fnLocals.get? dest = none) (named : resolve dest = .ok dst) {value : Expr}
    (leaf : value.IsLeaf) (emission : cpuBin op dest value g = .ok () g') :
    ∃ o, g.operand value = .ok o ∧ g' = g.withScript (g.script ++ registerCalls op value o dst) ∧
      ∀ (L : Listing) (M : Machine), L.Loaded M → ∀ i, L.At i (registerCalls op value o dst) →
        ∀ c : Cpu, op.Defined (c.reg dst) (o.value L.address c) →
          ∃ d, M.Steps ⟨L.offset i, c⟩ ⟨L.offset (i + (registerCalls op value o dst).length), d⟩ ∧
            RegisterSet (op.apply c.flags.cf (c.reg dst) (o.value L.address c)) dst c d := by
  obtain ⟨o, known, rfl⟩ := cpuBin_register arithmetic notLocal named leaf emission
  refine ⟨o, known, rfl, fun L M loaded i here c defined => ?_⟩
  obtain ⟨d, ran, done⟩ := @registerCalls_effects L.env L.address _ arithmetic _ _ _ known _ (user_of_resolve named) c
    defined
  exact ⟨d, loaded.steps (Listing.steps_of_effects here ran), done⟩

/-- `cpu:mod reg4 = reg4`, with 1000 in every register. -/
theorem register_operation_correct_mod : ∃ (L : Listing) (M : Machine) (n : Nat) (d : Cpu), L.Loaded M ∧
    M.Steps ⟨0, Cpu.filled 1000⟩ ⟨L.offset n, d⟩ ∧ d.reg .rdx = 0 ∧ d.reg .rax = 1000 := by
  obtain ⟨o, known, -, runs⟩ := @register_operation_correct (.new false) _ .mod (by decide) "reg4" .rdx rfl (by decide)
    (.reg "reg4") trivial rfl
  obtain rfl : Operand.reg .rdx = o :=
    Except.ok.inj ((by decide : (CodeGenerator.new false).operand (.reg "reg4") = _).symm.trans known)
  obtain ⟨L, M, loaded, calls, -, -⟩ := Listing.exists_loaded (registerCalls .mod (.reg "reg4") (.reg .rdx) .rdx) []
    .silent (by decide)
  have defined : CpuBinOp.mod.Defined 1000 1000 := fun _ => by decide
  obtain ⟨d, steps, done⟩ := runs L M loaded 0 (calls ▸ List.prefix_refl _) (Cpu.filled 1000) defined
  have zero : CpuBinOp.mod.apply false 1000 1000 = 0 := by decide
  exact ⟨L, M, _, d, loaded, steps, done.value.trans zero, done.regs .rax (by decide) (by decide)⟩

/-! ### Counts -/

/-- The destinations and the flags agree, and no other register that a program can name has changed. -/
structure ShiftsAgree (dst : Reg) (c d e : Cpu) : Prop where
  value : d.reg dst = e.reg dst
  flags : d.flags = e.flags
  left : ∀ r, User r → r ≠ dst → d.reg r = c.reg r
  right : ∀ r, User r → r ≠ dst → e.reg r = c.reg r

/-- A shift by a number as one instruction would make it. -/
theorem registerShift_effects {op : CpuBinOp} {shift : ShiftOp} (shifts : shiftOp op = some shift) {env : Env}
    {place : String → Word} {g : CodeGenerator} {value : Expr} {o : Operand} (known : g.operand value = .ok o) {dst : Reg}
    (user : User dst) (c : Cpu) :
    ∃ d, effects env place (registerCalls op value o dst) c = some d ∧
      d.reg dst = (shift.shift.apply env.undefined c.flags (c.reg dst) ((o.value place c).toNat % 64)).1 ∧
      d.flags = (shift.shift.apply env.undefined c.flags (c.reg dst) ((o.value place c).toNat % 64)).2 ∧
      ∀ r, User r → r ≠ dst → d.reg r = c.reg r := by
  obtain ⟨notSp, -, -, notScratch⟩ := (user_iff dst).mp user
  obtain ⟨m, brought⟩ : ∃ m, c.set SCRATCH (o.value place c) = m := ⟨_, rfl⟩
  have held : m.reg SCRATCH = o.value place c := by simp [← brought]
  have other (r : Reg) (apart : r ≠ SCRATCH) : m.reg r = c.reg r := by simp [← brought, apart]
  have code : cpuBinCalls op value dst SCRATCH = shiftCalls shift value dst SCRATCH := by
    have plain : plainOp dst SCRATCH op = none := by cases op <;> cases shifts <;> rfl
    rw [cpuBinCalls, plain, shifts]
  obtain ⟨d, ran, shifted⟩ := @shiftCalls_effects env place shift value dst SCRATCH notSp (by decide) (by decide) m
    fun n same => by subst same; cases known; exact held
  have flags : m.flags = c.flags := by simp [← brought]
  refine ⟨d, ?_, ?_, ?_, fun r named apart => ?_⟩
  · rw [registerCalls, effects_append, mov_effects, brought, Option.bind_some, code, ran]
  · rw [shifted.value, held, flags, other dst notScratch]
  · rw [shifted.flags, held, flags, other dst notScratch]
  · rw [shifted.regs r apart, other r ((user_iff r).mp named).2.2.2]

/-- A literal count and a register with the same 64-bit number shift alike. -/
theorem shift_counts_agree {op : CpuBinOp} {shift : ShiftOp} (shifts : shiftOp op = some shift) {dest : String} {dst : Reg}
    (named : resolve dest = .ok dst) {count : String} {r : Reg} (register : resolve count = .ok r) (n : Int)
    {g₁ g₁' g₂ g₂' : CodeGenerator} (notLocal₁ : g₁.fnLocals.get? dest = none) (notLocal₂ : g₂.fnLocals.get? dest = none)
    (literal : cpuBin op dest (.number n) g₁ = .ok () g₁') (computed : cpuBin op dest (.reg count) g₂ = .ok () g₂') :
    g₁' = g₁.withScript (g₁.script ++ registerCalls op (.number n) (.imm n) dst) ∧
    g₂' = g₂.withScript (g₂.script ++ registerCalls op (.reg count) (.reg r) dst) ∧
    ∀ (L₁ L₂ : Listing) (M₁ M₂ : Machine), L₁.Loaded M₁ → L₂.Loaded M₂ → L₁.env = L₂.env →
      ∀ i j, L₁.At i (registerCalls op (.number n) (.imm n) dst) → L₂.At j (registerCalls op (.reg count) (.reg r) dst) →
        ∀ c : Cpu, c.reg r = BitVec.ofInt 64 n → ∃ d e,
          M₁.Steps ⟨L₁.offset i, c⟩ ⟨L₁.offset (i + (registerCalls op (.number n) (.imm n) dst).length), d⟩ ∧
          M₂.Steps ⟨L₂.offset j, c⟩ ⟨L₂.offset (j + (registerCalls op (.reg count) (.reg r) dst).length), e⟩ ∧
          ShiftsAgree dst c d e := by
  have arithmetic : op ≠ .set := by
    rintro rfl
    cases shifts
  obtain ⟨_, known, rfl⟩ := cpuBin_register arithmetic notLocal₁ named (show (Expr.number n).IsLeaf from trivial) literal
  cases known
  obtain ⟨o, found, rfl⟩ := cpuBin_register arithmetic notLocal₂ named (show (Expr.reg count).IsLeaf from trivial) computed
  have known : g₂.operand (.reg count) = .ok (.reg r) := by rw [CodeGenerator.operand, register]; rfl
  cases known.symm.trans found
  refine ⟨rfl, rfl, fun L₁ L₂ M₁ M₂ loaded₁ loaded₂ env i j here₁ here₂ c holds => ?_⟩
  obtain ⟨d, ran, value, flags, kept⟩ := @registerShift_effects _ _ shifts L₁.env L₁.address g₁ (.number n) (.imm n) rfl
    _ (user_of_resolve named) c
  obtain ⟨e, ran', value', flags', kept'⟩ := @registerShift_effects _ _ shifts L₂.env L₂.address g₂ _ _ known
    _ (user_of_resolve named) c
  have same : (Operand.reg r).value L₂.address c = (Operand.imm n).value L₁.address c := holds
  rw [same, ← env] at value' flags'
  exact ⟨d, e, loaded₁.steps (Listing.steps_of_effects here₁ ran), loaded₂.steps (Listing.steps_of_effects here₂ ran'),
    value.trans value'.symm, flags.trans flags'.symm, kept, kept'⟩

/-- `cpu:rcr reg3 = -1` and `cpu:rcr reg3 = reg2`, with ones in every register. -/
theorem shift_counts_agree_rcr : ∃ (L₁ L₂ : Listing) (M₁ M₂ : Machine) (m n : Nat) (d e : Cpu),
    M₁.Steps ⟨0, Cpu.filled (-1)⟩ ⟨L₁.offset m, d⟩ ∧ M₂.Steps ⟨0, Cpu.filled (-1)⟩ ⟨L₂.offset n, e⟩ ∧
      d.reg .rcx = e.reg .rcx ∧ d.flags = e.flags := by
  obtain ⟨-, -, runs⟩ := @shift_counts_agree .rcr .rcr rfl "reg3" .rcx (by decide) "reg2" .rbx (by decide) (-1)
    (.new false) _ (.new false) _ rfl rfl rfl rfl
  obtain ⟨L₁, M₁, loaded₁, calls₁, env₁, -⟩ := Listing.exists_loaded (registerCalls .rcr (.number (-1)) (.imm (-1)) .rcx)
    [] .silent (by decide)
  obtain ⟨L₂, M₂, loaded₂, calls₂, env₂, -⟩ := Listing.exists_loaded (registerCalls .rcr (.reg "reg2") (.reg .rbx) .rcx)
    [] .silent (by decide)
  obtain ⟨d, e, left, right, agree⟩ := runs L₁ L₂ M₁ M₂ loaded₁ loaded₂ (env₁.trans env₂.symm) 0 0
    (calls₁ ▸ List.prefix_refl _) (calls₂ ▸ List.prefix_refl _) (Cpu.filled (-1)) (by decide)
  exact ⟨L₁, L₂, M₁, M₂, _, _, d, e, left, right, agree.value, agree.flags⟩

end Codegen

end Aclm
