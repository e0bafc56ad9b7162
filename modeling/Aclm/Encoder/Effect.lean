import Aclm.Encoder.Listing
import Aclm.Encoder.Instructions

/-! What each call does to the processor, one equation a call: the rules by which straight-line code
is executed. -/

set_option autoImplicit false

namespace Aclm.Encoder

open X64 (Word Reg Cpu Env Memory Flags setLow8)

section Effects

variable (env : Env) (address : String → Word) (c : Cpu)

@[simp] theorem effects_nil : effects env address [] c = some c := (rfl)

theorem effects_cons (call : Call) (calls : List Call) :
    effects env address (call :: calls) c = (call.effect env address c).bind (effects env address calls) := rfl

/-- What comes of the calls behind one, or nothing. It is no `Option.bind` or `Option.elim`, so that the simplifier looks at
those calls only once the one in front is done. -/
def after {β : Type} (nothing : β) (done : Option Cpu) (behind : Cpu → β) : β := done.elim nothing behind

-- The proofs stand in parentheses so that the kernel need not execute the calls to check a rewrite.
@[simp] theorem after_some {β : Type} (nothing : β) (behind : Cpu → β) : after nothing (some c) behind = behind c := (rfl)

@[simp] theorem effects_step (call : Call) (calls : List Call) :
    effects env address (call :: calls) c = after none (call.effect env address c) (effects env address calls) := by
  rw [effects_cons]
  cases call.effect env address c <;> rfl

theorem effects_append (as bs : List Call) :
    effects env address (as ++ bs) c = (effects env address as c).bind (effects env address bs) := by
  induction as generalizing c with
  | nil => rfl
  | cons call calls ih =>
    simp only [List.cons_append, effects_cons, Option.bind_assoc]
    congr 1
    funext d
    exact ih d

@[simp] theorem effect_label (name : String) : (Call.label name).effect env address c = some c := (rfl)

@[simp] theorem effect_leaRegLabel (dst : Reg) (name : String) :
    (Call.leaRegLabel dst name).effect env address c = some (c.set dst (address name)) := (rfl)

@[simp] theorem effect_movRegImm64 (dst : Reg) (imm : Int) :
    (Call.movRegImm64 dst imm).effect env address c = some (c.set dst (BitVec.ofInt 64 imm)) := (rfl)

@[simp] theorem effect_movRegReg (dst src : Reg) :
    (Call.movRegReg dst src).effect env address c = some (c.set dst (c.reg src)) := by
  by_cases same : dst = src
  · subst same
    simp [Call.effect, Call.Modelled, Call.fixup, Call.instrs, X64.execAll, Cpu.set_same]
  · simp [Call.effect, Call.Modelled, Call.fixup, Call.instrs, X64.execAll, same, X64.Instr.exec]

@[simp] theorem effect_pushReg (r : Reg) : (Call.pushReg r).effect env address c = some (c.push (c.reg r)) := (rfl)

@[simp] theorem effect_popReg (r : Reg) :
    (Call.popReg r).effect env address c = some (c.pop.2.set r c.pop.1) := (rfl)

/-- The address of a memory operand. -/
def Mem.at (m : Mem) (c : Cpu) : Word := c.address m.ref

theorem effect_load (size : Size) (dst : Reg) (m : Mem) (index : m.index ≠ some .rsp) :
    (Call.load size dst m).effect env address c = some (c.set dst (c.mem.load (m.at c) size.bytes)) := by
  simp [Call.effect, Call.Modelled, Call.fixup, Call.instrs, X64.execAll, X64.Instr.exec, index, Mem.at]

theorem effect_store (size : Size) (m : Mem) (src : Reg) (index : m.index ≠ some .rsp) :
    (Call.store size m src).effect env address c =
      some (c.setMem (c.mem.store (m.at c) size.bytes (c.reg src))) := by
  simp [Call.effect, Call.Modelled, Call.fixup, Call.instrs, X64.execAll, X64.Instr.exec, index, Mem.at]

@[simp] theorem effect_binopRegReg (op : BinOp) (dst src : Reg) :
    (Call.binopRegReg op dst src).effect env address c = (op.instr dst src).exec env c := by
  simp [Call.effect, Call.Modelled, Call.fixup, Call.instrs, X64.execAll]

@[simp] theorem effect_binopRegImm (op : ImmOp) (dst : Reg) (imm : Int) :
    (Call.binopRegImm op dst imm).effect env address c =
      (X64.Instr.aluImm op.alu dst (BitVec.ofInt 64 imm)).exec env c := by
  simp [Call.effect, Call.Modelled, Call.fixup, Call.instrs, X64.execAll]

@[simp] theorem effect_imulRegReg (dst src : Reg) :
    (Call.imulRegReg dst src).effect env address c = (X64.Instr.imul dst src).exec env c := (rfl)

@[simp] theorem effect_unaryReg (op : UnaryOp) (r : Reg) :
    (Call.unaryReg op r).effect env address c = (op.instr r).exec env c := by
  simp [Call.effect, Call.Modelled, Call.fixup, Call.instrs, X64.execAll]

@[simp] theorem effect_shiftRegCl (op : ShiftOp) (r : Reg) :
    (Call.shiftRegCl op r).effect env address c = (X64.Instr.shiftCl op.shift r).exec env c := (rfl)

@[simp] theorem effect_syscall :
    Call.syscall.effect env address c = (X64.Instr.syscall).exec env c := by
  simp [Call.effect, Call.Modelled, Call.fixup, Call.instrs, X64.execAll]

@[simp] theorem effect_hlt : Call.hlt.effect env address c = some c := (rfl)

@[simp] theorem effect_inAlDx : Call.inAlDx.effect env address c = (X64.Instr.inAl).exec env c := (rfl)

theorem effect_bytes {bs : List X64.Byte} {i : X64.Instr} (found : SYSTEM.lookup bs = some i) :
    (Call.bytes bs).effect env address c = i.exec env c := by
  simp only [Call.effect, Call.Modelled, Call.fixup, Call.instrs, found, Option.isSome_some, and_self, if_true,
    Option.toList_some, X64.execAll]
  cases i.exec env c <;> rfl

@[simp] theorem effect_outDxAl : outDxAl.effect env address c = (X64.Instr.outAl).exec env c :=
  effect_bytes env address c (by decide)

/-- The operand of `lidt` that is emitted. -/
@[simp] theorem effect_lidtMem :
    (lidtMem .rdi 0).effect env address c = (X64.Instr.lidt ⟨some .rdi, none, 0⟩).exec env c := by
  have bytes : lidtMem .rdi 0 = .bytes [0x48, 0x0F, 0x01, 0x1F] := by decide
  rw [bytes, effect_bytes env address c (i := .lidt ⟨some .rdi, none, 0⟩) (by decide)]

theorem effect_lockCmpxchg (src : Reg) :
    (lockCmpxchgMem .r11 0 src).effect env address c = (X64.Instr.lockCmpxchg ⟨some .r11, none, 0⟩ src).exec env c := by
  have found : SYSTEM.lookup (lockedExchange src).1 = some (lockedExchange src).2 := by cases src <;> decide
  have bytes : lockCmpxchgMem .r11 0 src = .bytes (lockedExchange src).1 := by cases src <;> decide
  rw [bytes, effect_bytes env address c found, lockedExchange]

@[simp] theorem effect_repStosb : repStosb.effect env address c = some (Cpu.stosb^[(c.reg .rcx).toNat] c) :=
  effect_bytes env address c (show SYSTEM.lookup [0xF3, 0xAA] = some .repStosb by decide)

@[simp] theorem effect_repMovsb : repMovsb.effect env address c = some (Cpu.movsb^[(c.reg .rcx).toNat] c) :=
  effect_bytes env address c (show SYSTEM.lookup [0xF3, 0xA4] = some .repMovsb by decide)

/-- A flag capture gives zero or one. -/
theorem effect_setccReg {cond : String} {k : X64.Cond} (named : setCondition cond = some k) (dst : Reg) :
    (Call.setccReg cond dst).effect env address c = some (c.set dst (if k.holds c.flags then 1 else 0)) := by
  have twice (v w : Word) : (c.set dst v).set dst w = c.set dst w := by
    simp only [Cpu.set, Cpu.mk.injEq, and_true]
    funext r
    by_cases same : r = dst <;> simp [X64.setReg, same]
  have low (b : Bool) : BitVec.ofNat 64 ((setLow8 (c.reg dst) (BitVec.ofNat 8 b.toNat)).toNat % 256) =
      if b then 1 else 0 := by
    have upper := (c.reg dst).isLt
    cases b <;> simp only [setLow8, Bool.toNat_false, Bool.toNat_true, Bool.false_eq_true, if_false, if_true] <;> bv_omega
  simp only [Call.effect, Call.Modelled, Call.fixup, Call.instrs, named, Option.getD_some, and_self, if_true, X64.execAll,
    X64.Instr.exec, Option.bind_some, X64.Cpu.set_reg, twice, low]

theorem effect_cmovRegReg {cond : String} {k : X64.Cond} (named : jumpCondition cond = some k) (dst src : Reg) :
    (Call.cmovRegReg cond dst src).effect env address c =
      some (if k.holds c.flags then c.set dst (c.reg src) else c) := by
  simp [Call.effect, Call.Modelled, Call.fixup, Call.instrs, named, X64.execAll, X64.Instr.exec]

/-! The register forms, under the names the emitters use. -/

@[simp] theorem effect_addRegReg (dst src : Reg) :
    (addRegReg dst src).effect env address c =
      some ((c.set dst (c.reg dst + c.reg src)).setFlags (c.flags.add (c.reg dst) (c.reg src) false)) :=
  effect_binopRegReg env address c .add dst src

@[simp] theorem effect_andRegReg (dst src : Reg) :
    (andRegReg dst src).effect env address c =
      some ((c.set dst (c.reg dst &&& c.reg src)).setFlags
        (c.flags.logic (env.undefined c.flags (c.reg dst) (c.reg src)) (c.reg dst &&& c.reg src))) :=
  effect_binopRegReg env address c .and dst src

@[simp] theorem effect_orRegReg (dst src : Reg) :
    (orRegReg dst src).effect env address c =
      some ((c.set dst (c.reg dst ||| c.reg src)).setFlags
        (c.flags.logic (env.undefined c.flags (c.reg dst) (c.reg src)) (c.reg dst ||| c.reg src))) :=
  effect_binopRegReg env address c .or dst src

/-- A register combined with itself is cleared. -/
@[simp] theorem effect_clear (r : Reg) :
    (xorRegReg r r).effect env address c =
      some ((c.set r 0).setFlags (c.flags.logic (env.undefined c.flags (c.reg r) (c.reg r)) 0)) := by
  rw [xorRegReg, effect_binopRegReg]
  simp [BinOp.instr, X64.Instr.exec, X64.Alu.apply]

@[simp] theorem effect_cmpRegReg (a b : Reg) :
    (cmpRegReg a b).effect env address c = some (c.setFlags (c.flags.sub (c.reg a) (c.reg b) false)) := by
  rw [cmpRegReg, effect_binopRegReg]
  simp [BinOp.instr, X64.Instr.exec, X64.Alu.apply, Cpu.set_same]

@[simp] theorem effect_testRegReg (a b : Reg) :
    (testRegReg a b).effect env address c =
      some (c.setFlags (c.flags.logic (env.undefined c.flags (c.reg a) (c.reg b)) (c.reg a &&& c.reg b))) :=
  effect_binopRegReg env address c .test a b

/-- A register tested against itself: ZF tells whether it is zero. -/
theorem test_effects (r : Reg) : ∃ f, effects env address [testRegReg r r] c = some (c.setFlags f) ∧
    X64.Cond.e.holds f = decide (c.reg r = 0) := by
  refine ⟨_, by rw [effects_cons, effect_testRegReg, Option.bind_some, effects_nil], ?_⟩
  simp only [X64.Cond.holds, Flags.logic, Flags.ofResult, BitVec.and_self]
  exact (Bool.beq_eq_decide_eq ..)

@[simp] theorem effect_addRegImm (dst : Reg) (imm : Int) :
    (addRegImm dst imm).effect env address c =
      some ((c.set dst (c.reg dst + BitVec.ofInt 64 imm)).setFlags
        (c.flags.add (c.reg dst) (BitVec.ofInt 64 imm) false)) :=
  effect_binopRegImm env address c .add dst imm

@[simp] theorem effect_subRegImm (dst : Reg) (imm : Int) :
    (subRegImm dst imm).effect env address c =
      some ((c.set dst (c.reg dst - BitVec.ofInt 64 imm)).setFlags
        (c.flags.sub (c.reg dst) (BitVec.ofInt 64 imm) false)) :=
  effect_binopRegImm env address c .sub dst imm

@[simp] theorem effect_andRegImm (dst : Reg) (imm : Int) :
    (andRegImm dst imm).effect env address c =
      some ((c.set dst (c.reg dst &&& BitVec.ofInt 64 imm)).setFlags
        (c.flags.logic (env.undefined c.flags (c.reg dst) (BitVec.ofInt 64 imm))
          (c.reg dst &&& BitVec.ofInt 64 imm))) :=
  effect_binopRegImm env address c .and dst imm

@[simp] theorem effect_incReg (r : Reg) :
    (incReg r).effect env address c = some ((c.set r (c.reg r + 1)).setFlags (c.flags.inc (c.reg r))) :=
  effect_unaryReg env address c .inc r

theorem effect_shlRegImm8 (dst : Reg) {imm : Int} (positive : imm % 64 ≠ 0) :
    (shlRegImm8 dst imm).effect env address c =
      some ((c.set dst (c.reg dst <<< (imm % 64).toNat)).setFlags
        (c.flags.shl (env.undefined c.flags (c.reg dst) (BitVec.ofNat 64 (imm % 64).toNat)) (c.reg dst)
          (imm % 64).toNat)) := by
  have small : (imm % 64).toNat % 64 = (imm % 64).toNat := by omega
  have notZero : (imm % 64).toNat ≠ 0 := by omega
  simp [shlRegImm8, Call.effect, Call.Modelled, Call.fixup, Call.instrs, X64.execAll, ShiftOp.mask, ShiftOp.shift,
    X64.Instr.exec, X64.Shift.apply, small, notZero]

theorem effect_shrRegImm8 (dst : Reg) {imm : Int} (positive : imm % 64 ≠ 0) : ∃ f,
    (shrRegImm8 dst imm).effect env address c = some ((c.set dst (c.reg dst >>> (imm % 64).toNat)).setFlags f) := by
  have small : (imm % 64).toNat % 64 = (imm % 64).toNat := by omega
  have notZero : (imm % 64).toNat ≠ 0 := by omega
  exact ⟨_, by simp [shrRegImm8, Call.effect, Call.Modelled, Call.fixup, Call.instrs, X64.execAll, ShiftOp.mask,
    ShiftOp.shift, X64.Instr.exec, X64.Shift.apply, small, notZero]; rfl⟩

/-- A shift by CL of which only the result matters. -/
theorem effect_shlRegCl (r : Reg) : ∃ f, (shlRegCl r).effect env address c =
    some ((c.set r (c.reg r <<< ((c.reg .rcx).toNat % 64))).setFlags f) := by
  by_cases zero : (c.reg .rcx).toNat % 64 = 0
  · exact ⟨c.flags, by simp [shlRegCl, X64.Instr.exec, X64.Shift.apply, zero]⟩
  · exact ⟨_, by simp [shlRegCl, X64.Instr.exec, X64.Shift.apply, ShiftOp.shift, zero]; rfl⟩

end Effects

/-! ### Words on the stack and in memory -/

section Operands

variable {env : Env} {address : String → Word} {c : Cpu}

/-- `[base + disp]` -/
theorem at_base (base : Reg) (disp scale : Int) :
    (⟨base, disp, none, scale⟩ : Mem).at c = c.reg base + BitVec.ofInt 64 disp := by
  simp [Mem.at, Mem.ref, Cpu.address]

@[simp] theorem effect_movRegMem (dst base : Reg) (disp : Int) :
    (movRegMem dst base disp none 1).effect env address c =
      some (c.set dst (c.mem.load (c.reg base + BitVec.ofInt 64 disp) 8)) := by
  rw [movRegMem, effect_load _ _ _ _ _ _ (by simp), at_base, Size.bytes]

@[simp] theorem effect_movMemReg (base : Reg) (disp : Int) (src : Reg) :
    (movMemReg base disp src none 1).effect env address c =
      some (c.setMem (c.mem.store (c.reg base + BitVec.ofInt 64 disp) 8 (c.reg src))) := by
  rw [movMemReg, effect_store _ _ _ _ _ _ (by simp), at_base, Size.bytes]

@[simp] theorem effect_mov8RegMem (dst base : Reg) (disp : Int) :
    (mov8RegMem dst base disp none 1).effect env address c =
      some (c.set dst (c.mem.load (c.reg base + BitVec.ofInt 64 disp) 1)) := by
  rw [mov8RegMem, effect_load _ _ _ _ _ _ (by simp), at_base, Size.bytes]

@[simp] theorem effect_mov32RegMem (dst base : Reg) (disp : Int) :
    (mov32RegMem dst base disp none 1).effect env address c =
      some (c.set dst (c.mem.load (c.reg base + BitVec.ofInt 64 disp) 4)) := by
  rw [mov32RegMem, effect_load _ _ _ _ _ _ (by simp), at_base, Size.bytes]

@[simp] theorem effect_mov8MemReg (base : Reg) (disp : Int) (src : Reg) :
    (mov8MemReg base disp src none 1).effect env address c =
      some (c.setMem (c.mem.store (c.reg base + BitVec.ofInt 64 disp) 1 (c.reg src))) := by
  rw [mov8MemReg, effect_store _ _ _ _ _ _ (by simp), at_base, Size.bytes]

@[simp] theorem effect_mov16MemReg (base : Reg) (disp : Int) (src : Reg) :
    (mov16MemReg base disp src none 1).effect env address c =
      some (c.setMem (c.mem.store (c.reg base + BitVec.ofInt 64 disp) 2 (c.reg src))) := by
  rw [mov16MemReg, effect_store _ _ _ _ _ _ (by simp), at_base, Size.bytes]

@[simp] theorem effect_mov32MemReg (base : Reg) (disp : Int) (src : Reg) :
    (mov32MemReg base disp src none 1).effect env address c =
      some (c.setMem (c.mem.store (c.reg base + BitVec.ofInt 64 disp) 4 (c.reg src))) := by
  rw [mov32MemReg, effect_store _ _ _ _ _ _ (by simp), at_base, Size.bytes]

end Operands

/-! ### What is read from memory -/

/-- The bytes that a call reads from memory. -/
def Call.reads (c : Cpu) : Call → List (Word × Nat)
  | load size _ m => [(m.at c, size.bytes)]
  | popReg _ | ret => [(c.reg .rsp, 8)]
  | _ => []

/-- The bytes that straight-line calls read one after the other. -/
def reads (env : Env) (address : String → Word) : List Call → Cpu → List (Word × Nat)
  | [], _ => []
  | call :: calls, c => call.reads c ++ (call.effect env address c).elim [] (reads env address calls)

theorem reads_append {env : Env} {address : String → Word} {as bs : List Call} {c m : Cpu}
    (ran : effects env address as c = some m) :
    reads env address (as ++ bs) c = reads env address as c ++ reads env address bs m := by
  induction as generalizing c with
  | nil =>
    cases ran
    rfl
  | cons call calls ih =>
    obtain ⟨d, head, tail⟩ := Option.bind_eq_some_iff.mp ran
    simp only [List.cons_append, reads, head, Option.elim_some, ih tail, List.append_assoc]

theorem reads_movRegMem (c : Cpu) (dst base : Reg) (disp : Int) :
    (movRegMem dst base disp none 1).reads c = [(c.reg base + BitVec.ofInt 64 disp, 8)] := by
  simp [movRegMem, Call.reads, at_base, Size.bytes]

/-! ### Restoring registers from the stack -/

/-- The words `ws` have gone from the top of the stack into the registers `rs`, and nothing else has changed. -/
structure Restored (rs : List Reg) (ws : List Word) (c d : Cpu) : Prop where
  values : ∀ p ∈ rs.zip ws, d.reg p.1 = p.2
  others : ∀ r, r ∉ rs → r ≠ .rsp → d.reg r = c.reg r
  sp : d.reg .rsp = c.reg .rsp + BitVec.ofNat 64 (8 * ws.length)
  mem : d.mem = c.mem
  flags : d.flags = c.flags
  trace : d.trace = c.trace

theorem pops_effects {env : Env} {address : String → Word} {rs : List Reg} {ws rest : List Word} {c : Cpu}
    (length : rs.length = ws.length) (distinct : rs.Nodup) (notSp : .rsp ∉ rs)
    (stack : Memory.StackAt c.mem (c.reg .rsp) (ws ++ rest)) :
    ∃ d, effects env address (rs.map .popReg) c = some d ∧ Restored rs ws c d := by
  induction rs generalizing ws c with
  | nil =>
    obtain rfl := List.length_eq_zero_iff.mp length.symm
    exact ⟨c, rfl, by simp, fun _ _ _ => rfl, by simp, rfl, rfl, rfl⟩
  | cons r rs ih =>
    cases ws with
    | nil => cases length
    | cons w ws =>
      obtain ⟨top, below⟩ := stack
      obtain ⟨fresh, distinct⟩ := List.nodup_cons.mp distinct
      have notTop : r ≠ .rsp := fun same => notSp (same ▸ List.mem_cons_self)
      have lower : Memory.StackAt (c.pop.2.set r c.pop.1).mem ((c.pop.2.set r c.pop.1).reg .rsp) (ws ++ rest) := by
        simpa [Ne.symm notTop] using below
      obtain ⟨d, ran, done⟩ := ih (Nat.succ.inj length) distinct (fun member => notSp (List.mem_cons_of_mem _ member))
        lower
      refine ⟨d, by simpa using ran, fun p member => ?_, fun s other notSp => ?_, ?_, ?_, ?_, ?_⟩
      · rcases List.mem_cons.mp member with rfl | member
        · have kept := done.others r fresh notTop
          simpa [top] using kept
        · exact done.values p member
      · have notHead : s ≠ r := fun same => other (same ▸ List.mem_cons_self)
        have kept := done.others s (fun member => other (List.mem_cons_of_mem _ member)) notSp
        simpa [notHead, notSp] using kept
      · rw [done.sp]
        simp only [X64.Cpu.set_reg, Ne.symm notTop, if_false, X64.Cpu.pop_snd, if_true, List.length_cons]
        bv_omega
      · simpa using done.mem
      · simpa using done.flags
      · simpa using done.trace

end Aclm.Encoder
