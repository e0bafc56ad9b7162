import Aclm.Codegen.Operand
import Aclm.Encoder.Effect

/-! Expressions with their names resolved, their values, and what their code does.
Every binary node goes through R11 and R12 and every right operand ends in R12, so a leaf that names
R12 finds there the right operand evaluated last: `clobber` is the tree that is evaluated instead. -/

set_option autoImplicit false

namespace Aclm

def ExprOp.apply : ExprOp → X64.Word → X64.Word → X64.Word
  | add, a, b => a + b
  | sub, a, b => a - b
  | mul, a, b => a * b

/-- The flags it leaves. -/
def ExprOp.flags (undefined : X64.Flags → X64.Word → X64.Word → X64.Flags) : ExprOp → X64.Flags → X64.Word → X64.Word →
    X64.Flags
  | add, f, a, b => f.add a b false
  | sub, f, a, b => f.sub a b false
  | mul, f, a, b => f.imul (undefined f a b) a b

namespace Codegen

open X64 (Word Reg Cpu Env Memory Flags)
open X64.Memory (SameAbove WordAbove)
open Encoder

inductive Tree where
  | leaf (o : Operand)
  | node (op : ExprOp) (left right : Tree)
  deriving DecidableEq, Repr

def resolveTree (g : CodeGenerator) : Expr → Except PyErr Tree
  | .binExpr op left right => do .ok (.node op (← resolveTree g left) (← resolveTree g right))
  | node => (g.operand node).map .leaf

namespace Tree

def calls : Tree → Reg → List Call
  | leaf o, dst => o.mov dst
  | node op left right, dst =>
    left.calls .r11 ++ [.pushReg .r11] ++ right.calls .r12 ++ [.popReg .r11, combine op] ++ copyTo dst .r11

/-- The number of words its evaluation pushes at most. -/
def depth : Tree → Nat
  | leaf _ => 0
  | node _ left right => max left.depth (right.depth + 1)

end Tree

theorem evalCalls_eq (g : CodeGenerator) (node : Expr) (dst : Reg) :
    evalCalls g node dst = (resolveTree g node).map (·.calls dst) := by
  induction node generalizing dst with
  | binExpr op left right ihl ihr =>
    simp only [evalCalls, resolveTree, ihl, ihr]
    cases resolveTree g left with
    | error e => rfl
    | ok l =>
      cases resolveTree g right with
      | error e => rfl
      | ok r => rfl
  | _ =>
    simp only [evalCalls, resolveTree]
    cases g.operand _ <;> rfl

/-! ### Values -/

section Values

variable (place : String → Word) (c : Cpu)

/-- `place` gives the addresses of the labels. -/
def Operand.value : Operand → Word
  | imm value => BitVec.ofInt 64 value
  | reg r => c.reg r
  | slot off => c.mem.load (c.reg .rbp + BitVec.ofInt 64 off) 8
  | address label => place label

def Tree.value : Tree → Word
  | leaf o => o.value place c
  | node op left right => op.apply left.value right.value

end Values

/-- The tree that is evaluated when R12 holds `late` (at the start, its own value), and what R12
holds afterwards. -/
def Tree.clobber : Option Tree → Tree → Tree × Option Tree
  | late, leaf o => (if o = .reg .r12 then late.getD (leaf o) else leaf o, late)
  | late, node op left right =>
    let l := left.clobber late
    let r := right.clobber l.2
    (node op l.1 r.1, some r.1)

/-- The flags after the evaluation: those of the operation made last. -/
def Tree.flags (undefined : Flags → Word → Word → Flags) (place : String → Word) (c : Cpu) : Option Tree → Tree → Flags →
    Flags
  | _, leaf _, f => f
  | late, node op left right, f =>
    let r := right.clobber (left.clobber late).2
    op.flags undefined (right.flags undefined place c (left.clobber late).2 (left.flags undefined place c late f))
      ((left.clobber late).1.value place c) (r.1.value place c)

/-- What a leaf may refer to: a register a program can name, or a local outside the `n` bytes just
below the stack pointer. -/
def Operand.Readable (n : Nat) (c : Cpu) : Operand → Prop
  | reg r => User r
  | slot off => WordAbove (c.reg .rsp) n (c.reg .rbp + BitVec.ofInt 64 off)
  | _ => True

def Tree.Readable (n : Nat) (c : Cpu) : Tree → Prop
  | leaf o => o.Readable n c
  | node _ left right => left.Readable n c ∧ right.Readable n c

/-- Only the stack pointer and the frame pointer matter. -/
theorem Tree.Readable.congr {t : Tree} {n : Nat} {c d : Cpu} (readable : t.Readable n c) (sp : d.reg .rsp = c.reg .rsp)
    (frame : d.reg .rbp = c.reg .rbp) : t.Readable n d := by
  induction t with
  | leaf o =>
    cases o with
    | slot off => exact show WordAbove _ n _ by rw [sp, frame]; exact readable
    | _ => exact readable
  | node op left right ihl ihr => exact ⟨ihl readable.1, ihr readable.2⟩

/-! ### Execution -/

section Execution

variable {env : Env} {place : String → Word}

theorem mov_effects (o : Operand) (dst : Reg) (c : Cpu) :
    effects env place (o.mov dst) c = some (c.set dst (o.value place c)) := by
  cases o with
  | imm value => rfl
  | reg r =>
    by_cases same : dst = r
    · subst same
      simp [Operand.mov, copyTo, Operand.value, Cpu.set_same]
    · simp [Operand.mov, copyTo, same, Operand.value]
  | slot off => simp [Operand.mov, Operand.value]
  | address label => rfl

theorem copyTo_effects (dst src : Reg) (c : Cpu) :
    effects env place (copyTo dst src) c = some (c.set dst (c.reg src)) :=
  mov_effects (.reg src) dst c

theorem combine_effect (op : ExprOp) (c : Cpu) :
    (combine op).effect env place c = some ((c.set .r11 (op.apply (c.reg .r11) (c.reg .r12))).setFlags
      (op.flags env.undefined c.flags (c.reg .r11) (c.reg .r12))) := by
  cases op with
  | add => simp [combine, addRegReg, BinOp.instr, X64.Instr.exec, X64.Alu.apply, ExprOp.apply, ExprOp.flags]
  | sub => simp [combine, subRegReg, BinOp.instr, X64.Instr.exec, X64.Alu.apply, ExprOp.apply, ExprOp.flags]
  | mul => simp [combine, X64.Instr.exec, ExprOp.apply, ExprOp.flags]

/-- A state in the middle of an evaluation that began in `c₀`: what R12 holds is the value of
`late`, and `n` bytes below the stack pointer may have been written. -/
structure Evaluating (place : String → Word) (n : Nat) (c₀ : Cpu) (late : Option Tree) (c : Cpu) : Prop where
  regs : ∀ r, r ≠ .r11 → r ≠ .r12 → r ≠ .rsp → c.reg r = c₀.reg r
  late : c.reg .r12 = (late.getD (.leaf (.reg .r12))).value place c₀
  mem : SameAbove (c₀.reg .rsp) n c₀.mem c.mem

theorem Evaluating.start (n : Nat) (c : Cpu) : Evaluating place n c none c :=
  ⟨fun _ _ _ _ => rfl, rfl, .refl _ _ _⟩

theorem Evaluating.leaf {n : Nat} {c₀ c : Cpu} {late : Option Tree} (ev : Evaluating place n c₀ late c)
    {o : Operand} (readable : o.Readable n c₀) :
    o.value place c = ((Tree.leaf o).clobber late).1.value place c₀ := by
  cases o with
  | imm value => rfl
  | address label => rfl
  | slot off =>
    simp only [Tree.clobber, reduceCtorEq, if_false, Tree.value, Operand.value]
    rw [ev.regs .rbp (by decide) (by decide) (by decide)]
    exact ev.mem.load readable
  | reg r =>
    by_cases isLate : r = .r12
    · subst isLate
      simpa [Tree.clobber, Operand.value] using ev.late
    · obtain ⟨notSp, -, notR11, -⟩ := (user_iff r).mp readable
      simpa [Tree.clobber, isLate, Tree.value, Operand.value] using ev.regs r notR11 isLate notSp

/-- What an evaluation into `dst` leaves: the value of the clobbered tree in `dst`, the last right
operand in R12, all else but R11, the flags and the bytes it pushed as it was. -/
structure Evaluated (place : String → Word) (c₀ : Cpu) (dst : Reg) (t : Tree) (late : Option Tree) (c d : Cpu) :
    Prop where
  value : d.reg dst = (t.clobber late).1.value place c₀
  late : dst ≠ .r12 → d.reg .r12 = ((t.clobber late).2.getD (.leaf (.reg .r12))).value place c₀
  regs : ∀ r, r ≠ dst → r ≠ .r11 → r ≠ .r12 → d.reg r = c.reg r
  mem : SameAbove (c.reg .rsp) (8 * t.depth) c.mem d.mem
  trace : d.trace = c.trace

/-- The code of a tree runs to its end. `j` words are already on the stack. -/
theorem Tree.runs_flags (t : Tree) {n j : Nat} {c₀ c : Cpu} {late : Option Tree} {dst : Reg}
    (ev : Evaluating place n c₀ late c) (readable : t.Readable n c₀)
    (sp : c.reg .rsp = c₀.reg .rsp - BitVec.ofNat 64 (8 * j)) (room : 8 * (j + t.depth) ≤ n)
    (fits : n + 8 ≤ 2 ^ 64) (notSp : dst ≠ .rsp) :
    ∃ d, effects env place (t.calls dst) c = some d ∧ Evaluated place c₀ dst t late c d ∧
      d.flags = t.flags env.undefined place c₀ late c.flags := by
  induction t generalizing c late dst j with
  | leaf o =>
    refine ⟨_, mov_effects o dst c, ⟨?_, fun other => ?_, fun r other _ _ => ?_, .refl _ _ _, rfl⟩, rfl⟩
    · simpa using ev.leaf readable
    · simpa [Tree.clobber, Ne.symm other] using ev.late
    · simp [other]
  | node op left right ihl ihr =>
    have leftRoom : 8 * (j + left.depth) ≤ n := by simp only [Tree.depth] at room; omega
    have rightRoom : 8 * (j + 1 + right.depth) ≤ n := by simp only [Tree.depth] at room; omega
    obtain ⟨c₁, run₁, done₁, flags₁⟩ := @ihl _ _ _ .r11 ev readable.1 sp leftRoom (by decide)
    have sp₁ : c₁.reg .rsp = c.reg .rsp := done₁.regs .rsp (by decide) (by decide) (by decide)
    -- The left operand waits on the stack while the right one is evaluated.
    have ev₂ : Evaluating place n c₀ (left.clobber late).2 (c₁.push (c₁.reg .r11)) := by
      refine ⟨fun r h₁ h₂ h₃ => ?_, ?_, ?_⟩
      · simpa [Cpu.push, h₃] using (done₁.regs r h₁ h₁ h₂).trans (ev.regs r h₁ h₂ h₃)
      · simpa [Cpu.push] using done₁.late (by decide)
      · refine (ev.mem.trans (?_ : SameAbove _ _ _ c₁.mem)).trans ?_
        · have lowered := done₁.mem
          rw [sp] at lowered
          exact (lowered.lower (by omega)).mono (by omega)
        · have pushed : SameAbove (c₁.reg .rsp) 8 c₁.mem (c₁.push (c₁.reg .r11)).mem :=
            SameAbove.store_below _
          rw [sp₁, sp] at pushed
          exact (pushed.lower (by omega)).mono (by omega)
    have sp₂ : (c₁.push (c₁.reg .r11)).reg .rsp = c₀.reg .rsp - BitVec.ofNat 64 (8 * (j + 1)) := by
      simp only [Cpu.push, X64.Cpu.set_reg, if_true, sp₁, sp]
      bv_omega
    obtain ⟨c₃, run₃, done₃, flags₃⟩ := @ihr _ _ _ .r12 ev₂ readable.2 sp₂ rightRoom (by decide)
    have sp₃ : c₃.reg .rsp = c.reg .rsp - 8 := by
      rw [done₃.regs .rsp (by decide) (by decide) (by decide)]
      simp [Cpu.push, sp₁]
    have saved : c₃.mem.load (c₃.reg .rsp) 8 = c₁.reg .r11 := by
      have kept := done₃.mem
      simp only [Cpu.push, X64.Cpu.set_reg, if_true, X64.Cpu.set_mem, X64.Cpu.setMem_mem, sp₁] at kept
      rw [sp₃, kept.load (a := c.reg .rsp - 8) (by simp only [WordAbove, BitVec.sub_self]; simp; omega),
        X64.Memory.load_store_word]
    have combined := @combine_effect env place op (c₃.pop.2.set .r11 c₃.pop.1)
    generalize joined : ((c₃.pop.2.set .r11 c₃.pop.1).set .r11 (op.apply ((c₃.pop.2.set .r11 c₃.pop.1).reg .r11)
      ((c₃.pop.2.set .r11 c₃.pop.1).reg .r12))).setFlags (op.flags env.undefined (c₃.pop.2.set .r11 c₃.pop.1).flags
      ((c₃.pop.2.set .r11 c₃.pop.1).reg .r11) ((c₃.pop.2.set .r11 c₃.pop.1).reg .r12)) = c₅ at combined
    have flags₅ : c₅.flags = op.flags env.undefined c₃.flags (c₁.reg .r11) (c₃.reg .r12) := by
      simp [← joined, Cpu.pop, saved]
    have value : c₅.reg .r11 = op.apply (c₁.reg .r11) (c₃.reg .r12) := by simp [← joined, Cpu.pop, saved]
    have sp₅ : c₅.reg .rsp = c.reg .rsp := by
      simp only [← joined, Cpu.pop, X64.Cpu.setFlags_reg, X64.Cpu.set_reg, reduceCtorEq, if_false, if_true, sp₃]
      bv_omega
    have regs₅ (r : Reg) (h₁ : r ≠ .r11) (h₂ : r ≠ .rsp) : c₅.reg r = c₃.reg r := by
      simp [← joined, Cpu.pop, h₁, h₂]
    have mem₅ : c₅.mem = c₃.mem := by simp [← joined, Cpu.pop]
    have trace₅ : c₅.trace = c₃.trace := by simp [← joined, Cpu.pop]
    have regs₃ (r : Reg) (h₁ : r ≠ .r11) (h₂ : r ≠ .r12) (h₃ : r ≠ .rsp) : c₃.reg r = c.reg r := by
      rw [done₃.regs r h₂ h₁ h₂]
      simpa [Cpu.push, h₃] using done₁.regs r h₁ h₁ h₂
    refine ⟨c₅.set dst (c₅.reg .r11), ?_, ⟨?_, fun other => ?_, fun r other h₁ h₂ => ?_, ?_, ?_⟩, ?_⟩
    · simp only [Tree.calls, effects_append, run₁, Option.bind_some, effects_cons, effect_pushReg, effects_nil, run₃,
        effect_popReg, combined, copyTo_effects]
    · simp only [X64.Cpu.set_reg, if_true, value, done₁.value, done₃.value, Tree.clobber, Tree.value]
    · have last : c₅.reg .r12 = c₃.reg .r12 := regs₅ .r12 (by decide) (by decide)
      simp only [X64.Cpu.set_reg, Ne.symm other, if_false, last, done₃.value, Tree.clobber, Option.getD_some]
    · simp only [X64.Cpu.set_reg, other, if_false]
      by_cases isSp : r = .rsp
      · rw [isSp, sp₅]
      · rw [regs₅ r h₁ isSp, regs₃ r h₁ h₂ isSp]
    · simp only [X64.Cpu.set_mem, mem₅]
      refine (done₁.mem.mono (by simp [Tree.depth])).trans ?_
      have pushed : SameAbove (c.reg .rsp) 8 c₁.mem (c₁.push (c₁.reg .r11)).mem := by
        rw [← sp₁]
        exact SameAbove.store_below _
      have inner := done₃.mem
      have sp₂ : (c₁.push (c₁.reg .r11)).reg .rsp = c.reg .rsp - BitVec.ofNat 64 8 := by simp [Cpu.push, sp₁]
      rw [sp₂] at inner
      exact (pushed.mono (by simp [Tree.depth])).trans
        ((inner.lower (by decide)).mono (by simp only [Tree.depth]; omega))
    · rw [X64.Cpu.set_trace, trace₅, done₃.trace]
      exact done₁.trace
    · rw [X64.Cpu.set_flags, flags₅, flags₃, X64.Cpu.push_flags, flags₁, done₁.value, done₃.value]
      rfl

theorem Tree.runs (t : Tree) {n j : Nat} {c₀ c : Cpu} {late : Option Tree} {dst : Reg}
    (ev : Evaluating place n c₀ late c) (readable : t.Readable n c₀)
    (sp : c.reg .rsp = c₀.reg .rsp - BitVec.ofNat 64 (8 * j)) (room : 8 * (j + t.depth) ≤ n)
    (fits : n + 8 ≤ 2 ^ 64) (notSp : dst ≠ .rsp) :
    ∃ d, effects env place (t.calls dst) c = some d ∧ Evaluated place c₀ dst t late c d := by
  obtain ⟨d, ran, done, -⟩ := @Tree.runs_flags env place t n j c₀ c late dst ev readable sp room fits notSp
  exact ⟨d, ran, done⟩

end Execution

end Codegen

end Aclm
