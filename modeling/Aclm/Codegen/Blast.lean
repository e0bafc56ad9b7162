import Aclm.Codegen.Captured
import Aclm.Codegen.Conditional
import Aclm.X64.Strip

/-! `blast:fill` and `blast:copy` write byte after byte from the target on, and the forms with a string instruction
write the same. The length is read after R12 was given the byte, or the address of the source. -/

set_option autoImplicit false

namespace Aclm.Codegen

open X64 (Word Reg Cpu Env Machine Memory Strip)
open X64.Memory (SameAbove SameOn range)
open Encoder

/-! ### The code -/

/-- The target, the byte or the source, and the length in R11, R12 and R13. -/
def blastFront (dst : Reg) (source length : Tree) : List Call :=
  [.movRegReg .r11 dst] ++ source.calls SCRATCH ++ [.movRegReg .r12 SCRATCH] ++ length.calls SCRATCH ++
    [.movRegReg .r13 SCRATCH]

def fillBody : List Call := [mov8MemReg .r11 0 .r12 none 1, addRegImm .r11 1, subRegImm .r13 1]

def copyBody : List Call :=
  [mov8RegMem SCRATCH .r12 0 none 1, mov8MemReg .r11 0 SCRATCH none 1, addRegImm .r11 1, addRegImm .r12 1, subRegImm .r13 1]

def blastCalls (dst : Reg) (source length : Tree) (top done : String) (body : List Call) : List Call :=
  saving TEMPS (blastFront dst source length ++ guarded "eq" top done [testRegReg .r13 .r13] body)

def repFill : List Call := [.movRegReg .rdi .r11, .movRegReg .rax .r12, .movRegReg .rcx .r13, repStosb]

def repCopy : List Call := [.movRegReg .rdi .r11, .movRegReg .rsi .r12, .movRegReg .rcx .r13, repMovsb]

def blastRepCalls (dst : Reg) (source length : Tree) (rep : List Call) : List Call :=
  saving TEMPS (blastFront dst source length ++ rep ++ copyTo dst .r11)

section Appended

variable {g : CodeGenerator} {name : String} {dst : Reg} (named : resolve name = .ok dst) {source length : Expr}
  {s l : Tree} (resolved : resolveTree g source = .ok s) (resolved' : resolveTree g length = .ok l)

include named resolved resolved'

theorem blastFill_appends : ∃ top done, Appends (.blastFill name source length) g (blastCalls dst s l top done fillBody) := by
  refine ⟨freshLabel "fill" (g.labelI + 1), freshLabel "filld" (g.labelI + 1 + 1), fun g' emission => ?_⟩
  simp only [emitOp, blastFill, reg_bind_ok, named, Except.ok.injEq, exists_eq_left', asm_bind_ok, newLabel_bind_ok,
    CodeGenerator.withScript_withScript, tree_bind_ok resolved, tree_bind_ok resolved', asm_ok] at emission
  rw [emission]
  simp [blastCalls, saving, blastFront, guarded, fillBody, TEMPS, pushes, pops]

theorem blastCopy_appends : ∃ top done, Appends (.blastCopy name source length) g (blastCalls dst s l top done copyBody) := by
  refine ⟨freshLabel "copy" (g.labelI + 1), freshLabel "copyd" (g.labelI + 1 + 1), fun g' emission => ?_⟩
  simp only [emitOp, blastCopy, reg_bind_ok, named, Except.ok.injEq, exists_eq_left', asm_bind_ok, newLabel_bind_ok,
    CodeGenerator.withScript_withScript, tree_bind_ok resolved, tree_bind_ok resolved', asm_ok] at emission
  rw [emission]
  simp [blastCalls, saving, blastFront, guarded, copyBody, TEMPS, pushes, pops]

theorem blastRepFill_appends : Appends (.blastRepFill name source length) g (blastRepCalls dst s l repFill) := by
  intro g' emission
  simp only [emitOp, blastRepFill, reg_bind_ok, named, Except.ok.injEq, exists_eq_left', asm_bind_ok,
    CodeGenerator.withScript_withScript, tree_bind_ok resolved, tree_bind_ok resolved', asm_ok] at emission
  rw [emission]
  simp [blastRepCalls, saving, blastFront, repFill, TEMPS, pushes, pops]

theorem blastRepCopy_appends : Appends (.blastRepCopy name source length) g (blastRepCalls dst s l repCopy) := by
  intro g' emission
  simp only [emitOp, blastRepCopy, reg_bind_ok, named, Except.ok.injEq, exists_eq_left', asm_bind_ok,
    CodeGenerator.withScript_withScript, tree_bind_ok resolved, tree_bind_ok resolved', asm_ok] at emission
  rw [emission]
  simp [blastRepCalls, saving, blastFront, repCopy, TEMPS, pushes, pops]

end Appended

/-! ### What the loops do -/

/-- The bytes between two places that registers hold. -/
def Reg.strip (target source : Reg) (c : Cpu) : Strip := ⟨c.mem, c.reg target, c.reg source⟩

/-- The registers that the loops change. -/
def BLAST_BUSY : List Reg := TEMPS ++ [SCRATCH]

section Loops

variable {env : Env} {place : String → Word}

/-- The body of a loop takes one step and counts it. -/
def Steps (env : Env) (place : String → Word) (body : List Call) (step : Strip → Strip) : Prop :=
  ∀ k, ∃ d, effects env place body k = some d ∧ Reg.strip .r11 .r12 d = step (Reg.strip .r11 .r12 k) ∧
    d.reg .r13 = k.reg .r13 - 1 ∧ ∀ r, r ∉ BLAST_BUSY → d.reg r = k.reg r

theorem fillBody_steps : Steps env place fillBody Strip.fill := by
  intro k
  refine ⟨_, by simp [fillBody]; rfl, by simp [Reg.strip, Strip.fill], by simp, fun r other => ?_⟩
  obtain ⟨notR11, -, notR13, -⟩ : r ≠ .r11 ∧ r ≠ .r12 ∧ r ≠ .r13 ∧ r ≠ .r15 := by simpa [BLAST_BUSY, TEMPS, SCRATCH] using other
  simp [notR11, notR13]

theorem copyBody_steps : Steps env place copyBody Strip.copy := by
  intro k
  refine ⟨_, by simp [copyBody]; rfl, by simp [Reg.strip, Strip.copy, SCRATCH], by simp [SCRATCH], fun r other => ?_⟩
  obtain ⟨notR11, notR12, notR13, notR15⟩ : r ≠ .r11 ∧ r ≠ .r12 ∧ r ≠ .r13 ∧ r ≠ .r15 := by
    simpa [BLAST_BUSY, TEMPS, SCRATCH] using other
  simp [notR11, notR12, notR13, notR15, SCRATCH]

/-- The loop takes as many steps as R13 says. -/
theorem loop_meets {L : Listing} {body : List Call} {step : Strip → Strip} (steps : Steps L.env L.address body step)
    (top done : String) (c : Cpu) :
    L.Meets (guarded "eq" top done [testRegReg .r13 .r13] body) c fun d =>
      d.mem = (step^[(c.reg .r13).toNat] (Reg.strip .r11 .r12 c)).mem ∧ ∀ r, r ∉ BLAST_BUSY → d.reg r = c.reg r := by
  -- Where `n` steps are to come, they lead to the same memory as all of them from the start.
  let I (n : Nat) (k : Cpu) : Prop := n < 2 ^ 64 ∧ k.reg .r13 = BitVec.ofNat 64 n ∧
    (step^[n] (Reg.strip .r11 .r12 k)).mem = (step^[(c.reg .r13).toNat] (Reg.strip .r11 .r12 c)).mem ∧
    ∀ r, r ∉ BLAST_BUSY → k.reg r = c.reg r
  have tests (n : Nat) (k : Cpu) (here : I n k) :
      L.Meets [testRegReg .r13 .r13] k fun d => I n d ∧ X64.Cond.e.holds d.flags = decide (n = 0) := by
    obtain ⟨small, count, ahead, regs⟩ := here
    obtain ⟨f, tested, zf⟩ := test_effects L.env L.address k .r13
    refine .straight tested ⟨⟨small, count, ahead, regs⟩, ?_⟩
    rw [X64.Cpu.setFlags_flags, zf, count]
    exact decide_eq_decide.mpr (ofNat_inj small (by decide))
  have round (n : Nat) (k : Cpu) (here : I (n + 1) k) : L.Meets body k (I n) := by
    obtain ⟨small, count, ahead, regs⟩ := here
    obtain ⟨d, ran, stepped, counted, others⟩ := steps k
    refine .straight ran ⟨by omega, ?_, ?_, fun r other => (others r other).trans (regs r other)⟩
    · rw [counted, count]
      bv_omega
    · rw [stepped, ← Function.iterate_succ_apply, ahead]
  have start : I (c.reg .r13).toNat c := ⟨(c.reg .r13).isLt, by simp, rfl, fun _ _ => rfl⟩
  refine (Listing.Meets.guarded (show jumpCondition "eq" = some .e by decide) tests round start).mono fun d here => ?_
  exact ⟨here.2.2.1, here.2.2.2⟩

end Loops

/-! ### The loops as they stand -/

section Run

variable {L : Listing} {dst : Reg} {source length : Tree} {c k : Cpu}

/-- The state behind the prologue. -/
def Fronted (L : Listing) (dst : Reg) (source length : Tree) (c k : Cpu) : Prop :=
  effects L.env L.address (TEMPS.map .pushReg ++ blastFront dst source length) c = some k

/-- All the bytes are written when the registers are popped. -/
theorem blast_meets {body : List Call} {step : Strip → Strip} (steps : Steps L.env L.address body step)
    (fronted : Fronted L dst source length c k) (top done : String) :
    L.Meets (blastCalls dst source length top done body) c fun d =>
      ∃ m, effects L.env L.address (TEMPS.reverse.map .popReg) m = some d ∧
        m.mem = (step^[(k.reg .r13).toNat] (Reg.strip .r11 .r12 k)).mem ∧ ∀ r, r ∉ BLAST_BUSY → m.reg r = k.reg r := by
  rw [blastCalls, saving, ← List.append_assoc]
  have looped : L.Meets (TEMPS.map .pushReg ++ blastFront dst source length ++
      guarded "eq" top done [testRegReg .r13 .r13] body) c fun m =>
        m.mem = (step^[(k.reg .r13).toNat] (Reg.strip .r11 .r12 k)).mem ∧ ∀ r, r ∉ BLAST_BUSY → m.reg r = k.reg r :=
    .append (.straight fronted rfl) fun m same => same ▸ loop_meets steps top done k
  refine looped.append fun m left => ?_
  obtain ⟨d, popped, -⟩ := @restored_effects L.env L.address TEMPS.reverse m
  exact .straight popped ⟨m, popped, left⟩

end Run

/-! ### The string instructions -/

/-- The registers that a string instruction counts with. -/
def STRING_BUSY : List Reg := [.rdi, .rsi, .rcx]

/-- A string instruction for one byte takes one step where DF is clear. -/
def StringStep (f : Cpu → Cpu) (target source : Reg) (step : Strip → Strip) : Prop :=
  ∀ c, c.flags.df = false → Reg.strip target source (f c) = step (Reg.strip target source c) ∧ (f c).flags = c.flags ∧
    ∀ r, r ∉ STRING_BUSY → (f c).reg r = c.reg r

theorem stosb_step : StringStep Cpu.stosb .rdi .rax Strip.fill := by
  intro c clear
  refine ⟨by simp [Reg.strip, Strip.fill, Cpu.stosb, Cpu.stride, clear], rfl, fun r other => ?_⟩
  obtain ⟨notRdi, -, notRcx⟩ : r ≠ .rdi ∧ r ≠ .rsi ∧ r ≠ .rcx := by simpa [STRING_BUSY] using other
  simp [Cpu.stosb, notRdi, notRcx]

theorem movsb_step : StringStep Cpu.movsb .rdi .rsi Strip.copy := by
  intro c clear
  refine ⟨by simp [Reg.strip, Strip.copy, Cpu.movsb, Cpu.stride, clear], rfl, fun r other => ?_⟩
  obtain ⟨notRdi, notRsi, notRcx⟩ : r ≠ .rdi ∧ r ≠ .rsi ∧ r ≠ .rcx := by simpa [STRING_BUSY] using other
  simp [Cpu.movsb, notRdi, notRsi, notRcx]

theorem StringStep.iterate {f : Cpu → Cpu} {target source : Reg} {step : Strip → Strip}
    (once : StringStep f target source step) (n : Nat) {c : Cpu} (clear : c.flags.df = false) :
    Reg.strip target source (f^[n] c) = step^[n] (Reg.strip target source c) ∧
      ∀ r, r ∉ STRING_BUSY → (f^[n] c).reg r = c.reg r := by
  induction n generalizing c with
  | zero => exact ⟨rfl, fun _ _ => rfl⟩
  | succ n ih =>
    obtain ⟨stepped, flags, kept⟩ := once c clear
    obtain ⟨further, others⟩ := ih (c := f c) (by rw [flags, clear])
    simp only [Function.iterate_succ_apply]
    exact ⟨further.trans (congrArg _ stepped), fun r other => (others r other).trans (kept r other)⟩

/-- All the steps that R13 asks for, in one instruction. -/
def RepSteps (env : Env) (place : String → Word) (rep : List Call) (step : Strip → Strip) : Prop :=
  ∀ k : Cpu, k.flags.df = false → ∃ d, effects env place rep k = some d ∧
    d.mem = (step^[(k.reg .r13).toNat] (Reg.strip .r11 .r12 k)).mem ∧ d.reg .r11 = k.reg .r11 ∧ d.reg .rsp = k.reg .rsp

theorem repFill_steps {env : Env} {place : String → Word} : RepSteps env place repFill Strip.fill := by
  intro k clear
  let m := ((k.set .rdi (k.reg .r11)).set .rax (k.reg .r12)).set .rcx (k.reg .r13)
  obtain ⟨stepped, kept⟩ := stosb_step.iterate (k.reg .r13).toNat (c := m) clear
  refine ⟨Cpu.stosb^[(k.reg .r13).toNat] m, by simp [repFill, m], ?_, ?_, ?_⟩
  · exact congrArg Strip.mem stepped
  · exact kept .r11 (by decide)
  · exact kept .rsp (by decide)

theorem repCopy_steps {env : Env} {place : String → Word} : RepSteps env place repCopy Strip.copy := by
  intro k clear
  let m := ((k.set .rdi (k.reg .r11)).set .rsi (k.reg .r12)).set .rcx (k.reg .r13)
  obtain ⟨stepped, kept⟩ := movsb_step.iterate (k.reg .r13).toNat (c := m) clear
  refine ⟨Cpu.movsb^[(k.reg .r13).toNat] m, by simp [repCopy, m], ?_, ?_, ?_⟩
  · exact congrArg Strip.mem stepped
  · exact kept .r11 (by decide)
  · exact kept .rsp (by decide)

theorem blastRep_meets {L : Listing} {dst : Reg} {source length : Tree} {c k : Cpu} {rep : List Call}
    {step : Strip → Strip} (steps : RepSteps L.env L.address rep step) (user : User dst)
    (fronted : Fronted L dst source length c k) (clear : k.flags.df = false) :
    L.Meets (blastRepCalls dst source length rep) c fun d =>
      ∃ m, effects L.env L.address (TEMPS.reverse.map .popReg) m = some d ∧
        m.mem = (step^[(k.reg .r13).toNat] (Reg.strip .r11 .r12 k)).mem ∧ m.reg .rsp = k.reg .rsp ∧
        m.reg dst = k.reg .r11 := by
  obtain ⟨notSp, -, notR11, -⟩ := (user_iff dst).mp user
  obtain ⟨m, written, mem, r11, sp⟩ := steps k clear
  obtain ⟨d, popped, -⟩ := @restored_effects L.env L.address TEMPS.reverse (m.set dst (m.reg .r11))
  refine .straight (d := d) ?_ ⟨m.set dst (m.reg .r11), popped, mem, ?_, by simp [r11]⟩
  · rw [blastRepCalls, saving, ← List.append_assoc, ← List.append_assoc, effects_append, effects_append, effects_append,
      fronted, Option.bind_some, written, Option.bind_some, copyTo_effects, Option.bind_some]
    exact popped
  · rw [X64.Cpu.set_reg, if_neg (Ne.symm notSp), sp]

/-! ### Loops and string instructions -/

section Agreement

variable {env : Env} {place : String → Word}

theorem pops_agree {rs : List Reg} {k k' d d' : Cpu} (ran : effects env place (rs.map .popReg) k = some d)
    (ran' : effects env place (rs.map .popReg) k' = some d') (mem : k'.mem = k.mem) (sp : k'.reg .rsp = k.reg .rsp)
    {r : Reg} (same : r ∉ rs → k'.reg r = k.reg r) : d'.reg r = d.reg r := by
  induction rs generalizing k k' with
  | nil =>
    cases ran
    cases ran'
    exact same List.not_mem_nil
  | cons s rs ih =>
    refine ih ran ran' (by simpa using mem) (by simp [mem, sp]) fun other => ?_
    by_cases here : r = s
    · simp [here, mem, sp]
    · have kept := same (by simp [here, other])
      by_cases isSp : r = .rsp
      · simp [isSp, mem, sp]
      · simp [here, isSp, kept]

theorem pops_other {rs : List Reg} {k d : Cpu} (ran : effects env place (rs.map .popReg) k = some d) {r : Reg}
    (notSp : r ≠ .rsp) (other : r ∉ rs) : d.reg r = k.reg r := by
  induction rs generalizing k with
  | nil =>
    cases ran
    rfl
  | cons s rs ih =>
    obtain ⟨notHere, later⟩ := not_or.mp (mt List.mem_cons.mpr other)
    rw [ih ran later]
    simp [notHere, notSp]

end Agreement

section Prologue

variable (place : String → Word) (dst : Reg) (source length : Tree) (c : Cpu)

/-- Where the writing begins: at the target, unless an operand is arithmetic, which goes through R11. -/
def heldTarget : Word :=
  match source, length with
  | _, .node .. => brought place length ((c.set .r15 (brought place source c)).set .r12 (brought place source c))
  | .node .., .leaf _ => brought place source c
  | .leaf _, .leaf _ => c.reg dst

/-- The destination is restored from the stack, or from an R11 that still holds it. -/
def RepIntact : Prop := dst = .r12 ∨ dst = .r13 ∨ heldTarget place dst source length c = c.reg dst

end Prologue

theorem ExprOp.flags_df (undefined : X64.Flags → Word → Word → X64.Flags) (op : ExprOp) (f : X64.Flags) (a b : Word) :
    (op.flags undefined f a b).df = f.df := by
  cases op <;> rfl

theorem Tree.flags_df (undefined : X64.Flags → Word → Word → X64.Flags) (place : String → Word) (c : Cpu) (t : Tree)
    (late : Option Tree) (f : X64.Flags) : (t.flags undefined place c late f).df = f.df := by
  induction t generalizing late f with
  | leaf o => rfl
  | node op left right ihl ihr => rw [Tree.flags, ExprOp.flags_df, ihr, ihl]

/-- R11 after the evaluation of a tree into another register. -/
theorem calls_r11 {env : Env} {place : String → Word} {t : Tree} {c₀ c d : Cpu}
    (ran : effects env place (t.calls SCRATCH) c = some d) (done : Evaluated place c₀ SCRATCH t none c d) :
    d.reg .r11 = match t with
      | .leaf _ => c.reg .r11
      | .node .. => brought place t c₀ := by
  cases t with
  | leaf o =>
    rw [Tree.calls, mov_effects] at ran
    cases ran
    simp [SCRATCH]
  | node op left right => exact (node_r11 ran).trans done.value

theorem front_runs {L : Listing} {dst : Reg} {source length : Tree} {c : Cpu} {n : Nat} (user : User dst)
    (readable : source.Readable n c) (readable' : length.Readable n c) (room : 8 * (3 + source.depth) ≤ n)
    (room' : 8 * (3 + length.depth) ≤ n) (fits : n + 8 ≤ 2 ^ 64) :
    ∃ k, Fronted L dst source length c k ∧ k.reg .r11 = heldTarget L.address dst source length c ∧
      k.reg .rsp = c.reg .rsp - 24 ∧ (dst ∉ TEMPS → k.reg dst = c.reg dst) ∧ k.flags.df = c.flags.df := by
  obtain ⟨notSp, -, notR11, notR15⟩ := (user_iff dst).mp user
  obtain ⟨m, pushed⟩ : ∃ m, c.pushAll (TEMPS.map c.reg) = m := ⟨_, rfl⟩
  obtain ⟨regs, sp, -, mem, flags, -⟩ := pushed ▸ @X64.pushAll_pushed (TEMPS.map c.reg) (by simp [TEMPS]) c
  have three : m.reg .rsp = c.reg .rsp - 24 := sp
  have above : SameAbove (c.reg .rsp) n c.mem m.mem := by
    rw [sp] at mem
    exact mem.sameAbove.mono (show 24 ≤ n by omega)
  -- The source is read in a state that differs from the first one in R11, the stack pointer and what was pushed.
  let m₁ := m.set .r11 (m.reg dst)
  have start : Evaluating L.address n c none m₁ := by
    refine ⟨fun r h₁ _ h₃ => ?_, ?_, above⟩
    · simp [m₁, h₁, regs r h₃]
    · simp [m₁, regs .r12 (by decide), Tree.value, Operand.value]
  obtain ⟨m₂, ran, done, flags₂⟩ := @Tree.runs_flags L.env L.address source n 3 c m₁ none SCRATCH start readable
    (by simpa [m₁, TEMPS] using sp) room fits (by decide)
  obtain ⟨v, first⟩ : ∃ v, brought L.address source c = v := ⟨_, rfl⟩
  have r15 : m₂.reg .r15 = v := done.value.trans first
  have kept₂ (r : Reg) (h₀ : r ≠ .r15) (h₁ : r ≠ .r11) (h₂ : r ≠ .r12) : m₂.reg r = m.reg r :=
    (done.regs r h₀ h₁ h₂).trans (by simp [m₁, h₁])
  -- The length is read where R12 and R15 hold the source.
  let c₃ := (c.set .r15 v).set .r12 v
  let m₃ := m₂.set .r12 (m₂.reg SCRATCH)
  have between : Evaluating L.address n c₃ none m₃ := by
    refine ⟨fun r h₁ h₂ h₃ => ?_, ?_, ?_⟩
    · by_cases isR15 : r = .r15
      · simp [m₃, c₃, isR15, r15]
      · simp [m₃, c₃, h₂, isR15, kept₂ r isR15 h₁ h₂, regs r h₃]
    · simp [m₃, c₃, r15, SCRATCH, Tree.value, Operand.value]
    · have lowered := done.mem
      simp only [m₁, X64.Cpu.set_reg, reduceCtorEq, if_false, three, X64.Cpu.set_mem] at lowered
      exact above.trans ((SameAbove.lower (k := 24) lowered (by decide)).mono (by omega))
  obtain ⟨m₄, ran', done', flags₄⟩ := @Tree.runs_flags L.env L.address length n 3 c₃ m₃ none SCRATCH between
    (readable'.congr (by simp [c₃]) (by simp [c₃])) (by simp [m₃, c₃, kept₂, three]) room' fits (by decide)
  have kept₄ (r : Reg) (h₀ : r ≠ .r15) (h₁ : r ≠ .r11) (h₂ : r ≠ .r12) : m₄.reg r = m.reg r :=
    (done'.regs r h₀ h₁ h₂).trans (by simp [m₃, h₂, kept₂ r h₀ h₁ h₂])
  refine ⟨m₄.set .r13 (m₄.reg SCRATCH), ?_, ?_, ?_, fun apart => ?_, ?_⟩
  · rw [Fronted, blastFront, effects_append, pushAll_effects (by decide), Option.bind_some, pushed, effects_append,
      effects_append, effects_append, effects_append, effects_cons, effect_movRegReg, Option.bind_some, effects_nil,
      Option.bind_some, ran, Option.bind_some, effects_cons, effect_movRegReg, Option.bind_some, effects_nil,
      Option.bind_some, ran', Option.bind_some, effects_cons, effect_movRegReg, Option.bind_some, effects_nil]
  · have r11 := calls_r11 ran done
    have r11' := calls_r11 ran' done'
    cases length with
    | node op left right =>
      cases source <;> simpa [heldTarget, first] using r11'
    | leaf o =>
      cases source with
      | node op left right => simpa [heldTarget, m₃, r11] using r11'
      | leaf o' => simpa [heldTarget, m₃, r11, m₁, regs dst notSp] using r11'
  · simp [kept₄, three]
  · have idle : dst ≠ .r11 ∧ dst ≠ .r12 ∧ dst ≠ .r13 := by simpa [TEMPS] using apart
    simp [idle.2.2, kept₄ dst notR15 notR11 idle.2.1, regs dst notSp]
  · rw [X64.Cpu.set_flags, flags₄, Tree.flags_df, X64.Cpu.set_flags, flags₂, Tree.flags_df, X64.Cpu.set_flags, flags]

/-- What the loop and the string instruction leave, from the same prologue on. -/
theorem agrees_iff {L : Listing} {dst : Reg} (user : User dst) {source length : Tree} {c k m m' d d' : Cpu} {mem : Memory}
    (r11 : k.reg .r11 = heldTarget L.address dst source length c) (own : dst ∉ TEMPS → k.reg dst = c.reg dst)
    (ran : effects L.env L.address (TEMPS.reverse.map .popReg) m = some d)
    (left : m.mem = mem ∧ ∀ r, r ∉ BLAST_BUSY → m.reg r = k.reg r)
    (ran' : effects L.env L.address (TEMPS.reverse.map .popReg) m' = some d')
    (left' : m'.mem = mem ∧ m'.reg .rsp = k.reg .rsp ∧ m'.reg dst = k.reg .r11) :
    d'.mem = d.mem ∧ (d'.reg dst = d.reg dst ↔ RepIntact L.address dst source length c) := by
  obtain ⟨notSp, -, notR11, notR15⟩ := (user_iff dst).mp user
  obtain ⟨here, regs⟩ := left
  obtain ⟨here', sp, target⟩ := left'
  obtain ⟨e, again, kept, -⟩ := @restored_effects L.env L.address TEMPS.reverse m
  cases ran.symm.trans again
  obtain ⟨e, again, kept', -⟩ := @restored_effects L.env L.address TEMPS.reverse m'
  cases ran'.symm.trans again
  refine ⟨by rw [kept, kept', here, here'], ?_⟩
  by_cases temp : dst ∈ TEMPS
  · have same := pops_agree (r := dst) ran ran' (here'.trans here.symm) (sp.trans (regs .rsp (by decide)).symm)
      fun other => absurd (List.mem_reverse.mpr temp) other
    have either : dst = .r12 ∨ dst = .r13 := by simpa [TEMPS, notR11] using temp
    exact iff_of_true same (either.imp_right .inl)
  · have other : dst ∉ TEMPS.reverse := fun member => temp (List.mem_reverse.mp member)
    have idle : dst ∉ BLAST_BUSY := by simp [BLAST_BUSY, temp, SCRATCH, notR15]
    have apart : dst ≠ .r11 ∧ dst ≠ .r12 ∧ dst ≠ .r13 := by simpa [TEMPS] using temp
    rw [pops_other ran notSp other, pops_other ran' notSp other, target, regs dst idle, own temp, r11]
    simp [RepIntact, apart.2.1, apart.2.2]

section Both

variable {L : Listing} {M : Machine} (loaded : L.Loaded M) {g g' : CodeGenerator} {args : List String}
  (bound : g.fnArgs = bindArgs args) {name : String} {dst : Reg} (named : resolve name = .ok dst) {source length : Expr}
  {s l : Tree} (resolved : resolveTree g source = .ok s) (resolved' : resolveTree g length = .ok l)
  (known : resolveTree g' source = .ok s) (known' : resolveTree g' length = .ok l) {n : Nat}
  (room : 8 * (3 + s.depth) ≤ n) (room' : 8 * (3 + l.depth) ≤ n) (fits : n + 8 ≤ 2 ^ 64) {c : Cpu} (framed : s.Framed n c)
  (framed' : l.Framed n c) (clear : c.flags.df = false) {i i' : Nat} {calls calls' : List Call}

include loaded bound named resolved resolved' known known' room room' fits framed framed' clear

theorem blastRepFill_result (stands : Stands L g (.blastFill name source length) i calls)
    (stands' : Stands L g' (.blastRepFill name source length) i' calls') :
    ∃ d d', M.Completes (L.offset i) (L.offset (i + calls.length)) c d ∧
      M.Completes (L.offset i') (L.offset (i' + calls'.length)) c d' ∧ d'.mem = d.mem ∧
      (d'.reg dst = d.reg dst ↔ RepIntact L.address dst s l c) := by
  have user := user_of_resolve named
  obtain ⟨k, fronted, r11, -, own, df⟩ := @front_runs L dst s l c n user (resolveTree_readable bound resolved framed)
    (resolveTree_readable bound resolved' framed') room room' fits
  obtain ⟨top, done, appends⟩ := blastFill_appends named resolved resolved'
  obtain ⟨d, run, m, ran, left⟩ := stands.executes loaded appends (blast_meets fillBody_steps fronted top done)
  obtain ⟨d', run', m', ran', left'⟩ := stands'.executes loaded (blastRepFill_appends named known known')
    (blastRep_meets repFill_steps user fronted (df.trans clear))
  exact ⟨d, d', run, run', agrees_iff user r11 own ran left ran' left'⟩

theorem blastRepCopy_result (stands : Stands L g (.blastCopy name source length) i calls)
    (stands' : Stands L g' (.blastRepCopy name source length) i' calls') :
    ∃ d d', M.Completes (L.offset i) (L.offset (i + calls.length)) c d ∧
      M.Completes (L.offset i') (L.offset (i' + calls'.length)) c d' ∧ d'.mem = d.mem ∧
      (d'.reg dst = d.reg dst ↔ RepIntact L.address dst s l c) := by
  have user := user_of_resolve named
  obtain ⟨k, fronted, r11, -, own, df⟩ := @front_runs L dst s l c n user (resolveTree_readable bound resolved framed)
    (resolveTree_readable bound resolved' framed') room room' fits
  obtain ⟨top, done, appends⟩ := blastCopy_appends named resolved resolved'
  obtain ⟨d, run, m, ran, left⟩ := stands.executes loaded appends (blast_meets copyBody_steps fronted top done)
  obtain ⟨d', run', m', ran', left'⟩ := stands'.executes loaded (blastRepCopy_appends named known known')
    (blastRep_meets repCopy_steps user fronted (df.trans clear))
  exact ⟨d, d', run, run', agrees_iff user r11 own ran left ran' left'⟩

/-- With DF clear the string instructions leave the memory that the loops leave, and the same destination where it is
popped or an R11 that still holds it is copied back. -/
theorem blastRep_iff :
    (Stands L g (.blastFill name source length) i calls → Stands L g' (.blastRepFill name source length) i' calls' →
      ∃ d d', M.Completes (L.offset i) (L.offset (i + calls.length)) c d ∧
        M.Completes (L.offset i') (L.offset (i' + calls'.length)) c d' ∧ d'.mem = d.mem ∧
        (d'.reg dst = d.reg dst ↔ RepIntact L.address dst s l c)) ∧
    (Stands L g (.blastCopy name source length) i calls → Stands L g' (.blastRepCopy name source length) i' calls' →
      ∃ d d', M.Completes (L.offset i) (L.offset (i + calls.length)) c d ∧
        M.Completes (L.offset i') (L.offset (i' + calls'.length)) c d' ∧ d'.mem = d.mem ∧
        (d'.reg dst = d.reg dst ↔ RepIntact L.address dst s l c)) :=
  ⟨blastRepFill_result loaded bound named resolved resolved' known known' room room' fits framed framed' clear,
    blastRepCopy_result loaded bound named resolved resolved' known known' room room' fits framed framed' clear⟩

end Both

/-- `blast:fill reg1 = 65, length` and `blast:rep_fill reg1 = 65, length`. -/
def fillPair (length : Tree) : List Call × List Call :=
  (blastCalls .rax (.leaf (.imm 65)) length (freshLabel "fill" 1) (freshLabel "filld" 2) fillBody,
    blastRepCalls .rax (.leaf (.imm 65)) length repFill)

/-- Three bytes. -/
theorem blastRep_iff_plain : ∃ (L : Listing) (M : Machine) (n m : Nat) (d d' : Cpu), L.Loaded M ∧
    M.Completes (L.offset 0) (L.offset n) (Cpu.filled 5) d ∧ M.Completes (L.offset n) (L.offset m) (Cpu.filled 5) d' ∧
    d'.mem = d.mem ∧ d'.reg .rax = d.reg .rax := by
  obtain ⟨L, M, loaded, -, stands, stands'⟩ := exists_stands_both (.new false) (.blastFill "reg1" (.number 65) (.number 3))
    (.blastRepFill "reg1" (.number 65) (.number 3)) .silent (fillPair (.leaf (.imm 3))).1 (fillPair (.leaf (.imm 3))).2
    ⟨_, rfl, by decide⟩ ⟨_, rfl, by decide⟩ (by decide)
  obtain ⟨d, d', run, run', mem, right⟩ := (@blastRep_iff L M loaded _ _ [] rfl _ .rax (by decide) _ _ (.leaf (.imm 65))
    (.leaf (.imm 3)) rfl rfl rfl rfl 24 (by decide) (by decide) (by decide) (Cpu.filled 5) trivial trivial rfl _ _ _ _).1
    stands stands'
  rw [Nat.zero_add] at run
  exact ⟨L, M, _, _, d, d', loaded, run, run', mem, right.mpr (.inr (.inr rfl))⟩

/-- `blast:rep_fill reg1 = 65, 1 + 1`: the sum goes through R11, and is copied to the destination. -/
theorem blastRep_differs : ¬∀ (L : Listing) (M : Machine) (g g' : CodeGenerator) (name : String) (dst : Reg)
    (source length : Expr) (s l : Tree) (c d d' : Cpu) (i i' : Nat) (calls calls' : List Call), L.Loaded M →
      resolve name = .ok dst → resolveTree g source = .ok s → resolveTree g length = .ok l →
      resolveTree g' source = .ok s → resolveTree g' length = .ok l → c.flags.df = false →
      Disjoint (range (c.reg .rsp - 24) 24) (range (c.reg dst) (l.value L.address c).toNat) →
      Stands L g (.blastFill name source length) i calls → Stands L g' (.blastRepFill name source length) i' calls' →
      M.Completes (L.offset i) (L.offset (i + calls.length)) c d →
      M.Completes (L.offset i') (L.offset (i' + calls'.length)) c d' →
      SameAbove (c.reg .rsp) 24 d.mem d'.mem ∧ d'.reg dst = d.reg dst := by
  intro always
  let length : Expr := .binExpr .add (.number 1) (.number 1)
  let l : Tree := .node .add (.leaf (.imm 1)) (.leaf (.imm 1))
  obtain ⟨L, M, loaded, -, stands, stands'⟩ := exists_stands_both (.new false) (.blastFill "reg1" (.number 65) length)
    (.blastRepFill "reg1" (.number 65) length) .silent (fillPair l).1 (fillPair l).2 ⟨_, rfl, by decide⟩ ⟨_, rfl, by decide⟩
    (by decide)
  let c := (Cpu.filled 0).set .rsp 0x8000000000000000
  obtain ⟨d, d', run, run', -, right⟩ := @blastRepFill_result L M loaded _ _ [] rfl _ .rax (by decide) _ _
    (.leaf (.imm 65)) l rfl rfl rfl rfl 32 (by decide) (by decide) (by decide) c trivial ⟨trivial, trivial⟩ rfl _ _ _ _
    stands stands'
  have apart : Disjoint (range (c.reg .rsp - 24) 24) (range (c.reg .rax) (l.value L.address c).toNat) := by
    have value : l.value L.address c = 2 := rfl
    rw [value]
    refine Set.disjoint_left.mpr fun x near inside => ?_
    have sp : c.reg .rsp = 0x8000000000000000 := rfl
    have target : c.reg .rax = 0 := rfl
    simp only [range, Set.mem_ofPred_eq, sp, target] at near inside
    bv_omega
  have same := (always L M _ _ _ .rax _ _ (.leaf (.imm 65)) l c d d' _ _ _ _ loaded (by decide) rfl rfl rfl rfl rfl apart
    stands stands' run run').2
  rcases right.mp same with isR12 | isR13 | held
  · cases isR12
  · cases isR13
  · exact absurd (show (2 : Word) = 0 from held) (by decide)

/-! ### What is written -/

section Written

variable (place : String → Word) (dst : Reg) (source length : Operand) (c d : Cpu)

/-- After the prologue: the number of the bytes in R13 was read when R12 held the byte or the source. -/
structure Caught (k : Cpu) : Prop where
  strip : Reg.strip .r11 .r12 k = ⟨(c.pushAll (TEMPS.map c.reg)).mem, c.reg dst, source.value place c⟩
  count : k.reg .r13 = length.value place (c.set .r12 (source.value place c))
  regs : ∀ r, r ∉ BLAST_BUSY → k.reg r = (c.pushAll (TEMPS.map c.reg)).reg r

/-- The memory that is written in `c`. -/
def blasted (step : Strip → Strip) : Memory :=
  (step^[(length.value place (c.set .r12 (source.value place c))).toNat]
    ⟨(c.pushAll (TEMPS.map c.reg)).mem, c.reg dst, source.value place c⟩).mem

/-- The three words on the stack are as they were pushed. -/
def StackKept : Prop := SameOn (c.reg .rsp - 24) 24 (c.pushAll (TEMPS.map c.reg)).mem d.mem

/-- The target avoids the words that are pushed. -/
def TargetClear : Prop :=
  Disjoint (range (c.reg .rsp - 24) 24) (range (c.reg dst) (length.value place c).toNat)

/-- As many bytes as the length says are the low byte of `source`; nothing else above the words pushed has changed, and no
register. -/
structure BlastFilled : Prop where
  bytes : ∀ x : Word, (x - c.reg .rsp).toNat + 24 < 2 ^ 64 → d.mem x =
    if (x - c.reg dst).toNat < (length.value place c).toNat then BitVec.ofNat 8 (source.value place c).toNat else c.mem x
  regs : ∀ r, r ≠ SCRATCH → d.reg r = c.reg r

/-- As many bytes as the length says are copied forward, in the memory at entry but for the words pushed, and no register
has changed. -/
structure BlastCopied : Prop where
  bytes : ∃ m, SameAbove (c.reg .rsp) 24 c.mem m ∧
    d.mem = (Strip.copy^[(length.value place c).toNat] ⟨m, c.reg dst, source.value place c⟩).mem
  regs : ∀ r, r ≠ SCRATCH → d.reg r = c.reg r

end Written

section Plain

theorem Plain.tree {g : CodeGenerator} {busy : List Reg} {node : Expr} {o : Operand} (plain : Plain g busy node o) :
    resolveTree g node = .ok (.leaf o) := by
  have found := plain.operand
  cases plain <;> simp [resolveTree, found, Except.map]

variable {L : Listing} {dst : Reg} {source length : Operand} {c d : Cpu}

theorem front_caught (user : User dst) (outside : source.Outside []) (outside' : length.Outside []) (c : Cpu) :
    ∃ k, Fronted L dst (.leaf source) (.leaf length) c k ∧ Caught L.address dst source length c k := by
  obtain ⟨notSp, -, -, -⟩ := (user_iff dst).mp user
  obtain ⟨m, pushed⟩ : ∃ m, c.pushAll (TEMPS.map c.reg) = m := ⟨_, rfl⟩
  obtain ⟨regs, -⟩ := pushed ▸ @X64.pushAll_pushed (TEMPS.map c.reg) (by simp [TEMPS]) c
  obtain ⟨v, held⟩ : ∃ v, source.value L.address c = v := ⟨_, rfl⟩
  have first : source.value L.address (m.set .r11 (c.reg dst)) = v := held ▸ outside.value_user fun r named => by
    obtain ⟨rNotSp, -, notR11, -⟩ := (user_iff r).mp named
    simp [notR11, regs r rNotSp]
  have second : length.value L.address (((m.set .r11 (c.reg dst)).set .r15 v).set .r12 v) =
      length.value L.address (c.set .r12 v) := outside'.value_user fun r named => by
    obtain ⟨rNotSp, -, notR11, notR15⟩ := (user_iff r).mp named
    simp [notR11, notR15, regs r rNotSp]
  have target : m.reg dst = c.reg dst := regs dst notSp
  refine ⟨((((m.set .r11 (c.reg dst)).set .r15 v).set .r12 v).set .r15 (length.value L.address (c.set .r12 v))).set .r13
    (length.value L.address (c.set .r12 v)), ?_, ?_⟩
  · rw [Fronted, blastFront, effects_append, pushAll_effects (by decide), Option.bind_some, pushed]
    simp [effects_append, Tree.calls, target, mov_effects, first, second, SCRATCH]
  · refine ⟨by simp [Reg.strip, pushed, held], by simp [held], fun r other => ?_⟩
    obtain ⟨notR11, notR12, notR13, notR15⟩ : r ≠ .r11 ∧ r ≠ .r12 ∧ r ≠ .r13 ∧ r ≠ .r15 := by
      simpa [BLAST_BUSY, TEMPS, SCRATCH] using other
    simp [notR11, notR12, notR13, notR15, pushed]

theorem blasted_meets {body : List Call} {step : Strip → Strip} (steps : Steps L.env L.address body step) (user : User dst)
    (outside : source.Outside []) (outside' : length.Outside []) (top done : String) (c : Cpu) :
    L.Meets (blastCalls dst (.leaf source) (.leaf length) top done body) c fun d =>
      d.mem = blasted L.address dst source length c step ∧ (StackKept c d → ∀ r, r ≠ SCRATCH → d.reg r = c.reg r) := by
  obtain ⟨k, fronted, caught⟩ := @front_caught L dst source length user outside outside' c
  have saved := @saved_pushAll TEMPS (by decide) c
  refine (blast_meets steps fronted top done).mono fun d left => ?_
  obtain ⟨m, popped, mem, regs⟩ := left
  obtain ⟨e, again, kept, -⟩ := @restored_effects L.env L.address TEMPS.reverse m
  cases popped.symm.trans again
  rw [caught.strip, caught.count] at mem
  refine ⟨kept.trans mem, fun stack r notScratch => ?_⟩
  have sp : m.reg .rsp = (c.pushAll (TEMPS.map c.reg)).reg .rsp := (regs .rsp (by decide)).trans (caught.regs .rsp (by decide))
  have words : SameOn ((c.pushAll (TEMPS.map c.reg)).reg .rsp) (8 * TEMPS.length) (c.pushAll (TEMPS.map c.reg)).mem m.mem := by
    rw [saved.sp, ← kept]
    exact stack
  obtain ⟨e, again, back⟩ := @Saved.restore L.env L.address _ _ _ m saved (by decide) (by decide) (by decide) sp words
  cases popped.symm.trans again
  by_cases temp : r ∈ TEMPS
  · exact back.saved r temp
  · by_cases isSp : r = .rsp
    · rw [isSp, back.sp]
    · have idle : r ∉ BLAST_BUSY := by simp [BLAST_BUSY, temp, notScratch]
      rw [back.others r temp isSp, regs r idle, caught.regs r idle, saved.regs r isSp]

/-- Where the length is what it was at entry, the words pushed are kept. -/
theorem blasted_stack {step : Strip → Strip} (writes : Strip.Writes step)
    (same : length.Same L.address c (c.set .r12 (source.value L.address c)))
    (clear : TargetClear L.address dst length c) (mem : d.mem = blasted L.address dst source length c step) : StackKept c d := by
  intro x inside
  have far : ¬(x - c.reg dst).toNat < (length.value L.address c).toNat := Set.disjoint_left.mp clear inside
  rw [mem, blasted, same]
  exact Strip.Writes.outside writes _ _ (Nat.le_of_not_lt far)

/-- The length is read as it should be unless it names R12 and the byte or source does not. -/
theorem length_same (place : String → Word) (outside' : length.Outside [])
    (apart : length = .reg .r12 → source = .reg .r12) (c : Cpu) :
    length.Same place c (c.set .r12 (source.value place c)) := by
  cases length with
  | imm value => rfl
  | address label => rfl
  | slot off => exact outside'.elim
  | reg r =>
    by_cases late : r = .r12
    · have same := apart (by rw [late])
      simp [Operand.Same, same, Operand.value, late]
    · simp [Operand.Same, Operand.value, late]

theorem pushed_above (c : Cpu) : SameAbove (c.reg .rsp) 24 c.mem (c.pushAll (TEMPS.map c.reg)).mem :=
  (@saved_pushAll TEMPS (by decide) c).sameAbove

theorem filled_of_apart (outside' : length.Outside []) (apart : length = .reg .r12 → source = .reg .r12)
    (clear : TargetClear L.address dst length c) (mem : d.mem = blasted L.address dst source length c Strip.fill)
    (regs : StackKept c d → ∀ r, r ≠ SCRATCH → d.reg r = c.reg r) : BlastFilled L.address dst source length c d := by
  have same := length_same L.address outside' apart c
  refine ⟨fun x above => ?_, regs (blasted_stack Strip.writes_fill same clear mem)⟩
  rw [mem, blasted, same]
  split
  · next near => exact Strip.fill_byte _ _ near
  · next far => exact (Strip.writes_fill.outside _ _ (Nat.le_of_not_lt far)).trans (pushed_above c x above)

/-- A copy of a range onto itself is right whatever its length. -/
theorem copied_of_apart (outside' : length.Outside [])
    (apart : length = .reg .r12 → source = .reg .r12 ∨ source = .reg dst)
    (clear : TargetClear L.address dst length c) (mem : d.mem = blasted L.address dst source length c Strip.copy)
    (regs : StackKept c d → ∀ r, r ≠ SCRATCH → d.reg r = c.reg r) : BlastCopied L.address dst source length c d := by
  by_cases onto : source = .reg dst
  · subst onto
    have still : d.mem = (c.pushAll (TEMPS.map c.reg)).mem := mem.trans (Strip.copy_self ..)
    refine ⟨⟨_, pushed_above c, still.trans (Strip.copy_self ..).symm⟩, regs fun x _ => by rw [still]⟩
  · have same := @length_same source length L.address outside' (fun late => (apart late).resolve_right onto) c
    refine ⟨⟨_, pushed_above c, ?_⟩, regs (blasted_stack Strip.writes_copy same clear mem)⟩
    rw [mem, blasted, same]

end Plain

/-! ### Where the length is lost -/

section Lost

/-- R12 holds `n`, the target `a` and the stack pointer `p`; the other registers hold one. -/
def blastEntry (target : Reg) (mem : Memory) (n a p : Word) : Cpu :=
  ((((Cpu.filled 1).set .r12 n).set target a).set .rsp p).setMem mem

section Entry

variable (target r : Reg) (mem : Memory) (n a p : Word)

@[simp] theorem entry_sp : (blastEntry target mem n a p).reg .rsp = p := rfl

@[simp] theorem entry_mem : (blastEntry target mem n a p).mem = mem := rfl

theorem entry_reg (notSp : r ≠ .rsp) :
    (blastEntry target mem n a p).reg r = if r = target then a else if r = .r12 then n else 1 := by
  simp [blastEntry, Cpu.filled, notSp]

end Entry

variable {place : String → Word} {dst target : Reg} {source : Operand}

theorem entry_value (outside : source.Outside []) (notLate : source ≠ .reg .r12) (notTarget : source ≠ .reg target)
    (mem : Memory) (n a p : Word) :
    source.value place (blastEntry target mem n a p) = source.value place (Cpu.filled 1) := by
  cases source with
  | imm value => rfl
  | address label => rfl
  | slot off => exact outside.elim
  | reg r =>
    obtain ⟨notSp, -⟩ := (user_iff r).mp outside.1
    have notR12 : r ≠ .r12 := fun same => notLate (by rw [same])
    have other : r ≠ target := fun same => notTarget (by rw [same])
    simp [Operand.value, entry_reg _ _ _ _ _ _ notSp, notR12, other, Cpu.filled]

/-- One byte is to be written, far from the stack. -/
theorem entry_clear {mem : Memory} {n a : Word} {c : Cpu} (entry : blastEntry target mem n a 0x8000000000000000 = c)
    (here : c.reg dst = 1) (one : c.reg .r12 = 1) : TargetClear place dst (.reg .r12) c := by
  refine Set.disjoint_left.mpr fun x near inside => ?_
  have sp : c.reg .rsp = 0x8000000000000000 := by rw [← entry]; rfl
  simp only [range, Set.mem_ofPred_eq, sp, here, one, Operand.value] at near inside
  bv_omega

/-- A zero byte is not written, or another one where none is asked for. -/
theorem fill_lost (user : User dst) (outside : source.Outside []) (notLate : source ≠ .reg .r12) :
    ∃ c, TargetClear place dst (.reg .r12) c ∧
      ∀ d, d.mem = blasted place dst source (.reg .r12) c Strip.fill → ¬BlastFilled place dst source (.reg .r12) c d := by
  obtain ⟨notSp, -⟩ := (user_iff dst).mp user
  obtain ⟨v, held⟩ : ∃ v, source.value place (Cpu.filled 1) = v := ⟨_, rfl⟩
  by_cases zero : v = 0
  · obtain ⟨c, entry⟩ : ∃ c, blastEntry .r12 (fun _ => 1) 1 1 0x8000000000000000 = c := ⟨_, rfl⟩
    have value : source.value place c = 0 := by rw [← entry, entry_value outside notLate notLate, held, zero]
    have target : c.reg dst = 1 := by simp [← entry, entry_reg _ _ _ _ _ _ notSp]
    have one : c.reg .r12 = 1 := by rw [← entry]; rfl
    refine ⟨c, entry_clear entry target one, fun d mem filled => ?_⟩
    have high : ((1 : Word) - c.reg .rsp).toNat + 24 < 2 ^ 64 := by
      rw [← entry]
      decide
    have byte := filled.bytes 1 high
    have none : d.mem 1 = c.mem 1 := by
      rw [mem, blasted, value]
      simpa [Operand.value] using pushed_above c 1 high
    have first : c.mem 1 = 1 := by rw [← entry]; rfl
    have length : (Operand.reg .r12).value place c = 1 := one
    rw [none, first, target, length, value] at byte
    exact absurd byte (by decide)
  · obtain ⟨c, entry⟩ : ∃ c, blastEntry .r12 (fun _ => BitVec.ofNat 8 v.toNat + 1) 0 0 0x8000000000000000 = c := ⟨_, rfl⟩
    have value : source.value place c = v := by rw [← entry, entry_value outside notLate notLate, held]
    have length : (Operand.reg .r12).value place c = 0 := by rw [← entry]; rfl
    have high : (c.reg dst - c.reg .rsp).toNat + 24 < 2 ^ 64 := by
      rw [← entry, entry_reg _ _ _ _ _ _ notSp, entry_sp]
      split <;> decide
    refine ⟨c, by simp [TargetClear, length, range], fun d mem filled => ?_⟩
    have byte := filled.bytes _ high
    have some : d.mem (c.reg dst) = BitVec.ofNat 8 v.toNat := by
      have positive : 0 < v.toNat := Nat.pos_of_ne_zero fun none => zero (BitVec.eq_of_toNat_eq none)
      rw [mem, blasted, value]
      exact Strip.fill_byte _ _ (by simpa [Operand.value] using positive)
    have first : c.mem (c.reg dst) = BitVec.ofNat 8 v.toNat + 1 := by rw [← entry]; rfl
    rw [some, first, length] at byte
    simp at byte

/-- A byte is not copied, or one is copied where none is to be. -/
theorem copy_lost (user : User dst) (outside : source.Outside []) (notLate : source ≠ .reg .r12)
    (notTarget : source ≠ .reg dst) :
    ∃ c, TargetClear place dst (.reg .r12) c ∧
      ∀ d, d.mem = blasted place dst source (.reg .r12) c Strip.copy → ¬BlastCopied place dst source (.reg .r12) c d := by
  obtain ⟨notSp, -⟩ := (user_iff dst).mp user
  obtain ⟨v, held⟩ : ∃ v, source.value place (Cpu.filled 1) = v := ⟨_, rfl⟩
  by_cases zero : v = 0
  -- A source at zero: one byte is due, and none is copied.
  · obtain ⟨c, entry⟩ : ∃ c, blastEntry dst (fun x => if x = 0 then 1 else 0) 1 1 0x8000000000000000 = c := ⟨_, rfl⟩
    have value : source.value place c = 0 := by rw [← entry, entry_value outside notLate notTarget, held, zero]
    have target : c.reg dst = 1 := by simp [← entry, entry_reg _ _ _ _ _ _ notSp]
    have one : c.reg .r12 = 1 := by
      rw [← entry, entry_reg _ _ _ _ _ _ (by decide)]
      split <;> rfl
    refine ⟨c, entry_clear entry target one, fun d mem copied => ?_⟩
    obtain ⟨m, above, final⟩ := copied.bytes
    have sp : c.reg .rsp = 0x8000000000000000 := by rw [← entry]; rfl
    have none : d.mem 1 = c.mem 1 := by
      rw [mem, blasted, value]
      simpa [Operand.value] using pushed_above c 1 (by rw [sp]; decide)
    have length : (Operand.reg .r12).value place c = 1 := one
    have byte : d.mem 1 = c.mem 0 := by
      rw [final, length, value, target, ← above 0 (by rw [sp]; decide)]
      exact Strip.copy_front 1 ⟨m, 1, 0⟩ (by decide) (by decide)
    have differ : c.mem 1 ≠ c.mem 0 := by
      rw [← entry]
      simp
    exact differ (none.symm.trans byte)
  -- Any other source: no byte is due, and the count is the address of the source.
  · obtain ⟨a, aim⟩ : ∃ a, (if dst = .r12 then 0 else v + 1) = a := ⟨_, rfl⟩
    obtain ⟨p, high, high'⟩ : ∃ p : Word, (a - p).toNat + 24 < 2 ^ 64 ∧ (v - p).toNat + 24 < 2 ^ 64 := by
      by_cases near : (v - a).toNat + 24 < 2 ^ 64
      · exact ⟨a, by simp, near⟩
      · exact ⟨a + 0x8000000000000000, by bv_omega, by bv_omega⟩
    obtain ⟨c, entry⟩ : ∃ c, blastEntry dst (fun x => if x = v then 1 else 0) 0 a p = c := ⟨_, rfl⟩
    have value : source.value place c = v := by rw [← entry, entry_value outside notLate notTarget, held]
    have target : c.reg dst = a := by simp [← entry, entry_reg _ _ _ _ _ _ notSp]
    have length : (Operand.reg .r12).value place c = 0 := by
      rw [Operand.value, ← entry, entry_reg _ _ _ _ _ _ (by decide)]
      by_cases isR12 : dst = .r12
      · simp [← aim, isR12]
      · simp [Ne.symm isR12]
    have apart : a ≠ v := by
      rw [← aim]
      split
      · exact Ne.symm zero
      · simp
    have sp : c.reg .rsp = p := by rw [← entry]; rfl
    refine ⟨c, by simp [TargetClear, length, range], fun d mem copied => ?_⟩
    obtain ⟨m, above, final⟩ := copied.bytes
    have none : d.mem a = c.mem a := by
      rw [final, length]
      exact above a (by rw [sp]; exact high)
    have byte : d.mem a = c.mem v := by
      have positive : 0 < v.toNat := Nat.pos_of_ne_zero fun none => zero (BitVec.eq_of_toNat_eq none)
      rw [mem, blasted, value, target, ← pushed_above c v (by rw [sp]; exact high')]
      exact Strip.copy_front _ ⟨_, a, v⟩ (by simpa [Operand.value] using v.isLt) (by simpa [Operand.value] using positive)
    have differ : c.mem a ≠ c.mem v := by
      rw [← entry]
      simp [apart]
    exact differ (none.symm.trans byte)

end Lost

section Blasts

variable {L : Listing} {M : Machine}

/-- A fill or a copy is right in every state where the target avoids the stack just where its length is not lost. -/
theorem blast_iff (loaded : L.Loaded M) {g : CodeGenerator} {name : String} {dst : Reg} (named : resolve name = .ok dst)
    {source length : Expr} {s l : Operand} (plain : Plain g [] source s) (plain' : Plain g [] length l) {i : Nat}
    {calls : List Call} :
    (Stands L g (.blastFill name source length) i calls →
      ((∀ c, TargetClear L.address dst l c → ∃ d, M.Completes (L.offset i) (L.offset (i + calls.length)) c d ∧
        BlastFilled L.address dst s l c d) ↔ (l = .reg .r12 → s = .reg .r12))) ∧
    (Stands L g (.blastCopy name source length) i calls →
      ((∀ c, TargetClear L.address dst l c → ∃ d, M.Completes (L.offset i) (L.offset (i + calls.length)) c d ∧
        BlastCopied L.address dst s l c d) ↔ (l = .reg .r12 → s = .reg .r12 ∨ s = .reg dst))) := by
  have user := user_of_resolve named
  have tree : resolveTree g source = .ok (.leaf s) := plain.tree
  have tree' : resolveTree g length = .ok (.leaf l) := plain'.tree
  refine ⟨fun stands => ?_, fun stands => ?_⟩
  · obtain ⟨top, done, appends⟩ := blastFill_appends named tree tree'
    have written (c : Cpu) := stands.executes loaded appends
      (blasted_meets fillBody_steps user plain.outside plain'.outside top done c)
    constructor
    · intro always
      by_contra lost
      obtain ⟨rfl, notLate⟩ := Classical.not_imp.mp lost
      -- The length in R12 is overwritten by the source before it is read.
      obtain ⟨c, clear, wrong⟩ := @fill_lost L.address dst s user plain.outside notLate
      obtain ⟨d, run, filled⟩ := always c clear
      obtain ⟨e, run', mem, -⟩ := written c
      exact wrong d (run.unique run' ▸ mem) filled
    · intro apart c clear
      obtain ⟨d, run, mem, regs⟩ := written c
      exact ⟨d, run, filled_of_apart plain'.outside apart clear mem regs⟩
  · obtain ⟨top, done, appends⟩ := blastCopy_appends named tree tree'
    have written (c : Cpu) := stands.executes loaded appends
      (blasted_meets copyBody_steps user plain.outside plain'.outside top done c)
    constructor
    · intro always
      by_contra lost
      obtain ⟨rfl, other⟩ := Classical.not_imp.mp lost
      obtain ⟨notLate, notTarget⟩ := not_or.mp other
      obtain ⟨c, clear, wrong⟩ := @copy_lost L.address dst s user plain.outside notLate notTarget
      obtain ⟨d, run, copied⟩ := always c clear
      obtain ⟨e, run', mem, -⟩ := written c
      exact wrong d (run.unique run' ▸ mem) copied
    · intro apart c clear
      obtain ⟨d, run, mem, regs⟩ := written c
      exact ⟨d, run, copied_of_apart plain'.outside apart clear mem regs⟩

/-- `blast:fill reg1 = 65, 3` -/
theorem blast_iff_plain : ∃ (L : Listing) (M : Machine) (n : Nat) (d : Cpu), L.Loaded M ∧
    M.Completes (L.offset 0) (L.offset n) ((Cpu.filled 5).set .rsp 0x8000000000000000) d ∧
    BlastFilled L.address .rax (.imm 65) (.imm 3) ((Cpu.filled 5).set .rsp 0x8000000000000000) d := by
  obtain ⟨L, M, loaded, -, stands⟩ := exists_stands (.new false) (.blastFill "reg1" (.number 65) (.number 3)) .silent
    (fillPair (.leaf (.imm 3))).1 ⟨_, rfl, by decide⟩ (by decide)
  let c := (Cpu.filled 5).set .rsp 0x8000000000000000
  have clear : TargetClear L.address .rax (.imm 3) c := by
    refine Set.disjoint_left.mpr fun x near inside => ?_
    have length : ((Operand.imm 3).value L.address c).toNat = 3 := rfl
    have sp : c.reg .rsp = 0x8000000000000000 := rfl
    have target : c.reg .rax = 5 := rfl
    simp only [range, Set.mem_ofPred_eq, sp, target, length] at near inside
    bv_omega
  obtain ⟨d, run, filled⟩ := ((blast_iff loaded (show resolve "reg1" = .ok .rax by decide) (.number 65) (.number 3)).1
    stands).mpr (by simp) c clear
  rw [Nat.zero_add] at run
  exact ⟨L, M, _, d, loaded, run, filled⟩

/-- `blast:fill reg1 = 65, reg10`: R12 holds the byte when the length is read from it, so that 65 bytes are written and not
one. -/
theorem blast_wrong : ¬∀ (L : Listing) (M : Machine) (g : CodeGenerator) (name : String) (dst : Reg) (source length : Expr)
    (s l : Operand) (i : Nat) (calls : List Call) (c d : Cpu), L.Loaded M → resolve name = .ok dst → Plain g [] source s →
      Plain g [] length l → Stands L g (.blastFill name source length) i calls → TargetClear L.address dst l c →
      M.Completes (L.offset i) (L.offset (i + calls.length)) c d → BlastFilled L.address dst s l c d := by
  intro always
  have plain : Plain (.new false) [] (.number 65) (.imm 65) := .number 65
  have plain' : Plain (.new false) [] (.reg "reg10") (.reg .r12) := .reg (by decide) (by decide)
  obtain ⟨L, M, loaded, -, stands⟩ := exists_stands (.new false) (.blastFill "reg1" (.number 65) (.reg "reg10")) .silent
    (fillPair (.leaf (.reg .r12))).1 ⟨_, rfl, by decide⟩ (by decide)
  obtain ⟨c, entry⟩ : ∃ c, blastEntry .r12 (fun _ => 0) 1 1 0x8000000000000000 = c := ⟨_, rfl⟩
  have target : c.reg .rax = 1 := by rw [← entry]; rfl
  have one : c.reg .r12 = 1 := by rw [← entry]; rfl
  have named : resolve "reg1" = .ok .rax := by decide
  obtain ⟨top, done, appends⟩ := blastFill_appends named plain.tree plain'.tree
  obtain ⟨d, run, mem, -⟩ := stands.executes loaded appends
    (@blasted_meets L .rax (.imm 65) (.reg .r12) fillBody _ fillBody_steps (by decide) trivial plain'.outside top done c)
  have filled := always L M _ _ .rax _ _ (.imm 65) (.reg .r12) _ _ c d loaded named plain plain' stands
    (entry_clear entry target one) run
  have sp : c.reg .rsp = 0x8000000000000000 := by rw [← entry]; rfl
  have byte := filled.bytes 2 (by rw [sp]; decide)
  have length : (Operand.reg .r12).value L.address c = 1 := one
  have before : c.mem 2 = 0 := by rw [← entry]; rfl
  rw [length, target, before] at byte
  have written : d.mem 2 = 65 := by
    rw [mem, blasted, target]
    exact Strip.fill_byte 65 ⟨_, 1, 65⟩ (show ((2 : Word) - 1).toNat < 65 by decide)
  rw [written, if_neg (by decide)] at byte
  exact absurd byte (by decide)

end Blasts

end Aclm.Codegen
