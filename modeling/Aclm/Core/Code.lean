import Aclm.Core.Source
import Aclm.Codegen.Tree
import Aclm.Codegen.Labels

/-! The code of a core statement, and what executing it does to a processor that agrees with a state of
the source. -/

set_option autoImplicit false

namespace Aclm.Core

open X64 (Word Flags Reg Cond Cpu Env)
open X64.Memory (SameAbove StackAt)
open Encoder
open Codegen

/-! ### Operands -/

/-- What an operand of the core language resolves to. -/
inductive Leaf : Expr → Operand → Prop where
  | number (n : Int) : Leaf (.number n) (.imm n)
  | reg {name : String} {r : Reg} (accepted : resolve name = .ok r) : Leaf (.reg name) (.reg r)

theorem CoreOperand.leaf {node : Expr} (core : CoreOperand node) : ∃ o, Leaf node o := by
  cases node with
  | number n => exact ⟨_, .number n⟩
  | reg name =>
    obtain ⟨r, accepted⟩ := core
    exact ⟨_, .reg accepted⟩
  | _ => exact core.elim

theorem Leaf.evalCalls {node : Expr} {o : Operand} (leaf : Leaf node o) (g : CodeGenerator) (dst : Reg) :
    evalCalls g node dst = .ok (o.mov dst) := by
  cases leaf with
  | number n => rfl
  | reg accepted => simp [Codegen.evalCalls, CodeGenerator.operand, accepted, Except.map]

theorem resolveUser_eq {name : String} {r : Reg} (accepted : resolve name = .ok r) :
    resolveUser name = some ⟨r, user_of_resolve accepted⟩ := by
  unfold resolveUser
  split
  · next found => rw [found] at accepted; cases accepted; rfl
  · next failed => rw [failed] at accepted; cases accepted

/-! ### Code -/

/-- The code of an operation of the core language. -/
inductive Code : Op → List Call → Prop where
  | label (name : String) : Code (.label name) [.label (lbl name)]
  | goto (label : String) : Code (.goto label) [.jmp (lbl label)]
  | jumpIf {cond : String} (label : String) (known : cond ∈ RELATIONS.keys) :
      Code (.jumpIf cond label) [.jcc cond (lbl label)]
  | cmp {left right : Expr} {l r : Operand} (hl : Leaf left l) (hr : Leaf right r) :
      Code (.cmp left right) ([.pushReg .r11] ++ l.mov .r15 ++ [.movRegReg .r11 .r15, .pushReg .r11] ++
        r.mov .r15 ++ [.popReg .r11, cmpRegReg .r11 .r15, .popReg .r11])
  | set {dest : String} {value : Expr} {dst : Reg} {o : Operand} (hd : resolve dest = .ok dst) (hv : Leaf value o) :
      Code (.cpuBin .set dest value) (o.mov dst)
  | plain {op : CpuBinOp} {dest : String} {value : Expr} {dst : Reg} {o : Operand} {call : Call}
      (hd : resolve dest = .ok dst) (hv : Leaf value o) (hop : plainOp dst .r15 op = some call) :
      Code (.cpuBin op dest value) (o.mov .r15 ++ [call])
  | unary {dest : String} {dst : Reg} (op : CpuUnaryOp) (hd : resolve dest = .ok dst) :
      Code (.cpuUnary op dest) [unaryCall dst op]
  | push {value : Expr} {o : Operand} (hv : Leaf value o) : Code (.stackPush value) (o.mov .r11 ++ [.pushReg .r11])
  | pop {dest : String} {dst : Reg} (hd : resolve dest = .ok dst) : Code (.stackPop dest) [.popReg dst]

theorem CoreOp.code {op : Op} (core : CoreOp op) : ∃ calls, Code op calls := by
  cases op with
  | label name => exact ⟨_, .label name⟩
  | goto label => exact ⟨_, .goto label⟩
  | jumpIf cond label => exact ⟨_, .jumpIf label core⟩
  | cmp left right =>
    obtain ⟨l, hl⟩ := core.1.leaf
    obtain ⟨r, hr⟩ := core.2.leaf
    exact ⟨_, .cmp hl hr⟩
  | cpuBin op dest value =>
    obtain ⟨binary, ⟨dst, hd⟩, operand⟩ := core
    obtain ⟨o, hv⟩ := operand.leaf
    cases op with
    | set => exact ⟨_, .set hd hv⟩
    | add | sub | and | or | xor | mul => exact ⟨_, .plain hd hv rfl⟩
    | _ => exact binary.elim
  | cpuUnary op dest =>
    obtain ⟨dst, hd⟩ := core
    exact ⟨_, .unary op hd⟩
  | stackPush value =>
    obtain ⟨o, hv⟩ := CoreOperand.leaf core
    exact ⟨_, .push hv⟩
  | stackPop dest =>
    obtain ⟨dst, hd⟩ := core
    exact ⟨_, .pop hd⟩
  | _ => exact core.elim

/-- At the top level the generator appends exactly this code. -/
theorem Code.emitOp {op : Op} {calls : List Call} (code : Code op calls) {g : CodeGenerator} (top : g.fnLocals = []) :
    emitOp op g = .ok () (g.withScript (g.script ++ calls)) := by
  have evaluate {node : Expr} {o : Operand} (leaf : Leaf node o) (g : CodeGenerator) (dst : Reg) :
      eval node dst g = .ok () (g.withScript (g.script ++ o.mov dst)) :=
    eval_ok.mpr ⟨_, leaf.evalCalls g dst, rfl⟩
  have resolved {name : String} {r : Reg} (accepted : resolve name = .ok r) (g : CodeGenerator) :
      reg name g = .ok r g :=
    reg_ok.mpr ⟨accepted, rfl⟩
  have noSlot (dest : String) : g.fnLocals.get? dest = none := by rw [top]; rfl
  cases code with
  | label name => rfl
  | goto label => rfl
  | jumpIf label known => rfl
  | cmp hl hr =>
    simp only [Codegen.emitOp, emitCmp, bind_ok, asm_ok, SCRATCH]
    exact ⟨(), _, rfl, (), _, evaluate hl _ _, (), _, rfl, (), _, evaluate hr _ _, by simp⟩
  | @set dest _ _ _ hd hv =>
    simp only [Codegen.emitOp, cpuBin, bind_ok, get_ok]
    refine ⟨g, g, ⟨rfl, rfl⟩, ?_⟩
    simp only [noSlot, bind_ok]
    exact ⟨_, _, resolved hd g, evaluate hv g _⟩
  | @plain op dest value dst o call hd hv hop =>
    simp only [Codegen.emitOp, cpuBin, bind_ok, get_ok]
    refine ⟨g, g, ⟨rfl, rfl⟩, ?_⟩
    have notSet : op ≠ .set := by rintro rfl; cases hop
    simp only [noSlot, bind_ok, notSet, if_false]
    refine ⟨_, _, resolved hd g, _, _, evaluate hv g _, ?_⟩
    simp [asm_ok, cpuBinCalls, SCRATCH, hop]
  | unary op hd =>
    simp only [Codegen.emitOp, cpuUnary, bind_ok, get_ok]
    refine ⟨g, g, ⟨rfl, rfl⟩, ?_⟩
    simp only [noSlot, bind_ok]
    exact ⟨_, _, resolved hd g, rfl⟩
  | push hv =>
    simp only [Codegen.emitOp, bind_ok]
    exact ⟨_, _, evaluate hv g _, by simp [asm_ok]⟩
  | pop hd =>
    simp only [Codegen.emitOp, Codegen.one, bind_ok]
    exact ⟨_, _, resolved hd g, rfl⟩

/-! ### Execution -/

/-- The processor agrees with a state of the source: on the registers a program can name, on the stack and
its pointer, and on the flags. -/
structure Agrees (s : State) (c : Cpu) : Prop where
  regs : ∀ r : UserReg, c.reg r.1 = s.regs r
  flags : c.flags = s.status.flags
  sp : c.reg .rsp = s.sp
  stack : StackAt c.mem s.sp s.stack.1

section Agreement

variable {env : Env} {place : String → Word} {s t : State} {c : Cpu}

theorem notUser : ∀ r ∈ [Reg.r11, .r15, .rsp, .rbp], ¬User r := by decide

/-- A register that a program cannot name, and not the stack pointer, may hold anything. -/
theorem Agrees.scratch (agrees : Agrees s c) {r : Reg} (hidden : r = .r11 ∨ r = .r15) (v : Word) :
    Agrees s (c.set r v) := by
  refine ⟨fun q => ?_, agrees.flags, ?_, agrees.stack⟩
  · have other : q.1 ≠ r := by
      rintro rfl
      rcases hidden with same | same <;> exact absurd q.2 (same ▸ by decide)
    simp [other, agrees.regs q]
  · rcases hidden with rfl | rfl <;> simp [agrees.sp]

variable (place) in
theorem Leaf.value {node : Expr} {o : Operand} (leaf : Leaf node o) (agrees : Agrees s c) :
    s.value node = some (o.value place c) := by
  cases leaf with
  | number n => rfl
  | reg accepted =>
    simp only [State.value, resolveUser_eq accepted, Option.map_some, Operand.value]
    rw [← agrees.regs]

/-- An assignment in the source is one to the same register. -/
theorem Agrees.assign (agrees : Agrees s c) {r : Reg} (user : User r) {v : Word} {f : Flags} {status : Status}
    (flags : f = status.flags) : Agrees (s.assign ⟨r, user⟩ v status) ((c.set r v).setFlags f) := by
  refine ⟨fun q => ?_, flags, ?_, agrees.stack⟩
  · by_cases same : q = ⟨r, user⟩
    · subst same
      simp [State.assign]
    · have other : q.1 ≠ r := fun same' => same (Subtype.ext same')
      simp [State.assign, same, other, agrees.regs q]
  · have notSp : r ≠ .rsp := by
      rintro rfl
      exact absurd user (by decide)
    simp [State.assign, Ne.symm notSp, agrees.sp]

/-- An operand is read alike wherever the registers a program can name are the same. -/
theorem Leaf.value_congr {node : Expr} {o : Operand} (leaf : Leaf node o) {c d : Cpu}
    (same : ∀ r, r ≠ .r11 → r ≠ .r15 → r ≠ .rsp → d.reg r = c.reg r) : o.value place d = o.value place c := by
  cases leaf with
  | number n => rfl
  | reg accepted =>
    obtain ⟨notSp, -, notR11, notR15⟩ := (user_iff _).mp (user_of_resolve accepted)
    exact same _ notR11 notR15 notSp

variable (env place) in
/-- The code of a comparison changes R15, the flags and two words below the stack pointer. -/
theorem cmp_effects {left right : Expr} {l r : Operand} (hl : Leaf left l) (hr : Leaf right r) (c : Cpu) :
    ∃ d, effects env place ([.pushReg .r11] ++ l.mov .r15 ++ [.movRegReg .r11 .r15, .pushReg .r11] ++
        r.mov .r15 ++ [.popReg .r11, cmpRegReg .r11 .r15, .popReg .r11]) c = some d ∧
      (∀ q, q ≠ .r15 → d.reg q = c.reg q) ∧ d.flags = c.flags.sub (l.value place c) (r.value place c) false ∧
      SameAbove (c.reg .rsp) 16 c.mem d.mem := by
  -- Neither operand names a register that is written before it is read.
  have leftValue : l.value place (c.push (c.reg .r11)) = l.value place c :=
    hl.value_congr fun q _ _ notSp => by simp [notSp]
  generalize held : (c.push (c.reg .r11)).set .r15 (l.value place (c.push (c.reg .r11))) = c₁
  generalize kept : (c₁.set .r11 (c₁.reg .r15)).push ((c₁.set .r11 (c₁.reg .r15)).reg .r11) = c₂
  rw [leftValue] at held
  have rightValue : r.value place c₂ = r.value place c :=
    hr.value_congr fun q h₁ h₂ h₃ => by simp [← kept, ← held, h₁, h₂, h₃]
  have sp₂ : c₂.reg .rsp = c.reg .rsp - 8 - 8 := by simp [← kept, ← held]
  have flags₂ : c₂.flags = c.flags := by simp [← kept, ← held]
  have mem₂ : c₂.mem = (c.mem.store (c.reg .rsp - 8) 8 (c.reg .r11)).store (c.reg .rsp - 8 - 8) 8 (l.value place c) := by
    simp [← kept, ← held]
  have upper : c.reg .rsp - 8 - 8 + 8 = c.reg .rsp - 8 := by bv_omega
  have bottom : c.reg .rsp - 8 + 8 = c.reg .rsp := by bv_omega
  have first : c₂.mem.load (c.reg .rsp - 8 - 8) 8 = l.value place c := by rw [mem₂, X64.Memory.load_store_word]
  -- The first push is still there under the second one.
  have second : c₂.mem.load (c.reg .rsp - 8) 8 = c.reg .r11 := by
    have inside : X64.Memory.WordAbove (c.reg .rsp - 8) 8 (c.reg .rsp - 8) := by
      simp only [X64.Memory.WordAbove, BitVec.sub_self]
      decide
    rw [mem₂, (SameAbove.store_below _).load inside, X64.Memory.load_store_word]
  refine ⟨?_, ?_, ?_, ?_, ?_⟩
  rotate_left
  · simp only [effects_append, effects_cons, effects_nil, effect_pushReg, effect_movRegReg, mov_effects, leftValue,
      Option.bind_some, held, kept, effect_popReg, cmpRegReg, effect_binopRegReg, BinOp.instr, X64.Instr.exec,
      X64.Alu.apply]
    rfl
  · intro q other
    simp only [X64.Cpu.pop_snd, X64.Cpu.pop_fst, X64.Cpu.set_reg, X64.Cpu.set_mem, X64.Cpu.setFlags_reg,
      X64.Cpu.setFlags_mem, reduceCtorEq, if_false, if_true, sp₂, upper, bottom, second, other]
    by_cases isR11 : q = .r11
    · rw [if_pos isR11, isR11]
    · by_cases isSp : q = .rsp
      · rw [if_neg isR11, if_pos isSp, isSp]
      · simp [isR11, isSp, other, ← kept, ← held]
  · simp only [X64.Cpu.pop_snd, X64.Cpu.pop_fst, X64.Cpu.set_reg, X64.Cpu.set_mem, X64.Cpu.set_flags,
      X64.Cpu.setFlags_flags, reduceCtorEq, if_false, if_true, sp₂, first, flags₂, rightValue]
  · simp only [X64.Cpu.pop_snd, X64.Cpu.set_mem, X64.Cpu.setFlags_mem, mem₂]
    have lower := SameAbove.store_below (p := c.reg .rsp - 8) (m := c.mem.store (c.reg .rsp - 8) 8 (c.reg .r11))
      (l.value place c)
    exact ((SameAbove.store_below _).mono (by decide)).trans (lower.lower (k := 8) (by decide))

theorem Agrees.advance (agrees : Agrees s c) : Agrees s.advance c :=
  ⟨agrees.regs, agrees.flags, agrees.sp, agrees.stack⟩

/-- The one instruction of an operation on two registers. -/
theorem plain_effects {op : CpuBinOp} {dst : Reg} {call : Call} (hop : plainOp dst .r15 op = some call)
    (binary : Word × Flags) (means : Core.binary env.undefined op c.flags (c.reg dst) (c.reg .r15) = some binary) :
    effects env place [call] c = some ((c.set dst binary.1).setFlags binary.2) := by
  cases op with
  | add | sub | and | or | xor | mul =>
    cases hop
    cases means
    simp [addRegReg, subRegReg, andRegReg, orRegReg, xorRegReg, BinOp.instr, X64.Instr.exec, X64.Alu.apply]
  | _ => cases hop

theorem unary_effects (op : CpuUnaryOp) (dst : Reg) (c : Cpu) :
    effects env place [unaryCall dst op] c =
      some ((c.set dst (unary op c.flags (c.reg dst)).1).setFlags (unary op c.flags (c.reg dst)).2) := by
  cases op <;>
    simp [unaryCall, notReg, negReg, incReg, decReg, UnaryOp.instr, X64.Instr.exec, X64.Unary.apply, unary]

variable (place) in
/-- An operation that is no jump: the source goes on to the next statement, and its code runs to a processor
that agrees again. -/
theorem Code.straight {stmts : List Stmt} {op : Op} {calls : List Call} (code : Code op calls)
    (noJump : ∀ label, op ≠ .goto label ∧ ∀ cond, op ≠ .jumpIf cond label)
    (step : perform env.undefined stmts s op = some t) (agrees : Agrees s c) :
    t.next = s.next + 1 ∧ ∃ d, effects env place calls c = some d ∧ Agrees t d := by
  cases code with
  | label name =>
    cases step
    exact ⟨rfl, c, rfl, agrees.advance⟩
  | goto label => exact absurd rfl (noJump label).1
  | jumpIf label => exact absurd rfl ((noJump label).2 _)
  | @cmp left right l r hl hr =>
    simp only [perform, hl.value place agrees, hr.value place agrees, Option.bind_eq_bind,
      Option.bind_some, Option.some.injEq] at step
    subst step
    obtain ⟨d, run, regs, flags, mem⟩ := cmp_effects env place hl hr c
    refine ⟨rfl, d, run, fun q => ?_, ?_, ?_, ?_⟩
    · have notR15 : q.1 ≠ .r15 := ((user_iff _).mp q.2).2.2.2
      exact (regs q.1 notR15).trans (agrees.regs q)
    · rw [flags, agrees.flags]
      rfl
    · exact (regs .rsp (by decide)).trans agrees.sp
    · rw [agrees.sp] at mem
      exact mem.stackAt agrees.stack s.stack.2
  | @set dest value dst o hd hv =>
    simp only [perform, resolveUser_eq hd, hv.value place agrees, binary, Option.bind_eq_bind,
      Option.bind_some, Option.some.injEq, if_true] at step
    subst step
    refine ⟨rfl, _, mov_effects o dst c, ?_⟩
    exact agrees.assign (user_of_resolve hd) agrees.flags
  | @plain op dest value dst o call hd hv hop =>
    have notSet : op ≠ .set := by rintro rfl; cases hop
    have user := user_of_resolve hd
    simp only [perform, resolveUser_eq hd, hv.value place agrees, Option.bind_eq_bind, Option.bind_some,
      notSet, if_false] at step
    obtain ⟨⟨v, f⟩, means, step⟩ := Option.bind_eq_some_iff.mp step
    cases step
    -- The operand waits in R15, which no program can name.
    have waiting := agrees.scratch (.inr rfl) (o.value place c)
    generalize held : c.set .r15 (o.value place c) = m at waiting
    have operand : m.reg .r15 = o.value place c := by simp [← held]
    have machine : binary env.undefined op m.flags (m.reg dst) (m.reg .r15) = some (v, f) := by
      rw [waiting.flags, waiting.regs ⟨dst, user⟩, operand, means]
    refine ⟨rfl, (m.set dst v).setFlags f, ?_, waiting.assign user rfl⟩
    rw [effects_append, mov_effects, Option.bind_some, held]
    exact plain_effects hop (v, f) machine
  | @unary dest dst op hd =>
    have user := user_of_resolve hd
    simp only [perform, resolveUser_eq hd, Option.bind_eq_bind, Option.bind_some, Option.some.injEq] at step
    subst step
    refine ⟨rfl, _, unary_effects op dst c, ?_⟩
    rw [agrees.flags, agrees.regs ⟨dst, user⟩]
    refine agrees.assign user ?_
    split
    · next isNot => rw [isNot]; rfl
    · rfl
  | @push value o hv =>
    simp only [perform, hv.value place agrees, Option.bind_eq_bind, Option.bind_some] at step
    obtain ⟨stack, pushed, step⟩ := Option.bind_eq_some_iff.mp step
    cases step
    have waiting := agrees.scratch (.inl rfl) (o.value place c)
    generalize held : c.set .r11 (o.value place c) = m at waiting
    have operand : m.reg .r11 = o.value place c := by simp [← held]
    refine ⟨rfl, m.push (m.reg .r11), ?_, fun q => ?_, ?_, ?_, ?_⟩
    · simp only [effects_append, mov_effects, Option.bind_some, held, effects_cons, effect_pushReg, effects_nil]
    · have notSp : q.1 ≠ .rsp := ((user_iff _).mp q.2).1
      simpa [notSp, State.advance] using waiting.regs q
    · simpa [State.advance] using waiting.flags
    · simp [waiting.sp]
    · unfold Stack.push at pushed
      split at pushed
      · next room =>
        cases pushed
        rw [operand, X64.Cpu.push_mem, waiting.sp]
        exact waiting.stack.push _ (by simp only [List.length_cons] at room; omega)
      · cases pushed
  | @pop dest dst hd =>
    have user := user_of_resolve hd
    simp only [perform, resolveUser_eq hd, Option.bind_eq_bind, Option.bind_some] at step
    obtain ⟨⟨v, rest⟩, popped, step⟩ := Option.bind_eq_some_iff.mp step
    cases step
    have notSp : dst ≠ .rsp := ((user_iff _).mp user).1
    have stack := agrees.stack
    generalize s.stack = held at stack popped
    obtain ⟨words, room⟩ := held
    cases words with
    | nil => cases popped
    | cons top words =>
      cases popped
      obtain ⟨loaded, below⟩ := stack
      refine ⟨rfl, c.pop.2.set dst c.pop.1, by simp, fun q => ?_, agrees.flags, ?_, below⟩
      · by_cases same : q = ⟨dst, user⟩
        · subst same
          simp [State.assign, agrees.sp, loaded]
        · have other : q.1 ≠ dst := fun same' => same (Subtype.ext same')
          have notTop : q.1 ≠ .rsp := ((user_iff _).mp q.2).1
          simp [State.assign, same, other, notTop, agrees.regs q]
      · simp [Ne.symm notSp, agrees.sp]

end Agreement

end Aclm.Core
