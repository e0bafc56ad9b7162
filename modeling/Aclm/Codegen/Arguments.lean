import Aclm.Codegen.Evaluation

/-! Arguments go through the stack: every operand is pushed before any argument register is written. -/

set_option autoImplicit false

namespace Aclm

open X64 (Word Reg Cpu Env Machine Memory)
open X64.Memory (SameAbove WordAbove StackAt)
open Encoder

/-- An operand that is no arithmetic. -/
def Expr.IsLeaf : Expr → Prop
  | .binExpr .. => False
  | _ => True

instance (node : Expr) : Decidable node.IsLeaf :=
  match node with
  | .binExpr .. => isFalse id
  | .number _ | .string _ | .reg _ | .ident _ | .structFieldRef .. => isTrue trivial

namespace Codegen

/-! ### The code -/

theorem evalCalls_leaf {g : CodeGenerator} {node : Expr} {o : Operand} (found : g.operand node = .ok o) (dst : Reg) :
    evalCalls g node dst = .ok (o.mov dst) := by
  cases node with
  | binExpr => cases found
  | _ => simp only [evalCalls, found, Except.map]

theorem operand_of_evalCalls {g : CodeGenerator} {node : Expr} (leaf : node.IsLeaf) {dst : Reg} {calls : List Call}
    (ok : evalCalls g node dst = .ok calls) : ∃ o, g.operand node = .ok o := by
  have operand {x : Except PyErr Operand} (ok : x.map (Operand.mov dst) = .ok calls) : ∃ o, x = .ok o := by
    cases x with
    | error e => cases ok
    | ok o => exact ⟨o, rfl⟩
  cases node with
  | binExpr => exact leaf.elim
  | _ => exact operand ok

/-- What the operands refer to, in order. -/
def Operands (g : CodeGenerator) (args : List Expr) (os : List Operand) : Prop :=
  List.Forall₂ (fun node o => g.operand node = .ok o) args os

theorem Operands.unique {g : CodeGenerator} {args : List Expr} {os ps : List Operand} (left : Operands g args os)
    (right : Operands g args ps) : os = ps := by
  induction left generalizing ps with
  | nil =>
    cases right
    rfl
  | cons found _ ih =>
    cases right with
    | cons other rest => rw [Except.ok.inj (found.symm.trans other), ih rest]

def pushCalls (via : Reg) (os : List Operand) : List Call := os.flatMap fun o => o.mov via ++ [.pushReg via]

theorem pushArgs_ok {via : Reg} {args : List Expr} (leaves : ∀ node ∈ args, node.IsLeaf) {g g' : CodeGenerator}
    (emission : pushArgs via args g = .ok () g') :
    ∃ os, Operands g args os ∧ g' = g.withScript (g.script ++ pushCalls via os) := by
  induction args generalizing g with
  | nil =>
    obtain ⟨_, rfl⟩ := pure_ok.mp emission
    exact ⟨[], .nil, by simp [pushCalls]⟩
  | cons node rest ih =>
    obtain ⟨_, g₁, first, emission⟩ := bind_ok.mp emission
    obtain ⟨_, g₂, pushed, emission⟩ := bind_ok.mp emission
    obtain ⟨calls, appended, rfl⟩ := eval_ok.mp first
    obtain rfl := asm_ok.mp pushed
    obtain ⟨o, found⟩ := operand_of_evalCalls (leaves node List.mem_cons_self) appended
    rw [evalCalls_leaf found] at appended
    cases appended
    obtain ⟨os, operands, rfl⟩ := ih (fun node member => leaves node (List.mem_cons_of_mem _ member)) emission
    refine ⟨o :: os, .cons found ?_, by simp [pushCalls]⟩
    simpa [Operands] using operands

/-! ### Its execution -/

section Execution

variable {env : Env} {place : String → Word} {via : Reg}

/-- A state in which words have been pushed and `via` has been used. -/
structure Pushed (via : Reg) (vs : List Word) (c₀ c : Cpu) : Prop where
  regs : ∀ r, r ≠ via → r ≠ .rsp → c.reg r = c₀.reg r
  sp : c.reg .rsp = c₀.reg .rsp - BitVec.ofNat 64 (8 * vs.length)
  stack : StackAt c.mem (c.reg .rsp) vs
  mem : SameAbove (c₀.reg .rsp) (8 * vs.length) c₀.mem c.mem

theorem Pushed.start (via : Reg) (c : Cpu) : Pushed via [] c c :=
  ⟨fun _ _ _ => rfl, by simp, trivial, .refl _ _ _⟩

/-- An operand has its first value still, unless it is a local among the words pushed so far. -/
theorem Pushed.value {vs : List Word} {c₀ c : Cpu} (pushed : Pushed via vs c₀ c) (hidden : ¬User via)
    (notFrame : via ≠ .rbp) {o : Operand} (readable : o.Readable (8 * vs.length) c₀) :
    o.value place c = o.value place c₀ := by
  cases o with
  | imm value => rfl
  | address label => rfl
  | reg r =>
    have notVia : r ≠ via := fun same => hidden (same ▸ readable)
    exact pushed.regs r notVia ((user_iff r).mp readable).1
  | slot off =>
    simp only [Operand.value]
    rw [pushed.regs .rbp (Ne.symm notFrame) (by decide)]
    exact pushed.mem.load readable

theorem Pushed.push {vs : List Word} {c₀ c : Cpu} (pushed : Pushed via vs c₀ c) (notSp : via ≠ .rsp) (v : Word)
    (fits : 8 * (vs.length + 1) ≤ 2 ^ 64) : Pushed via (v :: vs) c₀ ((c.set via v).push v) := by
  refine ⟨fun r notVia notTop => ?_, ?_, ?_, ?_⟩
  · simpa [notVia, notTop] using pushed.regs r notVia notTop
  · simp only [X64.Cpu.push_reg, if_true, X64.Cpu.set_reg, Ne.symm notSp, if_false, pushed.sp, List.length_cons]
    bv_omega
  · simp only [X64.Cpu.push_reg, if_true, X64.Cpu.push_mem, X64.Cpu.set_reg, Ne.symm notSp, if_false, X64.Cpu.set_mem]
    exact pushed.stack.push v fits
  · have below : SameAbove (c.reg .rsp) 8 c.mem (c.mem.store (c.reg .rsp - 8) 8 v) := .store_below v
    rw [pushed.sp] at below
    have lowered := below.lower (by omega : 8 * vs.length < 2 ^ 64)
    simp only [X64.Cpu.push_mem, X64.Cpu.set_reg, Ne.symm notSp, if_false, X64.Cpu.set_mem, pushed.sp,
      List.length_cons]
    exact (pushed.mem.mono (by omega)).trans (lowered.mono (by omega))

/-- The operands are pushed with the values they had before the first one was. -/
theorem pushCalls_effects (hidden : ¬User via) (notFrame : via ≠ .rbp) (notSp : via ≠ .rsp) {os : List Operand}
    {vs : List Word} {c₀ c : Cpu} (pushed : Pushed via vs c₀ c) (fits : 8 * (vs.length + os.length) ≤ 2 ^ 64)
    (readable : ∀ (i : Nat) (o : Operand), os[i]? = some o → o.Readable (8 * (vs.length + i)) c₀) :
    ∃ d, effects env place (pushCalls via os) c = some d ∧
      Pushed via ((os.map (·.value place c₀)).reverse ++ vs) c₀ d := by
  induction os generalizing vs c with
  | nil => exact ⟨c, rfl, pushed⟩
  | cons o os ih =>
    simp only [List.length_cons] at fits
    have value : o.value place c = o.value place c₀ := pushed.value hidden notFrame (readable 0 o rfl)
    have next := pushed.push notSp (o.value place c₀) (by omega)
    have later (i : Nat) (o' : Operand) (found : os[i]? = some o') : o'.Readable (8 * ((o.value place c₀ :: vs).length + i)) c₀ := by
      have := readable (i + 1) o' found
      rwa [List.length_cons, Nat.add_assoc, Nat.add_comm 1 i]
    obtain ⟨d, ran, done⟩ := ih next (by simp only [List.length_cons]; omega) later
    refine ⟨d, ?_, by simpa using done⟩
    simp only [pushCalls, List.flatMap_cons, effects_append, mov_effects, Option.bind_some, effects_cons, effects_nil,
      effect_pushReg, X64.Cpu.set_reg, if_true, value]
    exact ran

/-- The operands stand in the registers, in order, the stack is as it was, and `via` is the only other register
that has changed. -/
structure Placed (place : String → Word) (via : Reg) (regs : List Reg) (os : List Operand) (c d : Cpu) : Prop where
  args : ∀ p ∈ regs.zip os, d.reg p.1 = p.2.value place c
  others : ∀ r, r ∉ regs → r ≠ via → d.reg r = c.reg r
  mem : SameAbove (c.reg .rsp) (8 * os.length) c.mem d.mem

theorem placed_effects (hidden : ¬User via) (notFrame : via ≠ .rbp) (notSp : via ≠ .rsp) {regs : List Reg}
    (distinct : regs.Nodup) (registers : .rsp ∉ regs) {os : List Operand} (count : os.length ≤ regs.length) {c : Cpu}
    (fits : 8 * os.length ≤ 2 ^ 64) (readable : ∀ (i : Nat) (o : Operand), os[i]? = some o → o.Readable (8 * i) c) :
    ∃ d, effects env place (pushCalls via os ++ popArgs os.length regs) c = some d ∧ Placed place via regs os c d := by
  obtain ⟨m, pushed, words⟩ := @pushCalls_effects env place via hidden notFrame notSp os [] c c (.start via c)
    (by simpa using fits) (by simpa using readable)
  have taken : (regs.take os.length).length = os.length := by simp [count]
  have top : StackAt m.mem (m.reg .rsp) ((os.map (·.value place c)).reverse ++ []) := by simpa using words.stack
  obtain ⟨d, popped, restored⟩ := @pops_effects env place (regs.take os.length).reverse _ [] m
    (by simpa using count) (List.nodup_reverse.mpr (distinct.sublist (List.take_sublist _ _)))
    (fun member => registers (List.mem_of_mem_take (List.mem_reverse.mp member))) top
  refine ⟨d, ?_, fun p member => ?_, fun r other notVia => ?_, ?_⟩
  · rw [effects_append, pushed, Option.bind_some, popArgs, popped]
  · -- The words come off the stack in the opposite order, and so do the registers.
    have position : (p.1, p.2.value place c) ∈ (regs.take os.length).zip (os.map (·.value place c)) := by
      have both : regs.zip os = (regs.take os.length).zip os := by
        rw [List.zip_eq_zip_take_min, Nat.min_eq_right count, List.take_length]
      rw [List.zip_map_right]
      exact List.mem_map.mpr ⟨p, both ▸ member, rfl⟩
    have reversed : (regs.take os.length).reverse.zip (os.map (·.value place c)).reverse =
        ((regs.take os.length).zip (os.map (·.value place c))).reverse :=
      (List.reverse_zipWith (by simpa using count)).symm
    exact restored.values _ (reversed ▸ List.mem_reverse.mpr position)
  · by_cases isSp : r = .rsp
    · subst isSp
      rw [restored.sp, words.sp]
      simp only [List.append_nil, List.length_reverse, List.length_map]
      bv_omega
    · rw [restored.others r (fun member => other (List.mem_of_mem_take (List.mem_reverse.mp member))) isSp]
      exact words.regs r notVia isSp
  · rw [restored.mem]
    simpa using words.mem

end Execution

/-! ### Calls and system calls -/

/-- Each local among the operands lies outside the words that are on the stack when it is read. -/
def Apart (c : Cpu) (os : List Operand) : Prop :=
  ∀ (i : Nat) (off : Int), os[i]? = some (.slot off) → WordAbove (c.reg .rsp) (8 * i) (c.reg .rbp + BitVec.ofInt 64 off)

theorem Operands.of_getElem? {g : CodeGenerator} {args : List Expr} {os : List Operand} (operands : Operands g args os)
    {i : Nat} {o : Operand} (found : os[i]? = some o) : ∃ node, g.operand node = .ok o := by
  induction operands generalizing i with
  | nil => simp at found
  | @cons node _ _ _ referred _ ih =>
    cases i with
    | zero =>
      cases found
      exact ⟨node, referred⟩
    | succ i => exact ih found

theorem Operands.readable {g : CodeGenerator} {names : List String} (bound : g.fnArgs = bindArgs names) {args : List Expr}
    {os : List Operand} (operands : Operands g args os) {c : Cpu} (apart : Apart c os) (i : Nat) (o : Operand)
    (found : os[i]? = some o) : o.Readable (8 * i) c := by
  cases o with
  | reg r =>
    obtain ⟨node, referred⟩ := operands.of_getElem? found
    exact operand_user bound referred
  | slot off => exact apart i off found
  | _ => trivial

/-- A kernel that leaves all registers but RAX, RCX and R11 and the two words on top of the stack. -/
structure Keeps (c k : Cpu) : Prop where
  regs : ∀ r, r ≠ .rax → r ≠ .rcx → r ≠ .r11 → k.reg r = c.reg r
  stack : ∀ x : Word, (x - c.reg .rsp).toNat < 16 → k.mem x = c.mem x

theorem Keeps.top {c k : Cpu} (keeps : Keeps c k) {v w : Word} (stack : StackAt c.mem (c.reg .rsp) [v, w]) :
    StackAt k.mem (k.reg .rsp) [v, w] := by
  obtain ⟨first, second, -⟩ := stack
  rw [keeps.regs .rsp (by decide) (by decide) (by decide)]
  refine ⟨(X64.Memory.load_congr fun i small => keeps.stack _ ?_).trans first,
    (X64.Memory.load_congr fun i small => keeps.stack _ ?_).trans second, trivial⟩
  · bv_omega
  · bv_omega

theorem emitCall_ok {label : String} {args : List Expr} (leaves : ∀ node ∈ args, node.IsLeaf) (count : args.length ≤ 6)
    {g g' : CodeGenerator} (emission : emitCall label args g = .ok () g') :
    ∃ os, Operands g args os ∧
      g' = g.withScript (g.script ++ (pushCalls .r11 os ++ popArgs os.length CALL_ARGS ++ [.call (lbl label)])) := by
  simp only [emitCall, List.take_of_length_le count] at emission
  obtain ⟨_, g₁, pushed, rest⟩ := bind_ok.mp emission
  obtain ⟨os, operands, rfl⟩ := pushArgs_ok leaves pushed
  rw [asm_bind_ok, asm_ok] at rest
  exact ⟨os, operands, by simp [rest, operands.length_eq]⟩

/-- The code of a system call, before it and after it. -/
def syscallBefore (os : List Operand) (num : Int) : List Call :=
  pushCalls SCRATCH os ++ popArgs os.length SYSCALL_ARGS ++ [.movRegImm64 .rax num, .pushReg .rcx, .pushReg .r11]

def syscallAfter : List Call := [.popReg .r11, .popReg .rcx]

theorem emitSyscall_ok {num : SysNum} {args : List Expr} (leaves : ∀ node ∈ args, node.IsLeaf)
    (count : args.length ≤ 6) {g g' : CodeGenerator} (emission : emitSyscall num args g = .ok () g') :
    ∃ os n, Operands g args os ∧
      g' = g.withScript (g.script ++ (syscallBefore os n ++ [.syscall] ++ syscallAfter)) := by
  simp only [emitSyscall, List.take_of_length_le count, get_bind_ok] at emission
  split at emission
  · exact absurd emission throw_bind_ok
  · rw [ofExcept_bind_ok] at emission
    obtain ⟨n, -, body⟩ := emission
    obtain ⟨_, g₁, pushed, rest⟩ := bind_ok.mp body
    obtain ⟨os, operands, rfl⟩ := pushArgs_ok leaves pushed
    rw [asm_bind_ok, asm_ok] at rest
    exact ⟨os, n, operands, by simp [rest, operands.length_eq, syscallBefore, syscallAfter]⟩

section Execution

variable {env : Env} {place : String → Word}

theorem syscallBefore_effects {os : List Operand} {num : Int} (count : os.length ≤ 6) {c : Cpu}
    (readable : ∀ (i : Nat) (o : Operand), os[i]? = some o → o.Readable (8 * i) c) :
    ∃ d, effects env place (syscallBefore os num) c = some d ∧
      (∀ p ∈ SYSCALL_ARGS.zip os, d.reg p.1 = p.2.value place c) ∧ d.reg .rsp = c.reg .rsp - 16 ∧
      (∀ r ∈ [Reg.rbx, .rcx, .r11, .r12, .r13, .r14, .rbp], d.reg r = c.reg r) ∧
      StackAt d.mem (d.reg .rsp) [c.reg .r11, c.reg .rcx] := by
  obtain ⟨m, ran, placed⟩ := @placed_effects env place SCRATCH (by decide) (by decide) (by decide) SYSCALL_ARGS
    (by decide) (by decide) os count c (by omega) readable
  have sp : m.reg .rsp = c.reg .rsp := placed.others .rsp (by decide) (by decide)
  have rcx : m.reg .rcx = c.reg .rcx := placed.others .rcx (by decide) (by decide)
  have r11 : m.reg .r11 = c.reg .r11 := placed.others .r11 (by decide) (by decide)
  have top : StackAt (m.mem.store (m.reg .rsp - 8) 8 (m.reg .rcx)) (m.reg .rsp - 8) [m.reg .rcx] :=
    @StackAt.push _ _ [] trivial _ (by decide)
  have both := top.push (m.reg .r11) (by simp)
  refine ⟨((m.set .rax (BitVec.ofInt 64 num)).push (m.reg .rcx)).push (m.reg .r11), ?_, fun p member => ?_, ?_,
    fun r member => ?_, ?_⟩
  · rw [syscallBefore, effects_append, ran]
    simp
  · have register : p.1 ∈ SYSCALL_ARGS := (List.of_mem_zip member).1
    have notSp : p.1 ≠ .rsp := fun same => absurd (same ▸ register) (by decide)
    have notRax : p.1 ≠ .rax := fun same => absurd (same ▸ register) (by decide)
    simpa [notSp, notRax] using placed.args p member
  · simp only [X64.Cpu.push_reg, if_true, X64.Cpu.set_reg, reduceCtorEq, if_false, sp]
    bv_omega
  · have saved : r ∉ SYSCALL_ARGS ∧ r ≠ SCRATCH ∧ r ≠ .rsp ∧ r ≠ .rax := by
      have all : ∀ r ∈ [Reg.rbx, .rcx, .r11, .r12, .r13, .r14, .rbp],
        r ∉ SYSCALL_ARGS ∧ r ≠ SCRATCH ∧ r ≠ .rsp ∧ r ≠ .rax := by decide
      exact all r member
    obtain ⟨notArg, notVia, notSp, notRax⟩ := saved
    simpa [notSp, notRax] using placed.others r notArg notVia
  · rw [← rcx, ← r11]
    simpa using both

theorem syscallAfter_effects {c₀ c k : Cpu} (keeps : Keeps c k)
    (stack : StackAt c.mem (c.reg .rsp) [c₀.reg .r11, c₀.reg .rcx]) (sp : c.reg .rsp = c₀.reg .rsp - 16)
    (saved : ∀ r ∈ [Reg.rbx, .rcx, .r11, .r12, .r13, .r14, .rbp], c.reg r = c₀.reg r) :
    ∃ d, effects env place syscallAfter k = some d ∧
      ∀ r ∈ [Reg.rbx, .rcx, .r11, .r12, .r13, .r14, .rbp, .rsp], d.reg r = c₀.reg r := by
  obtain ⟨d, ran, restored⟩ := @pops_effects env place [.r11, .rcx] _ [] k rfl (by decide)
    (by decide) (by simpa using keeps.top stack)
  have kept : ∀ r ∈ [Reg.rbx, .r12, .r13, .r14, .rbp], d.reg r = c₀.reg r := by
    intro r member
    have apart : ∀ r ∈ [Reg.rbx, .r12, .r13, .r14, .rbp],
        r ∉ [Reg.r11, .rcx] ∧ r ≠ .rsp ∧ r ≠ .rax ∧ r ≠ .rcx ∧ r ≠ .r11 ∧
          r ∈ [Reg.rbx, .rcx, .r11, .r12, .r13, .r14, .rbp] := by decide
    obtain ⟨notPopped, notSp, notRax, notRcx, notR11, inside⟩ := apart r member
    rw [restored.others r notPopped notSp, keeps.regs r notRax notRcx notR11, saved r inside]
  have top : d.reg .rsp = c₀.reg .rsp := by
    rw [restored.sp, keeps.regs .rsp (by decide) (by decide) (by decide), sp]
    simp only [List.length_cons, List.length_nil]
    bv_omega
  have popped := restored.values
  refine ⟨d, ran, fun r member => ?_⟩
  simp only [List.zip_cons_cons, List.zip_nil_left, List.mem_cons, List.not_mem_nil, or_false, forall_eq_or_imp,
    forall_eq] at popped kept member
  rcases member with rfl | rfl | rfl | rfl | rfl | rfl | rfl | rfl
  · exact kept.1
  · exact popped.2
  · exact popped.1
  · exact kept.2.1
  · exact kept.2.2.1
  · exact kept.2.2.2.1
  · exact kept.2.2.2.2
  · exact top

end Execution

/-- At the call and at the system call every argument register has the value that its operand had at the start, and
a system call gives the registers and the stack back. -/
theorem arguments_placed {g : CodeGenerator} {names : List String} (bound : g.fnArgs = bindArgs names) {args : List Expr}
    (leaves : ∀ node ∈ args, node.IsLeaf) (count : args.length ≤ 6) :
    (∀ label g', emitCall label args g = .ok () g' →
      ∃ os before, Operands g args os ∧ g' = g.withScript (g.script ++ (before ++ [.call (lbl label)])) ∧
        ∀ (L : Listing) (M : Machine), L.Loaded M → ∀ i, L.At i (before ++ [.call (lbl label)]) →
          ∀ c, Apart c os → ∃ d, M.Steps ⟨L.offset i, c⟩ ⟨L.offset (i + before.length), d⟩ ∧
            (∀ p ∈ CALL_ARGS.zip os, d.reg p.1 = p.2.value L.address c) ∧ d.reg .rsp = c.reg .rsp) ∧
    (∀ num g', emitSyscall num args g = .ok () g' →
      ∃ os before after, Operands g args os ∧ g' = g.withScript (g.script ++ (before ++ [.syscall] ++ after)) ∧
        ∀ (L : Listing) (M : Machine), L.Loaded M → ∀ i, L.At i (before ++ [.syscall] ++ after) →
          ∀ c, Apart c os → ∃ d, M.Steps ⟨L.offset i, c⟩ ⟨L.offset (i + before.length), d⟩ ∧
            (∀ p ∈ SYSCALL_ARGS.zip os, d.reg p.1 = p.2.value L.address c) ∧ d.reg .rsp = c.reg .rsp - 16 ∧
            ∀ k, L.env.kernel d = some k → Keeps d k →
              ∃ e, M.Steps ⟨L.offset (i + before.length), d⟩ ⟨L.offset (i + (before ++ [.syscall] ++ after).length), e⟩ ∧
                ∀ r ∈ [Reg.rbx, .rcx, .r11, .r12, .r13, .r14, .rbp, .rsp], e.reg r = c.reg r) := by
  constructor
  · intro label g' emission
    obtain ⟨os, operands, rfl⟩ := emitCall_ok leaves count emission
    refine ⟨os, _, operands, rfl, fun L M loaded i here c apart => ?_⟩
    obtain ⟨d, ran, placed⟩ := @placed_effects L.env L.address .r11 (by decide) (by decide) (by decide) CALL_ARGS
      (by decide) (by decide) os (operands.length_eq ▸ count) c (by have := operands.length_eq; omega) (operands.readable bound apart)
    exact ⟨d, loaded.steps (Listing.steps_of_effects (here.append _).1 ran), placed.args,
      placed.others .rsp (by decide) (by decide)⟩
  · intro num g' emission
    obtain ⟨os, n, operands, rfl⟩ := emitSyscall_ok leaves count emission
    refine ⟨os, _, _, operands, rfl, fun L M loaded i here c apart => ?_⟩
    obtain ⟨d, ran, placed, sp, saved, stack⟩ := @syscallBefore_effects L.env L.address os n
      (operands.length_eq ▸ count) c (operands.readable bound apart)
    rw [List.append_assoc] at here ⊢
    obtain ⟨first, rest⟩ := here.append _
    refine ⟨d, loaded.steps (Listing.steps_of_effects first ran), placed, sp, fun k entered keeps => ?_⟩
    -- The kernel keeps the stack, so the two saved registers are popped again.
    obtain ⟨e, restored, same⟩ := @syscallAfter_effects L.env L.address c d
      { k with trace := .syscall (d.reg .rax) d.syscallArgs :: d.trace } ⟨keeps.regs, keeps.stack⟩ stack sp saved
    have whole : effects L.env L.address ([.syscall] ++ syscallAfter) d = some e := by
      rw [List.singleton_append, effects_cons, effect_syscall, X64.Instr.exec, entered, Option.map_some,
        Option.bind_some, restored]
    have run := loaded.steps (Listing.steps_of_effects rest whole)
    rw [Nat.add_assoc, ← List.length_append] at run
    exact ⟨e, run, same⟩

/-- `call f 1 reg1`, with a function behind it and seven in every register. -/
theorem arguments_placed_two :
    ∃ (L : Listing) (M : Machine) (n : Nat) (d : Cpu), L.Loaded M ∧ L.At n [.call (lbl "f")] ∧
      M.Steps ⟨0, Cpu.filled 7⟩ ⟨L.offset n, d⟩ ∧ d.reg .rdi = 1 ∧ d.reg .rsi = 7 := by
  let args : List Expr := [.number 1, .reg "reg1"]
  obtain ⟨called, -⟩ := @arguments_placed (.new false) [] rfl args (by decide) (by decide)
  obtain ⟨os, before, operands, script, runs⟩ := called "f" _ rfl
  obtain rfl : os = [.imm 1, .reg .rax] := operands.unique (.cons rfl (.cons rfl .nil))
  have code : (pushCalls .r11 [.imm 1, .reg .rax] ++ popArgs 2 CALL_ARGS) ++ [.call (lbl "f")] =
      before ++ [.call (lbl "f")] := congrArg CodeGenerator.script script
  obtain rfl := List.append_cancel_right code
  obtain ⟨L, M, loaded, calls, -, -⟩ := Listing.exists_loaded
    ((pushCalls .r11 [.imm 1, .reg .rax] ++ popArgs 2 CALL_ARGS) ++ [.call (lbl "f")] ++ [.label (lbl "f"), .ret]) []
    .silent (by decide)
  have here : L.At 0 ((pushCalls .r11 [.imm 1, .reg .rax] ++ popArgs 2 CALL_ARGS) ++ [.call (lbl "f")]) := by
    refine ⟨[.label (lbl "f"), .ret], ?_⟩
    rw [calls, List.drop_zero]
  obtain ⟨d, steps, placed, -⟩ := runs L M loaded 0 here (Cpu.filled 7) (fun i off found => by
    match i with
    | 0 | 1 => cases found
    | i + 2 => cases found)
  refine ⟨L, M, _, d, loaded, (here.append _).2, steps, placed (.rdi, .imm 1) (by decide), placed (.rsi, .reg .rax) (by decide)⟩

/-- A local in the word that the first argument is pushed to is read too late. -/
theorem arguments_misplaced : ¬∀ (g g' : CodeGenerator) (names : List String) (label : String) (args : List Expr)
    (os : List Operand) (before : List Call), g.fnArgs = bindArgs names → (∀ node ∈ args, node.IsLeaf) →
    args.length ≤ 6 → emitCall label args g = .ok () g' → Operands g args os →
    g' = g.withScript (g.script ++ (before ++ [.call (lbl label)])) →
    ∀ env place (c d : Cpu), effects env place before c = some d →
      ∀ p ∈ CALL_ARGS.zip os, d.reg p.1 = p.2.value place c := by
  intro placed
  let g : CodeGenerator := { CodeGenerator.new false with fnLocals := [("x", -40)] }
  let os : List Operand := [.imm 1, .slot (-40)]
  let c : Cpu := (Cpu.filled 0).set .rbp 32
  have wrong := placed g _ [] "f" [.number 1, .ident "x"] os (pushCalls .r11 os ++ popArgs os.length CALL_ARGS) rfl
    (by decide) (by decide) rfl (.cons rfl (.cons rfl .nil)) rfl .silent (fun _ => 0) c _ rfl (.rsi, .slot (-40))
    (by decide)
  revert wrong
  decide

end Codegen

end Aclm
