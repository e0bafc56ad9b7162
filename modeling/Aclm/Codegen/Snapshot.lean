import Aclm.Codegen.Evaluation
import Aclm.X64.Assignment

/-! The operands of the Linux wrappers are evaluated one after the other into registers that later operands may
name: when that gives every argument the value its operand had at the start. -/

set_option autoImplicit false

namespace Aclm

open X64 (Word Reg Cpu Env Machine Source assign)
open Encoder

/-- A register, or the number that stands for an operand left out. -/
def Expr.IsRegister : Expr → Prop
  | .reg _ | .number _ => True
  | _ => False

instance (node : Expr) : Decidable node.IsRegister :=
  match node with
  | .reg _ | .number _ => isTrue trivial
  | .binExpr .. | .string _ | .ident _ | .structFieldRef .. => isFalse id

namespace Codegen

/-- The operands of a wrapper in the order of their evaluation, each with the register it is evaluated into and the
argument register it ends in. -/
def wrapperArgs : Op → Option (List (Expr × Reg × Reg))
  | .netSocket _ domain type protocol => some [(domain, .rdi, .rdi), (type, .rsi, .rsi), (protocol, .rdx, .rdx)]
  | .netConnect sock addr addrlen => some [(sock, .rdi, .rdi), (addr, .rsi, .rsi), (addrlen, .rdx, .rdx)]
  | .netSend sock buf length => some [(sock, .rdi, .rdi), (buf, .rsi, .rsi), (length, .rdx, .rdx)]
  | .netRecv sock buf length => some [(sock, .rdi, .rdi), (buf, .rsi, .rsi), (length, .rdx, .rdx)]
  | .netPoll fds nfds timeout => some [(fds, .r12, .rdi), (nfds, .r13, .rsi), (timeout, .r14, .rdx)]
  | .netEpollCtl epfd op fd eventPtr =>
    some [(epfd, .r12, .rdi), (op, .r13, .rsi), (fd, .r14, .rdx), (eventPtr, .rbx, .r10)]
  | .netEpollWait _ epfd events maxevents timeout =>
    some [(epfd, .r12, .rdi), (events, .r13, .rsi), (maxevents, .r14, .rdx), (timeout, .rbx, .r10)]
  | .cellMap _ size prot flags =>
    some [(size, .r12, .rsi), (prot.getD (.number 3), .r13, .rdx), (flags.getD (.number 0x22), .r14, .r10)]
  | .cellMapFile _ size fd offset prot =>
    some [(size, .r12, .rsi), (fd, .r13, .r8), (offset.getD (.number 0), .r14, .r9),
      (prot.getD (.number 3), .rbx, .rdx)]
  | .cellProtect ptr size prot => some [(ptr, .r12, .rdi), (size, .r13, .rsi), (prot, .r14, .rdx)]
  | _ => none

/-- What an operand names. -/
inductive Resolves : Expr → Source Reg Word → Prop where
  | number (n : Int) : Resolves (.number n) (.const (BitVec.ofInt 64 n))
  | reg {name : String} {r : Reg} (ok : resolve name = .ok r) : Resolves (.reg name) (.loc r)

theorem Resolves.user {node : Expr} {r : Reg} (resolves : Resolves node (.loc r)) : User r := by
  cases resolves with
  | reg ok => exact user_of_resolve ok

theorem resolves_user {args : List (Expr × Reg × Reg)} {ss : List (Source Reg Word)}
    (resolves : List.Forall₂ (fun a s => Resolves a.1 s) args ss) {s : Source Reg Word} (member : s ∈ ss) {r : Reg}
    (named : s = .loc r) : r ≠ .rsp ∧ User r := by
  induction resolves with
  | nil => cases member
  | cons first _ ih =>
    rcases List.mem_cons.mp member with rfl | member
    · have user := (named ▸ first).user
      exact ⟨((user_iff r).mp user).1, user⟩
    · exact ih member

theorem Resolves.unique {node : Expr} {s t : Source Reg Word} (left : Resolves node s) (right : Resolves node t) :
    s = t := by
  cases left with
  | number n =>
    cases right
    rfl
  | reg ok =>
    cases right with
    | reg other => rw [Except.ok.inj (ok.symm.trans other)]

theorem resolves_unique {args : List (Expr × Reg × Reg)} {ss ts : List (Source Reg Word)}
    (left : List.Forall₂ (fun a s => Resolves a.1 s) args ss) (right : List.Forall₂ (fun a s => Resolves a.1 s) args ts) :
    ss = ts := by
  induction left generalizing ts with
  | nil =>
    cases right
    rfl
  | cons first _ ih =>
    cases right with
    | cons other rest => rw [first.unique other, ih rest]

/-- The code brings the source into the register and leaves all others. -/
def Brings (calls : List Call) (p : Reg × Source Reg Word) : Prop :=
  ∀ (env : Env) (place : String → Word) (c : Cpu), ∃ d, effects env place calls c = some d ∧
    d.reg = X64.setReg c.reg p.1 (p.2.value c.reg)

theorem brings_of_eval {g : CodeGenerator} {node : Expr} (register : node.IsRegister) {dst : Reg} {calls : List Call}
    (ok : evalCalls g node dst = .ok calls) : ∃ s, Resolves node s ∧ Brings calls (dst, s) := by
  cases node with
  | number n =>
    cases ok
    exact ⟨_, .number n, fun env place c => ⟨_, mov_effects (.imm n) dst c, rfl⟩⟩
  | reg name =>
    cases found : resolve name with
    | error e => simp [evalCalls, CodeGenerator.operand, found, Except.map] at ok
    | ok r =>
      simp only [evalCalls, CodeGenerator.operand, found, Except.map, Except.ok.injEq] at ok
      subst ok
      exact ⟨_, .reg found, fun env place c => ⟨_, mov_effects (.reg r) dst c, rfl⟩⟩
  | _ => exact register.elim

/-- What `evalOr` appends. -/
def evalOrCalls (g : CodeGenerator) (node : Option Expr) (dst : Reg) (default : List Call) : Except PyErr (List Call) :=
  match node with
  | some node => evalCalls g node dst
  | none => .ok default

theorem evalOr_bind_ok {g g' : CodeGenerator} {node : Option Expr} {dst : Reg} {default : List Call}
    {f : Unit → Gen Unit} :
    (evalOr node dst default >>= f) g = .ok () g' ↔
      ∃ calls, evalOrCalls g node dst default = .ok calls ∧ f () (g.withScript (g.script ++ calls)) = .ok () g' := by
  cases node with
  | some node => exact eval_bind_ok
  | none => simp [evalOr, evalOrCalls, asm_bind_ok]

theorem brings_of_evalOr {g : CodeGenerator} {node : Option Expr} {n : Int} (register : (node.getD (.number n)).IsRegister)
    {dst : Reg} {default calls : List Call} (brings : Brings default (dst, .const (BitVec.ofInt 64 n)))
    (ok : evalOrCalls g node dst default = .ok calls) : ∃ s, Resolves (node.getD (.number n)) s ∧ Brings calls (dst, s) := by
  cases node with
  | some node => exact brings_of_eval register ok
  | none =>
    cases ok
    exact ⟨_, .number n, brings⟩

theorem brings_imm (dst : Reg) (n : Int) : Brings [.movRegImm64 dst n] (dst, .const (BitVec.ofInt 64 n)) :=
  fun _ _ _ => ⟨_, rfl, rfl⟩

theorem brings_zero (dst : Reg) : Brings [xorRegReg dst dst] (dst, .const 0) := by
  intro env place c
  refine ⟨_, by simp [xorRegReg, BinOp.instr, X64.Instr.exec]; rfl, ?_⟩
  simp [X64.Alu.apply, Source.value]
  rfl

theorem brings_all {env : Env} {place : String → Word} {pieces : List (List Call)} {ps : List (Reg × Source Reg Word)}
    (each : List.Forall₂ Brings pieces ps) (c : Cpu) :
    ∃ d, effects env place pieces.flatten c = some d ∧ d.reg = assign c.reg ps := by
  induction each generalizing c with
  | nil => exact ⟨c, rfl, rfl⟩
  | cons first _ ih =>
    obtain ⟨m, head, regs⟩ := first env place c
    obtain ⟨d, tail, same⟩ := ih m
    refine ⟨d, ?_, ?_⟩
    · rw [List.flatten_cons, effects_append, head, Option.bind_some, tail]
    · rw [same, regs]
      rfl

theorem pushes_effects {env : Env} {place : String → Word} (rs : List Reg) (c : Cpu) :
    ∃ d, effects env place (pushes rs) c = some d ∧ ∀ r, r ≠ .rsp → d.reg r = c.reg r := by
  induction rs generalizing c with
  | nil => exact ⟨c, rfl, fun _ _ => rfl⟩
  | cons r rs ih =>
    obtain ⟨d, ran, same⟩ := ih (c.push (c.reg r))
    refine ⟨d, by simpa [pushes] using ran, fun s notSp => ?_⟩
    simpa [notSp] using same s notSp

theorem brings_mov (dst src : Reg) : Brings [.movRegReg dst src] (dst, .loc src) :=
  fun _ _ c => ⟨_, by simp; rfl, rfl⟩

/-- The code of a wrapper up to its system call: the operands go into the registers of evaluation, and what stands
there goes with some constants into the argument registers. -/
structure Wrapped (args : List (Expr × Reg × Reg)) (ss : List (Source Reg Word)) (pieces post : List (List Call)) : Prop where
  resolves : List.Forall₂ (fun a s => Resolves a.1 s) args ss
  brings : List.Forall₂ Brings pieces ((args.map (·.2.1)).zip ss)
  lands : ∃ qs, List.Forall₂ Brings post qs ∧
    ∀ f : Reg → Word, ∀ a ∈ args, assign f qs a.2.2 = f a.2.1

theorem wrapped {args : List (Expr × Reg × Reg)} {pieces post : List (List Call)} {qs : List (Reg × Source Reg Word)}
    {g g' : CodeGenerator} (saves : List Reg) (after : List Call)
    (each : List.Forall₂ (fun a calls => ∃ s, Resolves a.1 s ∧ Brings calls (a.2.1, s)) args pieces)
    (moves : List.Forall₂ Brings post qs) (lands : ∀ f : Reg → Word, ∀ a ∈ args, assign f qs a.2.2 = f a.2.1)
    (script : g' = g.withScript (g.script ++ (pushes saves ++ pieces.flatten ++ post.flatten ++ [.syscall] ++ after))) :
    ∃ ss saves pieces post after, Wrapped args ss pieces post ∧
      g' = g.withScript (g.script ++ (pushes saves ++ pieces.flatten ++ post.flatten ++ [.syscall] ++ after)) := by
  suffices both : ∃ ss, List.Forall₂ (fun a s => Resolves a.1 s) args ss ∧
      List.Forall₂ Brings pieces ((args.map (·.2.1)).zip ss) by
    obtain ⟨ss, resolves, brings⟩ := both
    exact ⟨ss, saves, pieces, post, after, ⟨resolves, brings, qs, moves, lands⟩, script⟩
  clear lands script
  induction each with
  | nil => exact ⟨[], .nil, .nil⟩
  | cons first _ ih =>
    obtain ⟨s, resolves, brings⟩ := first
    obtain ⟨ss, rest, more⟩ := ih
    exact ⟨s :: ss, .cons resolves rest, .cons brings more⟩

theorem wrapper_ok {op : Op} {args : List (Expr × Reg × Reg)} (wrapper : wrapperArgs op = some args)
    (registers : ∀ a ∈ args, a.1.IsRegister) {g g' : CodeGenerator} (emission : emitOp op g = .ok () g') :
    ∃ ss saves pieces post after, Wrapped args ss pieces post ∧
      g' = g.withScript (g.script ++ (pushes saves ++ pieces.flatten ++ post.flatten ++ [.syscall] ++ after)) := by
  -- One wrapper after the other: which registers it saves, how its arguments come to them and the number of the call.
  cases op with
  | netSocket dest domain type protocol =>
    cases wrapper
    simp only [List.forall_mem_cons, List.not_mem_nil, false_imp_iff, implies_true, and_true] at registers
    obtain ⟨r₁, r₂, r₃⟩ := registers
    simp only [emitOp, netSocket, result, reg_bind_ok, eval_bind_ok, evalCalls_withScript, asm_bind_ok, asm_ok,
      CodeGenerator.withScript_withScript, CodeGenerator.withScript_script, List.append_assoc] at emission
    obtain ⟨p₁, e₁, p₂, e₂, p₃, e₃, dst, -, rfl⟩ := emission
    exact wrapped [] (copyTo dst .rax)
      (.cons (brings_of_eval r₁ e₁) (.cons (brings_of_eval r₂ e₂) (.cons (brings_of_eval r₃ e₃) .nil)))
      (.cons (brings_imm .rax 41) .nil)
      (by simp [assign, Source.value]) (by simp [pushes])
  | netConnect sock addr addrlen =>
    cases wrapper
    simp only [List.forall_mem_cons, List.not_mem_nil, false_imp_iff, implies_true, and_true] at registers
    obtain ⟨r₁, r₂, r₃⟩ := registers
    simp only [emitOp, netConnect, eval_bind_ok, evalCalls_withScript, asm_ok,
      CodeGenerator.withScript_withScript, CodeGenerator.withScript_script, List.append_assoc] at emission
    obtain ⟨p₁, e₁, p₂, e₂, p₃, e₃, rfl⟩ := emission
    exact wrapped [] []
      (.cons (brings_of_eval r₁ e₁) (.cons (brings_of_eval r₂ e₂) (.cons (brings_of_eval r₃ e₃) .nil)))
      (.cons (brings_imm .rax 42) .nil)
      (by simp [assign, Source.value]) (by simp [pushes])
  | netSend sock buf length =>
    cases wrapper
    simp only [List.forall_mem_cons, List.not_mem_nil, false_imp_iff, implies_true, and_true] at registers
    obtain ⟨r₁, r₂, r₃⟩ := registers
    simp only [emitOp, netSend, eval_bind_ok, evalCalls_withScript, asm_ok,
      CodeGenerator.withScript_withScript, CodeGenerator.withScript_script, List.append_assoc] at emission
    obtain ⟨p₁, e₁, p₂, e₂, p₃, e₃, rfl⟩ := emission
    exact wrapped [] []
      (.cons (brings_of_eval r₁ e₁) (.cons (brings_of_eval r₂ e₂) (.cons (brings_of_eval r₃ e₃) .nil)))
      (.cons (brings_zero .r10) (.cons (brings_imm .rax 44) .nil))
      (by simp [assign, Source.value]) (by simp [pushes])
  | netRecv sock buf length =>
    cases wrapper
    simp only [List.forall_mem_cons, List.not_mem_nil, false_imp_iff, implies_true, and_true] at registers
    obtain ⟨r₁, r₂, r₃⟩ := registers
    simp only [emitOp, netRecv, eval_bind_ok, evalCalls_withScript, asm_ok,
      CodeGenerator.withScript_withScript, CodeGenerator.withScript_script, List.append_assoc] at emission
    obtain ⟨p₁, e₁, p₂, e₂, p₃, e₃, rfl⟩ := emission
    exact wrapped [] []
      (.cons (brings_of_eval r₁ e₁) (.cons (brings_of_eval r₂ e₂) (.cons (brings_of_eval r₃ e₃) .nil)))
      (.cons (brings_zero .r10) (.cons (brings_imm .rax 45) .nil))
      (by simp [assign, Source.value]) (by simp [pushes])
  | netPoll fds nfds timeout =>
    cases wrapper
    simp only [List.forall_mem_cons, List.not_mem_nil, false_imp_iff, implies_true, and_true] at registers
    obtain ⟨r₁, r₂, r₃⟩ := registers
    simp only [emitOp, netPoll, eval_bind_ok, evalCalls_withScript, asm_bind_ok, asm_ok,
      CodeGenerator.withScript_withScript, CodeGenerator.withScript_script, List.append_assoc] at emission
    obtain ⟨p₁, e₁, p₂, e₂, p₃, e₃, rfl⟩ := emission
    exact wrapped [.r12, .r13, .r14] [.popReg .r14, .popReg .r13, .popReg .r12]
      (.cons (brings_of_eval r₁ e₁) (.cons (brings_of_eval r₂ e₂) (.cons (brings_of_eval r₃ e₃) .nil)))
      (.cons (brings_mov .rdi .r12) (.cons (brings_mov .rsi .r13) (.cons (brings_mov .rdx .r14) (.cons (brings_imm .rax 7) .nil))))
      (by simp [assign, Source.value]) (by simp [pushes])
  | netEpollCtl epfd op fd eventPtr =>
    cases wrapper
    simp only [List.forall_mem_cons, List.not_mem_nil, false_imp_iff, implies_true, and_true] at registers
    obtain ⟨r₁, r₂, r₃, r₄⟩ := registers
    simp only [emitOp, netEpollCtl, eval_bind_ok, evalCalls_withScript, asm_bind_ok, asm_ok,
      CodeGenerator.withScript_withScript, CodeGenerator.withScript_script, List.append_assoc] at emission
    obtain ⟨p₁, e₁, p₂, e₂, p₃, e₃, p₄, e₄, rfl⟩ := emission
    exact wrapped [.r12, .r13, .r14, .rbx] [.popReg .rbx, .popReg .r14, .popReg .r13, .popReg .r12]
      (.cons (brings_of_eval r₁ e₁) (.cons (brings_of_eval r₂ e₂) (.cons (brings_of_eval r₃ e₃) (.cons (brings_of_eval r₄ e₄) .nil))))
      (.cons (brings_mov .rdi .r12) (.cons (brings_mov .rsi .r13) (.cons (brings_mov .rdx .r14) (.cons (brings_mov .r10 .rbx) (.cons (brings_imm .rax 233) .nil)))))
      (by simp [assign, Source.value]) (by simp [pushes])
  | netEpollWait dest epfd events maxevents timeout =>
    cases wrapper
    simp only [List.forall_mem_cons, List.not_mem_nil, false_imp_iff, implies_true, and_true] at registers
    obtain ⟨r₁, r₂, r₃, r₄⟩ := registers
    simp only [emitOp, netEpollWait, reg_bind_ok, eval_bind_ok, evalCalls_withScript, asm_bind_ok, asm_ok,
      CodeGenerator.withScript_withScript, CodeGenerator.withScript_script, List.append_assoc] at emission
    obtain ⟨p₁, e₁, p₂, e₂, p₃, e₃, p₄, e₄, dst, -, rfl⟩ := emission
    exact wrapped [.r12, .r13, .r14, .rbx] (copyTo dst .rax ++ [.popReg .rbx, .popReg .r14, .popReg .r13, .popReg .r12])
      (.cons (brings_of_eval r₁ e₁) (.cons (brings_of_eval r₂ e₂) (.cons (brings_of_eval r₃ e₃) (.cons (brings_of_eval r₄ e₄) .nil))))
      (.cons (brings_mov .rdi .r12) (.cons (brings_mov .rsi .r13) (.cons (brings_mov .rdx .r14) (.cons (brings_mov .r10 .rbx) (.cons (brings_imm .rax 232) .nil)))))
      (by simp [assign, Source.value]) (by simp [pushes])
  | cellMap dest size prot flags =>
    cases wrapper
    simp only [List.forall_mem_cons, List.not_mem_nil, false_imp_iff, implies_true, and_true] at registers
    obtain ⟨r₁, r₂, r₃⟩ := registers
    simp only [emitOp, cellMap, reg_bind_ok, evalOr_bind_ok, eval_bind_ok, evalCalls_withScript, asm_bind_ok, asm_ok,
      CodeGenerator.withScript_withScript, CodeGenerator.withScript_script, List.append_assoc] at emission
    obtain ⟨p₁, e₁, p₂, e₂, p₃, e₃, dst, -, rfl⟩ := emission
    exact wrapped [.r12, .r13, .r14] (copyTo dst .rax ++ [.popReg .r14, .popReg .r13, .popReg .r12])
      (.cons (brings_of_eval r₁ e₁) (.cons (brings_of_evalOr r₂ (brings_imm .r13 3) e₂) (.cons (brings_of_evalOr r₃ (brings_imm .r14 0x22) e₃) .nil)))
      (.cons (brings_zero .rdi) (.cons (brings_mov .rsi .r12) (.cons (brings_mov .rdx .r13) (.cons (brings_mov .r10 .r14) (.cons (brings_imm .r8 0xFFFFFFFFFFFFFFFF) (.cons (brings_zero .r9) (.cons (brings_imm .rax 9) .nil)))))))
      (by simp [assign, Source.value]) (by simp [pushes])
  | cellMapFile dest size fd offset prot =>
    cases wrapper
    simp only [List.forall_mem_cons, List.not_mem_nil, false_imp_iff, implies_true, and_true] at registers
    obtain ⟨r₁, r₂, r₃, r₄⟩ := registers
    simp only [emitOp, cellMapfile, reg_bind_ok, evalOr_bind_ok, eval_bind_ok, evalCalls_withScript, asm_bind_ok, asm_ok,
      CodeGenerator.withScript_withScript, CodeGenerator.withScript_script, List.append_assoc] at emission
    obtain ⟨p₁, e₁, p₂, e₂, p₃, e₃, p₄, e₄, dst, -, rfl⟩ := emission
    exact wrapped [.r12, .r13, .r14, .rbx] (copyTo dst .rax ++ [.popReg .rbx, .popReg .r14, .popReg .r13, .popReg .r12])
      (.cons (brings_of_eval r₁ e₁) (.cons (brings_of_eval r₂ e₂) (.cons (brings_of_evalOr r₃ (brings_zero .r14) e₃) (.cons (brings_of_evalOr r₄ (brings_imm .rbx 3) e₄) .nil))))
      (.cons (brings_zero .rdi) (.cons (brings_mov .rsi .r12) (.cons (brings_mov .rdx .rbx) (.cons (brings_imm .r10 2) (.cons (brings_mov .r8 .r13) (.cons (brings_mov .r9 .r14) (.cons (brings_imm .rax 9) .nil)))))))
      (by simp [assign, Source.value]) (by simp [pushes])
  | cellProtect ptr size prot =>
    cases wrapper
    simp only [List.forall_mem_cons, List.not_mem_nil, false_imp_iff, implies_true, and_true] at registers
    obtain ⟨r₁, r₂, r₃⟩ := registers
    simp only [emitOp, cellProtect, eval_bind_ok, evalCalls_withScript, asm_bind_ok, asm_ok,
      CodeGenerator.withScript_withScript, CodeGenerator.withScript_script, List.append_assoc] at emission
    obtain ⟨p₁, e₁, p₂, e₂, p₃, e₃, rfl⟩ := emission
    exact wrapped [.r12, .r13, .r14] [.popReg .r14, .popReg .r13, .popReg .r12]
      (.cons (brings_of_eval r₁ e₁) (.cons (brings_of_eval r₂ e₂) (.cons (brings_of_eval r₃ e₃) .nil)))
      (.cons (brings_mov .rdi .r12) (.cons (brings_mov .rsi .r13) (.cons (brings_mov .rdx .r14) (.cons (brings_imm .rax 10) .nil))))
      (by simp [assign, Source.value]) (by simp [pushes])
  | _ => cases wrapper

theorem wrapperArgs_distinct {op : Op} {args : List (Expr × Reg × Reg)} (wrapper : wrapperArgs op = some args) :
    (args.map (·.2.1)).Nodup ∧ .rsp ∉ args.map (·.2.1) := by
  cases op <;> first | (cases wrapper; done) | (cases wrapper; simp)

/-- The code of a wrapper runs to its system call, and every argument is there what its operand was at the start
exactly when no operand is a register that an earlier one has been evaluated into, unless that one had its value. -/
theorem snapshot_iff {op : Op} {args : List (Expr × Reg × Reg)} (wrapper : wrapperArgs op = some args)
    (registers : ∀ a ∈ args, a.1.IsRegister) {g g' : CodeGenerator} (emission : emitOp op g = .ok () g') :
    ∃ ss before after, List.Forall₂ (fun a s => Resolves a.1 s) args ss ∧
      g' = g.withScript (g.script ++ (before ++ [.syscall] ++ after)) ∧
      ∀ (L : Listing) (M : Machine), L.Loaded M → ∀ i, L.At i (before ++ [.syscall] ++ after) →
        ∀ c : Cpu, ∃ d, effects L.env L.address before c = some d ∧
          M.Steps ⟨L.offset i, c⟩ ⟨L.offset (i + before.length), d⟩ ∧
          ((∀ p ∈ args.zip ss, d.reg p.1.2.2 = p.2.value c.reg) ↔
            (args.zip ss).Pairwise fun p q => q.2 = .loc p.1.2.1 → p.2.value c.reg = q.2.value c.reg) := by
  obtain ⟨ss, saves, pieces, post, after, shape, rfl⟩ := wrapper_ok wrapper registers emission
  obtain ⟨resolves, brings, qs, moves, lands⟩ := shape
  refine ⟨ss, _, after, resolves, rfl, fun L M loaded i here c => ?_⟩
  obtain ⟨c₁, saved, kept⟩ := @pushes_effects L.env L.address saves c
  obtain ⟨c₂, brought, regs₂⟩ := @brings_all L.env L.address _ _ brings c₁
  obtain ⟨d, landed, regs⟩ := @brings_all L.env L.address _ _ moves c₂
  have ran : effects L.env L.address (pushes saves ++ pieces.flatten ++ post.flatten) c = some d := by
    rw [effects_append, effects_append, saved, Option.bind_some, brought, Option.bind_some, landed]
  rw [List.append_assoc] at here
  refine ⟨d, ran, loaded.steps (Listing.steps_of_effects (here.append _).1 ran), ?_⟩
  obtain ⟨distinct, notSp⟩ := wrapperArgs_distinct wrapper
  have zipped : (args.map (·.2.1)).zip ss = (args.zip ss).map fun p => (p.1.2.1, p.2) := by
    rw [List.zip_map_left]
    rfl
  have sources : ∀ p ∈ (args.map (·.2.1)).zip ss, ∀ r, p.2 = .loc r → r ≠ Reg.rsp := by
    intro p member r same
    exact (resolves_user resolves (List.of_mem_zip member).2 same).1
  have value (p : (Expr × Reg × Reg) × Source Reg Word) (member : p ∈ args.zip ss) :
      d.reg p.1.2.2 = assign c.reg ((args.map (·.2.1)).zip ss) p.1.2.1 := by
    have inside := (List.of_mem_zip member).1
    have other : p.1.2.1 ≠ .rsp := fun same => notSp (same ▸ List.mem_map_of_mem inside)
    rw [regs, lands c₂.reg p.1 inside, regs₂]
    exact X64.assign_congr kept sources other
  -- The moves in order are the moves at once exactly where no source is written before it is read.
  have ordered := @X64.assign_parallel_iff _ _ _ c.reg ((args.map (·.2.1)).zip ss)
    (by rwa [List.map_fst_zip (by simp [resolves.length_eq])])
  rw [zipped, List.pairwise_map] at ordered
  refine Iff.trans ⟨fun right p member => ?_, fun right p member => ?_⟩ ordered
  · obtain ⟨q, inside, rfl⟩ := List.mem_map.mp member
    rw [← zipped, ← value q inside]
    exact right q inside
  · rw [value p member, zipped]
    exact right _ (List.mem_map_of_mem member)

/-- `net:connect reg1, reg2, reg6`: RDI is overwritten before it is read, but with the value that it has. -/
theorem snapshot_connect : ∃ (L : Listing) (M : Machine) (n : Nat) (d : Cpu), L.Loaded M ∧ L.At n [.syscall] ∧
    M.Steps ⟨0, (Cpu.filled 7).set .rbx 9⟩ ⟨L.offset n, d⟩ ∧ d.reg .rdi = 7 ∧ d.reg .rsi = 9 ∧ d.reg .rdx = 7 := by
  obtain ⟨ss, before, after, resolves, script, runs⟩ :=
    @snapshot_iff (.netConnect (.reg "reg1") (.reg "reg2") (.reg "reg6")) _ rfl (by decide) (.new false) _ rfl
  obtain rfl := resolves_unique resolves
    (.cons (.reg (by decide : resolve "reg1" = .ok .rax)) (.cons (.reg (by decide : resolve "reg2" = .ok .rbx))
      (.cons (.reg (by decide : resolve "reg6" = .ok .rdi)) .nil)))
  have code : [.movRegReg .rdi .rax, .movRegReg .rsi .rbx, .movRegReg .rdx .rdi, .movRegImm64 .rax 42] ++ [.syscall] =
      before ++ [.syscall] ++ after := congrArg CodeGenerator.script script
  obtain ⟨L, M, loaded, calls, -, -⟩ := Listing.exists_loaded (before ++ [.syscall] ++ after) [] .silent
    (by rw [← code]; decide)
  have here : L.At 0 (before ++ [.syscall] ++ after) := by
    rw [← calls]
    exact List.prefix_refl _
  obtain ⟨d, -, steps, right⟩ := runs L M loaded 0 here ((Cpu.filled 7).set .rbx 9)
  have values := right.mpr (by decide)
  simp only [List.zip_cons_cons, List.zip_nil_left, List.forall_mem_cons] at values
  obtain ⟨rdi, rsi, rdx, -⟩ := values
  rw [List.append_assoc] at here
  have trap := ((here.append _).2.append [.syscall]).1
  rw [Nat.zero_add] at trap steps
  exact ⟨L, M, _, d, loaded, trap, steps, rdi, rsi, rdx⟩

/-- `net:connect reg1, reg6, reg2` passes the socket for the address. -/
theorem snapshot_overwritten : ¬∀ (op : Op) (args : List (Expr × Reg × Reg)) (ss : List (Source Reg Word))
    (before after : List Call) (g g' : CodeGenerator), wrapperArgs op = some args → (∀ a ∈ args, a.1.IsRegister) →
    emitOp op g = .ok () g' → List.Forall₂ (fun a s => Resolves a.1 s) args ss →
    g' = g.withScript (g.script ++ (before ++ [.syscall] ++ after)) →
    ∀ env place (c d : Cpu), effects env place before c = some d →
      ∀ p ∈ args.zip ss, d.reg p.1.2.2 = p.2.value c.reg := by
  intro right
  let op : Op := .netConnect (.reg "reg1") (.reg "reg6") (.reg "reg2")
  have wrong := right op _ [.loc .rax, .loc .rdi, .loc .rbx]
    [.movRegReg .rdi .rax, .movRegReg .rsi .rdi, .movRegReg .rdx .rbx, .movRegImm64 .rax 42] [] (.new false) _ rfl
    (by decide) rfl (.cons (.reg (by decide)) (.cons (.reg (by decide)) (.cons (.reg (by decide)) .nil))) rfl .silent
    (fun _ => 0) ((Cpu.filled 0).set .rdi 5) _ rfl ((.reg "reg6", .rsi, .rsi), .loc .rdi) (by simp)
  revert wrong
  decide

end Codegen

end Aclm
