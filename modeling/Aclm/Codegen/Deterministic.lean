import Aclm.Codegen.Targets

/-! The layout of deterministic code does not depend on the literals in operands: a program and the same program with
zeros for its literals are emitted alike, call by call. -/

set_option autoImplicit false

namespace Aclm

open Encoder

/-! ### Programs without their literals -/

/-- The expression with zeros for its integer literals. -/
def Expr.blank : Expr → Expr
  | number _ => number 0
  | binExpr op left right => binExpr op left.blank right.blank
  | node => node

/-- The operation with zeros for the integer literals in its operands; the number of a system call is no operand. -/
def Op.blank : Op → Op
  | cmp left right => cmp left.blank right.blank
  | cpuBin op dest value => cpuBin op dest value.blank
  | sysCall num args => sysCall num (args.map Expr.blank)
  | call target args => call target (args.map Expr.blank)
  | retVal value => retVal (value.map Expr.blank)
  | stackPush value => stackPush value.blank
  | op => op

def Stmt.blank : Stmt → Stmt
  | op line o => op line o.blank
  | s => s

def Program.blank (p : Program) : Program := ⟨p.statements.map Stmt.blank⟩

/-- Jumps, comparisons, arithmetic, the stack and calls: the operations that only read literals as values. -/
def Op.Simple : Op → Prop
  | label _ | goto _ | jumpIf .. | cmp .. | cpuBin .. | cpuUnary .. | stackPush _ | stackPop _ | call .. | ret | retVal _
  | sysCall .. | metalDeterministic => True
  | _ => False

def Stmt.Simple : Stmt → Prop
  | op _ o => o.Simple
  | fnDef .. => False

namespace Encoder

/-- The call with zero for the immediate that a literal may have given. -/
def Call.blank : Call → Call
  | movRegImm64 dst _ => movRegImm64 dst 0
  | shiftRegImm8 op r _ => shiftRegImm8 op r 0
  | c => c

/-- The immediate does not show in the length, and cannot fail. -/
theorem Call.encode_blank (c : Call) : (c = c.blank) ∨ ∃ bs bs', c.encode true = .ok bs ∧ c.blank.encode true = .ok bs' ∧
    bs.length = bs'.length ∧ c.fixup = none ∧ c.blank.fixup = none ∧ ∀ name, c ≠ .label name := by
  cases c with
  | movRegImm64 dst imm => exact .inr ⟨_, _, rfl, rfl, by simp [movRegImm64Bytes, u64], rfl, rfl, fun name => by simp⟩
  | shiftRegImm8 op r imm => exact .inr ⟨_, _, rfl, rfl, by simp [u8], rfl, rfl, fun name => by simp⟩
  | _ => exact .inl rfl

theorem Call.size_blank (c : Call) : c.blank.size true = c.size true := by
  rcases c.encode_blank with same | ⟨bs, bs', encoded, encoded', length, fixed, fixed', -⟩
  · rw [← same]
  · simp [Call.size, Call.assembled, encoded, encoded', fixed, fixed', length]

theorem size_blank (cs : List Call) : size true (cs.map Call.blank) = size true cs := by
  simp [size, Function.comp_def, Call.size_blank]

namespace Assembler

/-- The same length and the same labels. -/
structure Alike (a b : Assembler) : Prop where
  length : a.code.length = b.code.length
  labels : a.labels = b.labels
  left : a.deterministic = true
  right : b.deterministic = true

/-- The length and the labels of an assembler, or the exception. -/
def outline (r : Except PyErr Assembler) : Except PyErr (Nat × Dict Nat) := r.map fun a => (a.code.length, a.labels)

theorem Alike.perform {a b : Assembler} (alike : Alike a b) (c : Call) :
    (∃ e, a.perform c = .error e ∧ b.perform c.blank = .error e) ∨
      ∃ a' b', a.perform c = .ok a' ∧ b.perform c.blank = .ok b' ∧ Alike a' b' := by
  obtain ⟨length, labels, left, right⟩ := alike
  rcases c.encode_blank with same | ⟨bs, bs', encoded, encoded', equal, fixed, fixed', notLabel⟩
  · rw [← same]
    by_cases isLabel : ∃ name, c = .label name
    · obtain ⟨name, rfl⟩ := isLabel
      simp only [Assembler.perform, label, ← labels, ← length]
      split
      · exact .inl ⟨_, rfl, rfl⟩
      · exact .inr ⟨_, _, rfl, rfl, length, rfl, left, right⟩
    · have notLabel : ∀ name, c ≠ .label name := fun name same => isLabel ⟨name, same⟩
      rw [perform_eq notLabel, perform_eq notLabel, left, right]
      cases c.encode true with
      | error e => exact .inl ⟨e, rfl, rfl⟩
      | ok bs =>
        cases c.fixup with
        | none => exact .inr ⟨_, _, rfl, rfl, by simp [emit, length], labels, left, right⟩
        | some target => exact .inr ⟨_, _, rfl, rfl, by simp [emit, emitRel32Fixup, length], labels, left, right⟩
  · have notLabel' : ∀ name, c.blank ≠ .label name := by
      intro name
      cases c with
      | label name => exact absurd rfl (notLabel name)
      | _ => simp [Call.blank]
    rw [perform_eq notLabel, perform_eq notLabel', left, right, encoded, encoded', fixed, fixed']
    exact .inr ⟨_, _, rfl, rfl, by simp [emit, length, equal], labels, left, right⟩

theorem Alike.run {a b : Assembler} (alike : Alike a b) (cs : List Call) :
    outline (a.run cs) = outline (b.run (cs.map Call.blank)) := by
  induction cs generalizing a b with
  | nil => simp [Assembler.run, outline, Except.map, alike.length, alike.labels]
  | cons c cs ih =>
    rcases alike.perform c with ⟨e, left, right⟩ | ⟨a', b', left, right, next⟩
    · simp only [List.map_cons, Assembler.run, left, right]
      rfl
    · simp only [List.map_cons, Assembler.run, left, right]
      exact ih next

end Assembler

end Encoder

/-! ### Emitting without literals -/

def CodeGenerator.blank (g : CodeGenerator) : CodeGenerator := g.withScript (g.script.map Call.blank)

namespace Codegen

open X64 (Reg)

/-- Generators in deterministic mode that differ in immediates only. -/
structure Agree (g g' : CodeGenerator) : Prop where
  deterministic : g.deterministic = true
  same : g'.blank = g.blank

namespace Agree

variable {g g' : CodeGenerator}

theorem deterministic' (agree : Agree g g') : g'.deterministic = true :=
  (congrArg CodeGenerator.deterministic agree.same).trans agree.deterministic

theorem script (agree : Agree g g') : g'.script.map Call.blank = g.script.map Call.blank :=
  congrArg CodeGenerator.script agree.same

/-- What does not read the script agrees. -/
theorem field {α : Type} (agree : Agree g g') (f : CodeGenerator → α) (unread : ∀ g s, f (g.withScript s) = f g) :
    f g' = f g := by
  have equal := congrArg f agree.same
  rwa [CodeGenerator.blank, CodeGenerator.blank, unread, unread] at equal

theorem codeLength (agree : Agree g g') : g'.codeLength = g.codeLength := by
  rw [CodeGenerator.codeLength, CodeGenerator.codeLength, agree.deterministic, agree.deterministic', ← size_blank,
    agree.script, size_blank]

end Agree

/-- The two steps take generators that agree to generators that agree, with the same result or exception. -/
def Blind {α : Type} (m m' : Gen α) : Prop := ∀ g g', Agree g g' →
  (∃ a h h', m g = .ok a h ∧ m' g' = .ok a h' ∧ Agree h h') ∨ ∃ e h h', m g = .error e h ∧ m' g' = .error e h' ∧ Agree h h'

namespace Blind

variable {α β : Type}

theorem pure (a : α) : Blind (pure a) (pure a) := fun g g' agree => .inl ⟨a, g, g', rfl, rfl, agree⟩

theorem throw (e : PyErr) : Blind (throw e : Gen α) (throw e) := fun g g' agree => .inr ⟨e, g, g', rfl, rfl, agree⟩

theorem ofExcept (x : Except PyErr α) : Blind (ofExcept x) (ofExcept x) := by
  cases x with
  | ok a => exact pure a
  | error e => exact throw e

theorem reg (name : String) : Blind (reg name) (reg name) := ofExcept _

theorem bind {x x' : Gen α} {f f' : α → Gen β} (first : Blind x x') (rest : ∀ a, Blind (f a) (f' a)) :
    Blind (x >>= f) (x' >>= f') := by
  intro g g' agree
  change (∃ b h h', EStateM.bind x f g = .ok b h ∧ EStateM.bind x' f' g' = .ok b h' ∧ Agree h h') ∨
    ∃ e h h', EStateM.bind x f g = .error e h ∧ EStateM.bind x' f' g' = .error e h' ∧ Agree h h'
  unfold EStateM.bind
  rcases first g g' agree with ⟨a, h, h', left, right, next⟩ | ⟨e, h, h', left, right, next⟩
  · rw [left, right]
    exact rest a h h' next
  · rw [left, right]
    exact .inr ⟨e, h, h', rfl, rfl, next⟩

theorem seq {x x' : Gen Unit} {y y' : Gen β} (first : Blind x x') (rest : Blind y y') :
    Blind (do x; y) (do x'; y') := bind first fun _ => rest

theorem get {f f' : CodeGenerator → Gen β} (rest : ∀ g g', Agree g g' → Blind (f g) (f' g')) :
    Blind (get >>= f) (get >>= f') := fun g g' agree => rest g g' agree g g' agree

theorem modify {f f' : CodeGenerator → CodeGenerator} (keeps : ∀ g g', Agree g g' → Agree (f g) (f' g')) :
    Blind (modify f) (modify f') := fun g g' agree => .inl ⟨(), f g, f' g', rfl, rfl, keeps g g' agree⟩

theorem asm {calls calls' : List Call} (same : calls'.map Call.blank = calls.map Call.blank) :
    Blind (asm calls) (asm calls') := by
  refine modify fun g g' agree => ⟨agree.deterministic, ?_⟩
  have script : (g'.script ++ calls').map Call.blank = (g.script ++ calls).map Call.blank := by
    rw [List.map_append, List.map_append, agree.script, same]
  have rest := congrArg (fun h => h.withScript ((g.script ++ calls).map Call.blank)) agree.same
  simpa [CodeGenerator.blank, script] using rest

theorem calls (calls : List Call) : Blind (Codegen.asm calls) (Codegen.asm calls) := asm rfl

theorem ite {p : Prop} [Decidable p] {x x' y y' : Gen α} (yes : Blind x x') (no : Blind y y') :
    Blind (if p then x else y) (if p then x' else y') := by
  split
  · exact yes
  · exact no

theorem eval (node : Expr) (dst : Reg) : Blind (eval node dst) (eval node.blank dst) := by
  have leaf (node : Expr) (dst : Reg) :
      Blind (do let operand ← Codegen.ofExcept ((← MonadState.get).operand node); Codegen.asm (operand.mov dst))
        (do let operand ← Codegen.ofExcept ((← MonadState.get).operand node); Codegen.asm (operand.mov dst)) := by
    refine get fun g g' agree => ?_
    rw [agree.field (·.operand node) fun g s => operand_withScript g s node]
    exact bind (ofExcept _) fun o => calls _
  induction node generalizing dst with
  | binExpr op left right ihl ihr =>
    exact seq (ihl _) (seq (calls _) (seq (ihr _) (seq (calls _) (seq (calls _) (calls _)))))
  | number n => exact (asm rfl : Blind (Codegen.asm [.movRegImm64 dst n]) (Codegen.asm [.movRegImm64 dst 0]))
  | _ => exact leaf _ _

theorem evalOr (node : Option Expr) (dst : Reg) (default : List Call) :
    Blind (evalOr node dst default) (evalOr (node.map Expr.blank) dst default) := by
  cases node with
  | none => exact calls default
  | some node => exact eval node dst

theorem pushArgs (via : Reg) (args : List Expr) : Blind (pushArgs via args) (pushArgs via (args.map Expr.blank)) := by
  induction args with
  | nil => exact pure ()
  | cons arg args ih => exact seq (eval arg via) (seq (calls _) ih)

theorem shiftCalls (op : ShiftOp) (value : Expr) (dst val : Reg) :
    (shiftCalls op value.blank dst val).map Call.blank = (Codegen.shiftCalls op value dst val).map Call.blank := by
  cases value <;> rfl

theorem cpuBinCalls (op : CpuBinOp) (value : Expr) (dst val : Reg) :
    (cpuBinCalls op value.blank dst val).map Call.blank = (Codegen.cpuBinCalls op value dst val).map Call.blank := by
  unfold Codegen.cpuBinCalls
  split
  · rfl
  · exact shiftCalls _ value dst val
  · rfl

theorem cpuBin (op : CpuBinOp) (dest : String) (value : Expr) : Blind (cpuBin op dest value) (cpuBin op dest value.blank) := by
  refine get fun g g' agree => ?_
  rw [agree.field (·.fnLocals) fun _ _ => rfl]
  cases g.fnLocals.get? dest with
  | some off =>
    exact ite (seq (eval value _) (calls _))
      (seq (calls _) (seq (eval value _) (seq (asm (cpuBinCalls op value _ _)) (calls _))))
  | none => exact bind (reg dest) fun dst => ite (eval value dst) (seq (eval value _) (asm (cpuBinCalls op value _ _)))

theorem cpuUnary (op : CpuUnaryOp) (dest : String) : Blind (cpuUnary op dest) (cpuUnary op dest) := by
  refine get fun g g' agree => ?_
  rw [agree.field (·.fnLocals) fun _ _ => rfl]
  cases g.fnLocals.get? dest with
  | some off => exact calls _
  | none => exact bind (reg dest) fun dst => calls _

theorem emitCall (label : String) (args : List Expr) : Blind (emitCall label args) (emitCall label (args.map Expr.blank)) := by
  unfold Codegen.emitCall
  simp only [← List.map_take, List.length_map]
  exact seq (pushArgs _ _) (seq (calls _) (calls _))

theorem emitSyscall (num : SysNum) (args : List Expr) :
    Blind (emitSyscall num args) (emitSyscall num (args.map Expr.blank)) := by
  unfold Codegen.emitSyscall
  simp only [← List.map_take, List.length_map]
  refine get fun g g' agree => ?_
  rw [agree.field (·.baremetal) fun _ _ => rfl]
  have rest : Blind (do
      let num ← Codegen.ofExcept (syscallNumber num)
      Codegen.pushArgs SCRATCH (args.take 6)
      Codegen.asm (popArgs (args.take 6).length SYSCALL_ARGS)
      Codegen.asm [.movRegImm64 .rax num, .pushReg .rcx, .pushReg .r11, .syscall, .popReg .r11, .popReg .rcx])
      (do
      let num ← Codegen.ofExcept (syscallNumber num)
      Codegen.pushArgs SCRATCH ((args.take 6).map Expr.blank)
      Codegen.asm (popArgs (args.take 6).length SYSCALL_ARGS)
      Codegen.asm [.movRegImm64 .rax num, .pushReg .rcx, .pushReg .r11, .syscall, .popReg .r11, .popReg .rcx]) :=
    bind (ofExcept _) fun num => seq (pushArgs _ _) (seq (calls _) (calls _))
  exact ite (bind (throw _) fun _ => rest) rest

theorem emitReturn : Blind emitReturn emitReturn := by
  refine get fun g g' agree => ?_
  rw [agree.field (·.inFn) fun _ _ => rfl]
  exact calls _

theorem emitCmp (left right : Expr) : Blind (emitCmp left right) (emitCmp left.blank right.blank) :=
  seq (calls _) (seq (eval left _) (seq (calls _) (seq (eval right _) (calls _))))

theorem emitOp {op : Op} (simple : op.Simple) : Blind (emitOp op) (emitOp op.blank) := by
  cases op with
  | label name => exact calls _
  | goto target => exact calls _
  | jumpIf cond target => exact calls _
  | cmp left right => exact emitCmp left right
  | cpuBin op dest value => exact cpuBin op dest value
  | cpuUnary op dest => exact cpuUnary op dest
  | sysCall num args => exact emitSyscall num args
  | call target args => exact emitCall target args
  | ret => exact emitReturn
  | retVal value => exact seq (evalOr value _ _) emitReturn
  | stackPush value => exact seq (eval value _) (calls _)
  | stackPop dest => exact bind (reg dest) fun r => calls _
  | metalDeterministic => exact pure ()
  | _ => exact simple.elim

theorem note (line : Int) : Blind (note line) (note line) := by
  refine get fun g g' agree => ?_
  rw [agree.field (·.listing) fun _ _ => rfl]
  refine ite (modify fun g g' agree => ⟨agree.deterministic, ?_⟩) (pure ())
  have rest := congrArg (fun h => { h with teachMap := h.teachMap ++ [(line, g.codeLength)] }) agree.same
  have length := agree.codeLength
  simpa [CodeGenerator.blank, CodeGenerator.withScript, length] using rest

theorem emitAll {stmts : List Stmt} (simple : ∀ s ∈ stmts, s.Simple) :
    Blind (emitAll stmts) (emitAll (stmts.map Stmt.blank)) := by
  induction stmts with
  | nil => exact pure ()
  | cons s rest ih =>
    have later := ih fun t member => simple t (List.mem_cons_of_mem _ member)
    have head := simple s List.mem_cons_self
    cases s with
    | fnDef => exact head.elim
    | op line o => exact seq (seq (note line) (emitOp head)) later

end Blind

/-! ### Whole programs -/

/-- Nothing but the emitters looks into operands. -/
theorem blank_congr {α : Type} (f : Op → α) (cmp : ∀ l r l' r', f (.cmp l r) = f (.cmp l' r'))
    (bin : ∀ op dest v v', f (.cpuBin op dest v) = f (.cpuBin op dest v'))
    (sys : ∀ num a a', f (.sysCall num a) = f (.sysCall num a')) (call : ∀ name a a', f (.call name a) = f (.call name a'))
    (ret : ∀ v v', f (.retVal v) = f (.retVal v')) (push : ∀ v v', f (.stackPush v) = f (.stackPush v')) (op : Op) :
    f op.blank = f op := by
  cases op with
  | cmp l r => exact cmp ..
  | cpuBin op dest v => exact bin ..
  | sysCall num args => exact sys ..
  | call name args => exact call ..
  | retVal v => exact ret ..
  | stackPush v => exact push ..
  | _ => rfl

theorem collectStruct_blank (s : Stmt) (structs : Dict StructLayout) : collectStruct s.blank structs = collectStruct s structs := by
  cases s with
  | fnDef => rfl
  | op line o =>
    exact blank_congr (fun o => collectStruct (.op line o) structs) (fun _ _ _ _ => rfl) (fun _ _ _ _ => rfl)
      (fun _ _ _ => rfl) (fun _ _ _ => rfl) (fun _ _ => rfl) (fun _ _ => rfl) o

theorem collectStructs_blank (stmts : List Stmt) (structs : Dict StructLayout) :
    collectStructs (stmts.map Stmt.blank) structs = collectStructs stmts structs := by
  induction stmts generalizing structs with
  | nil => rfl
  | cons s rest ih => simp only [List.map_cons, collectStructs, collectStruct_blank, ih]

theorem collectData_blank (stmts : List Stmt) (g : CodeGenerator) (off : Int) :
    collectData (stmts.map Stmt.blank) g off = collectData stmts g off := by
  induction stmts generalizing g off with
  | nil => rfl
  | cons s rest ih =>
    cases s with
    | fnDef => exact ih g off
    | op line o =>
      have same : collectDatum g off o.blank = collectDatum g off o :=
        blank_congr (collectDatum g off) (fun _ _ _ _ => rfl) (fun _ _ _ _ => rfl) (fun _ _ _ => rfl) (fun _ _ _ => rfl)
          (fun _ _ => rfl) (fun _ _ => rfl) o
      simp only [List.map_cons, Stmt.blank, collectData, same, ih]

/-- A search for a kind of statement. -/
theorem any_blank (kind : Stmt → Bool) (same : ∀ s, kind s.blank = kind s) (stmts : List Stmt) :
    (stmts.map Stmt.blank).any kind = stmts.any kind := by
  rw [List.any_map]
  exact congrArg stmts.any (funext same)

theorem kinds_blank (s : Stmt) : baremetalStmt s.blank = baremetalStmt s ∧ deterministicStmt s.blank = deterministicStmt s ∧
    pulseStmt s.blank = pulseStmt s ∧ threadStmt s.blank = threadStmt s ∧ isFn s.blank = isFn s := by
  cases s with
  | fnDef => exact ⟨rfl, rfl, rfl, rfl, rfl⟩
  | op line o =>
    have same := blank_congr (fun o => (baremetalStmt (.op line o), deterministicStmt (.op line o), pulseStmt (.op line o),
      threadStmt (.op line o), isFn (.op line o))) (fun _ _ _ _ => rfl) (fun _ _ _ _ => rfl) (fun _ _ _ => rfl)
      (fun _ _ _ => rfl) (fun _ _ => rfl) (fun _ _ => rfl) o
    simp only [Prod.mk.injEq] at same
    exact same

theorem prepare_blank (opts : Options) (p : Program) : prepare opts p.blank = prepare opts p := by
  have search (kind : Stmt → Bool) (same : ∀ s, kind s.blank = kind s) :
      p.blank.statements.any kind = p.statements.any kind := any_blank kind same p.statements
  have structs : collectStructs p.blank.statements [] = collectStructs p.statements [] := collectStructs_blank _ _
  have data (g : CodeGenerator) : collectData p.blank.statements g 0 = collectData p.statements g 0 := collectData_blank _ _ _
  simp only [prepare, structs, data, search _ fun s => (kinds_blank s).1, search _ fun s => (kinds_blank s).2.1,
    search _ fun s => (kinds_blank s).2.2.1, search _ fun s => (kinds_blank s).2.2.2.1]

theorem endsExit_blank (stmts : List Stmt) : endsExit (stmts.map Stmt.blank) = endsExit stmts := by
  simp only [endsExit, List.getLast?_map]
  cases stmts.getLast? with
  | none => rfl
  | some s =>
    cases s with
    | fnDef => rfl
    | op line o =>
      exact blank_congr (fun o => endsExit [.op line o]) (fun _ _ _ _ => rfl) (fun _ _ _ _ => rfl)
        (fun num _ _ => by cases num <;> rfl) (fun _ _ _ => rfl) (fun _ _ => rfl) (fun _ _ => rfl) o

theorem Blind.emitProgram {stmts : List Stmt} (simple : ∀ s ∈ stmts, s.Simple) :
    Blind (emitProgram stmts) (emitProgram (stmts.map Stmt.blank)) := by
  have split (keep : Stmt → Bool) (same : ∀ s, keep s.blank = keep s) :
      (stmts.map Stmt.blank).filter keep = (stmts.filter keep).map Stmt.blank := by
    rw [List.filter_map]
    exact congrArg (fun f => (stmts.filter f).map Stmt.blank) (funext same)
  unfold Codegen.emitProgram
  rw [split _ fun s => by rw [(kinds_blank s).2.2.2.2], split _ fun s => (kinds_blank s).2.2.2.2]
  refine seq (emitAll fun s member => simple s (List.mem_of_mem_filter member))
    (seq ?_ (emitAll fun s member => simple s (List.mem_of_mem_filter member)))
  refine get fun g g' agree => ?_
  rw [endsExit_blank, agree.field (·.baremetal) fun _ _ => rfl]
  exact ite (pure ()) (calls _)

/-- The length of the code and the offsets of the labels, or the exception. -/
def layout (opts : Options) (p : Program) : Except PyErr (Nat × Dict Nat) :=
  (emitted opts p).map fun r => (r.2.code.length, r.2.labels)

theorem prepare_deterministic {opts : Options} {p : Program} {g : CodeGenerator} (ok : prepare opts p = .ok g) :
    g.deterministic = p.statements.any deterministicStmt := by
  have cell (name : String) (n : Nat) (needed : Bool) (g : CodeGenerator) :
      (addCell name n needed g).deterministic = g.deterministic := by
    unfold addCell
    split <;> rfl
  obtain ⟨m, -, rest⟩ := bind_eq_ok.mp ok
  cases rest
  rw [cell, cell]

/-- Scripts that agree are assembled alike. -/
theorem Agree.outline {g g' : CodeGenerator} (agree : Agree g g') :
    Assembler.outline ((Assembler.empty g.deterministic).run g.script) =
      Assembler.outline ((Assembler.empty g'.deterministic).run g'.script) := by
  have start : Assembler.Alike (.empty true) (.empty true) := ⟨rfl, rfl, rfl, rfl⟩
  rw [agree.deterministic, agree.deterministic', start.run g.script, start.run g'.script, agree.script]

theorem layout_blank (opts : Options) {p : Program} (deterministic : p.statements.any deterministicStmt = true)
    (simple : ∀ s ∈ p.statements, s.Simple) : layout opts p.blank = layout opts p := by
  unfold layout emitted
  rw [prepare_blank]
  cases prepared : prepare opts p with
  | error e => rfl
  | ok g =>
    have start : Agree g g := ⟨(prepare_deterministic prepared).trans deterministic, rfl⟩
    rcases Blind.emitProgram simple g g start with ⟨u, h, h', left, right, next⟩ | ⟨e, h, h', left, right, next⟩
    · have outline := next.outline
      simp only [Program.blank, bind, Except.bind, left, right]
      cases run : (Assembler.empty h.deterministic).run h.script <;>
        cases run' : (Assembler.empty h'.deterministic).run h'.script <;>
        simp_all [Assembler.outline, Except.map]
    · have outline := next.outline
      simp only [Program.blank, bind, Except.bind, left, right]
      cases run : (Assembler.empty h.deterministic).run h.script <;>
        cases run' : (Assembler.empty h'.deterministic).run h'.script <;>
        simp_all [Assembler.outline, Except.map]

theorem simple_blank (s : Stmt) : s.blank.Simple ↔ s.Simple := by
  cases s with
  | fnDef => rfl
  | op line o =>
    exact iff_of_eq (blank_congr Op.Simple (fun _ _ _ _ => rfl) (fun _ _ _ _ => rfl) (fun _ _ _ => rfl) (fun _ _ _ => rfl)
      (fun _ _ => rfl) (fun _ _ => rfl) o)

/-- Two programs in deterministic mode that differ in the literals in their operands only have the same layout, or
raise the same exception. -/
theorem deterministic_layout (opts : Options) {p q : Program} (deterministic : p.statements.any deterministicStmt = true)
    (simple : ∀ s ∈ p.statements, s.Simple) (same : p.blank = q.blank) : layout opts p = layout opts q := by
  have statements : p.statements.map Stmt.blank = q.statements.map Stmt.blank := congrArg Program.statements same
  have deterministic' : q.statements.any deterministicStmt = true := by
    rw [← any_blank _ fun s => (kinds_blank s).2.1, ← statements, any_blank _ fun s => (kinds_blank s).2.1, deterministic]
  have simple' : ∀ s ∈ q.statements, s.Simple := by
    intro s member
    have blank : s.blank ∈ p.statements.map Stmt.blank := statements ▸ List.mem_map_of_mem member
    obtain ⟨t, known, equal⟩ := List.mem_map.mp blank
    rw [← simple_blank, ← equal, simple_blank]
    exact simple t known
  rw [← layout_blank opts deterministic simple, same, layout_blank opts deterministic' simple']

/-- A small and a large literal, and a shift by either. -/
theorem deterministic_layout_shift : layout ⟨false, false, false⟩ ⟨[.op 1 .metalDeterministic, .op 2 (.label "l"),
      .op 3 (.cpuBin .add "reg1" (.number 1)), .op 4 (.cpuBin .shl "reg3" (.number 3)), .op 5 (.goto "l")]⟩ =
    layout ⟨false, false, false⟩ ⟨[.op 1 .metalDeterministic, .op 2 (.label "l"),
      .op 3 (.cpuBin .add "reg1" (.number 1000000000000)), .op 4 (.cpuBin .shl "reg3" (.number (-1))), .op 5 (.goto "l")]⟩ :=
  deterministic_layout _ rfl (by simp [Stmt.Simple, Op.Simple]) rfl

end Codegen

end Aclm
