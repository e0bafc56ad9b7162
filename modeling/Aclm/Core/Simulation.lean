import Aclm.Core.Code
import Aclm.Codegen.Targets

/-! Compiler correctness of the core language: the linked text carries out every run of the source, from
the offset of each statement to the offset of the next one. -/

set_option autoImplicit false

namespace Aclm.Core

open X64 (Word Flags Reg Cpu Env Machine)
open Encoder
open Codegen

/-! ### The code of a program -/

inductive StmtCode : Stmt → List Call → Prop where
  | op {op : Op} {calls : List Call} (line : Int) (code : Code op calls) : StmtCode (.op line op) calls

/-- The code of the statements, one piece for each. -/
abbrev Codes : List Stmt → List (List Call) → Prop := List.Forall₂ StmtCode

theorem codes_of_core {stmts : List Stmt} (core : ∀ s ∈ stmts, CoreStmt s) : ∃ codes, Codes stmts codes := by
  induction stmts with
  | nil => exact ⟨[], .nil⟩
  | cons s rest ih =>
    obtain ⟨codes, more⟩ := ih fun s member => core s (List.mem_cons_of_mem _ member)
    have first := core s List.mem_cons_self
    cases s with
    | fnDef => exact first.elim
    | op line op =>
      obtain ⟨calls, code⟩ := CoreOp.code first
      exact ⟨calls :: codes, .cons (.op line code) more⟩

theorem StmtCode.emit {s : Stmt} {calls : List Call} (code : StmtCode s calls) {g : CodeGenerator}
    (top : g.fnLocals = []) :
    ∃ g', emit s g = .ok () g' ∧ g'.script = g.script ++ calls ∧ g'.fnLocals = [] := by
  obtain ⟨line, code⟩ := code
  obtain ⟨m, noted, script, slots⟩ : ∃ m, note line g = .ok () m ∧ m.script = g.script ∧ m.fnLocals = [] := by
    by_cases listing : g.listing = true
    · refine ⟨{ g with teachMap := g.teachMap ++ [(line, g.codeLength)] }, ?_, rfl, top⟩
      exact bind_ok.mpr ⟨g, g, get_ok.mpr ⟨rfl, rfl⟩, by rw [if_pos listing, modify_ok]⟩
    · refine ⟨g, ?_, rfl, top⟩
      exact bind_ok.mpr ⟨g, g, get_ok.mpr ⟨rfl, rfl⟩, by rw [if_neg listing, pure_ok]; exact ⟨rfl, rfl⟩⟩
  refine ⟨m.withScript (m.script ++ calls), ?_, by simp [script], slots⟩
  unfold Codegen.emit
  exact bind_ok.mpr ⟨(), m, noted, code.emitOp slots⟩

theorem Codes.emitAll {stmts : List Stmt} {codes : List (List Call)} (all : Codes stmts codes) {g : CodeGenerator}
    (top : g.fnLocals = []) :
    ∃ g', emitAll stmts g = .ok () g' ∧ g'.script = g.script ++ codes.flatten ∧ g'.fnLocals = [] := by
  induction all generalizing g with
  | nil => exact ⟨g, by simp [Codegen.emitAll, pure_ok], by simp, top⟩
  | cons first _ ih =>
    obtain ⟨m, ok₁, script₁, slots⟩ := first.emit top
    obtain ⟨g', ok₂, script₂, slots⟩ := ih slots
    refine ⟨g', ?_, by simp [script₂, script₁], slots⟩
    unfold Codegen.emitAll
    exact bind_ok.mpr ⟨(), m, ok₁, ok₂⟩

/-! ### The whole emission -/

theorem collectData_core {stmts : List Stmt} (core : ∀ s ∈ stmts, CoreStmt s) (g : CodeGenerator) (off : Int) :
    collectData stmts g off = .ok g := by
  induction stmts with
  | nil => rfl
  | cons s rest ih =>
    have more := ih fun s member => core s (List.mem_cons_of_mem _ member)
    have first := core s List.mem_cons_self
    cases s with
    | fnDef => exact first.elim
    | op line op =>
      have nothing : collectDatum g off op = .ok (g, off) := by
        cases op <;> first | rfl | exact first.elim
      simp only [collectData, nothing]
      exact more

theorem addCell_top {name : String} {n : Nat} {needed : Bool} {g : CodeGenerator} (top : g.fnLocals = []) :
    (addCell name n needed g).fnLocals = [] := by
  cases needed <;> exact top

theorem prepare_core (opts : Options) {p : Program} (core : ∀ s ∈ p.statements, CoreStmt s) :
    ∃ g, prepare opts p = .ok g ∧ g.fnLocals = [] := by
  obtain ⟨g, ok⟩ : ∃ g, prepare opts p = .ok g := by
    simp only [prepare, collectData_core core]
    exact ⟨_, rfl⟩
  refine ⟨g, ok, ?_⟩
  obtain ⟨m, collected, rest⟩ := bind_eq_ok.mp ok
  rw [collectData_core core] at collected
  cases collected
  cases rest
  exact addCell_top (addCell_top rfl)

/-- What follows the statements: the exit of the main program, or nothing. -/
theorem emitProgram_core {stmts : List Stmt} (core : ∀ s ∈ stmts, CoreStmt s) {codes : List (List Call)}
    (all : Codes stmts codes) {g : CodeGenerator} (top : g.fnLocals = []) (empty : g.script = []) :
    ∃ g' rest, emitProgram stmts g = .ok () g' ∧ g'.script = codes.flatten ++ rest ∧ (rest = [] ∨ rest = exitStub) := by
  have noFn : ∀ s ∈ stmts, isFn s = false := fun s member => by
    have stmt := core s member
    cases s with
    | op => rfl
    | fnDef => exact stmt.elim
  have main : (stmts.filter fun s => !isFn s) = stmts := List.filter_eq_self.mpr fun s member => by simp [noFn s member]
  have fns : stmts.filter isFn = [] := List.filter_eq_nil_iff.mpr fun s member => by simp [noFn s member]
  obtain ⟨m, ok, script, -⟩ := all.emitAll top
  rw [empty, List.nil_append] at script
  by_cases ends : (m.baremetal || endsExit stmts) = true
  · refine ⟨m, [], ?_, by simp [script], .inl rfl⟩
    have last : emitEnd stmts m = .ok () m :=
      bind_ok.mpr ⟨m, m, get_ok.mpr ⟨rfl, rfl⟩, by rw [if_pos ends, pure_ok]; exact ⟨rfl, rfl⟩⟩
    rw [emitProgram, main, fns]
    exact bind_ok.mpr ⟨(), m, ok, bind_ok.mpr ⟨(), m, last, by simp [emitAll, pure_ok]⟩⟩
  · refine ⟨m.withScript (m.script ++ exitStub), exitStub, ?_, by simp [script], .inr rfl⟩
    have last : emitEnd stmts m = .ok () (m.withScript (m.script ++ exitStub)) :=
      bind_ok.mpr ⟨m, m, get_ok.mpr ⟨rfl, rfl⟩, by rw [if_neg ends, asm_ok]⟩
    rw [emitProgram, main, fns]
    exact bind_ok.mpr ⟨(), m, ok, bind_ok.mpr ⟨(), _, last, by simp [emitAll, pure_ok]⟩⟩

/-! ### The assembler accepts the code -/

def Encodable (deterministic : Bool) (call : Call) : Prop := ∃ bs, call.encode deterministic = .ok bs

theorem mov_encodable {node : Expr} {o : Operand} (leaf : Leaf node o) (dst : Reg) (deterministic : Bool) :
    ∀ call ∈ o.mov dst, Encodable deterministic call := by
  cases leaf with
  | number n =>
    intro call member
    obtain rfl := List.mem_singleton.mp member
    exact ⟨_, rfl⟩
  | reg accepted =>
    intro call member
    simp only [Operand.mov, copyTo] at member
    split at member
    · cases member
    · obtain rfl := List.mem_singleton.mp member
      exact ⟨_, rfl⟩

theorem jcc_encodable {cond : String} (known : cond ∈ RELATIONS.keys) (label : String) (deterministic : Bool) :
    Encodable deterministic (.jcc cond label) := by
  have all : ∀ name ∈ RELATIONS.keys, (JCC_OPCODE.get? name).isSome := by decide
  obtain ⟨op, found⟩ := Option.isSome_iff_exists.mp (all cond known)
  exact ⟨[0x0F, op], by simp [Call.encode, index, found]; rfl⟩

theorem Code.encodable {op : Op} {calls : List Call} (code : Code op calls) (deterministic : Bool) :
    ∀ call ∈ calls, Encodable deterministic call := by
  intro call member
  cases code with
  | jumpIf label known =>
    obtain rfl := List.mem_singleton.mp member
    exact jcc_encodable known _ _
  | cmp hl hr =>
    simp only [List.append_assoc, List.mem_append, List.mem_cons, List.not_mem_nil, or_false] at member
    rcases member with rfl | member | (rfl | rfl) | member | rfl | rfl | rfl
    case inr.inl => exact mov_encodable hl _ _ call member
    case inr.inr.inr.inl => exact mov_encodable hr _ _ call member
    all_goals exact ⟨_, rfl⟩
  | set hd hv => exact mov_encodable hv _ _ call member
  | @plain op _ _ _ _ call' hd hv hop =>
    rcases List.mem_append.mp member with member | member
    · exact mov_encodable hv _ _ call member
    · obtain rfl := List.mem_singleton.mp member
      cases op with
      | add | sub | and | or | xor | mul => cases hop; exact ⟨_, rfl⟩
      | _ => cases hop
  | unary op hd =>
    obtain rfl := List.mem_singleton.mp member
    cases op <;> exact ⟨_, rfl⟩
  | push hv =>
    rcases List.mem_append.mp member with member | member
    · exact mov_encodable hv _ _ call member
    · obtain rfl := List.mem_singleton.mp member
      exact ⟨_, rfl⟩
  | _ =>
    obtain rfl := List.mem_singleton.mp member
    exact ⟨_, rfl⟩

theorem Codes.encodable {stmts : List Stmt} {codes : List (List Call)} (all : Codes stmts codes) (deterministic : Bool) :
    ∀ call ∈ codes.flatten, Encodable deterministic call := by
  induction all with
  | nil => intro call member; cases member
  | cons first _ ih =>
    intro call member
    rw [List.flatten_cons] at member
    rcases List.mem_append.mp member with member | member
    · obtain ⟨line, code⟩ := first
      exact code.encodable deterministic call member
    · exact ih call member

open Assembler (labelNames)

theorem labelNames_append (as bs : List Call) : labelNames (as ++ bs) = labelNames as ++ labelNames bs :=
  List.filterMap_append

theorem labelNames_mov (o : Operand) (dst : Reg) : labelNames (o.mov dst) = [] := by
  cases o with
  | reg r =>
    simp only [Operand.mov, copyTo]
    split <;> rfl
  | _ => rfl

theorem StmtCode.labels {s : Stmt} {calls : List Call} (code : StmtCode s calls) :
    labelNames calls = (labelName s).toList.map lbl := by
  obtain ⟨line, code⟩ := code
  cases code with
  | cmp hl hr => simp only [labelNames_append, labelNames_mov]; rfl
  | set hd hv => simp only [labelNames_mov]; rfl
  | @plain op _ _ _ _ _ hd hv hop =>
    simp only [labelNames_append, labelNames_mov]
    cases op with
    | add | sub | and | or | xor | mul => cases hop; rfl
    | _ => cases hop
  | unary op hd => cases op <;> rfl
  | push hv => simp only [labelNames_append, labelNames_mov]; rfl
  | _ => rfl

theorem Codes.labels {stmts : List Stmt} {codes : List (List Call)} (all : Codes stmts codes) :
    labelNames codes.flatten = (stmts.filterMap labelName).map lbl := by
  induction all with
  | nil => rfl
  | @cons s calls _ _ first _ ih =>
    rw [List.flatten_cons, labelNames_append, ih, first.labels, List.filterMap_cons]
    cases labelName s <;> rfl

/-- The assembler completes where no label is defined twice. -/
theorem run_core {stmts : List Stmt} {codes : List (List Call)} (all : Codes stmts codes) {rest : List Call}
    (ending : rest = [] ∨ rest = exitStub) (once : (stmts.filterMap labelName).Nodup) (deterministic : Bool) :
    ∃ a, (Assembler.empty deterministic).run (codes.flatten ++ rest) = .ok a := by
  refine Assembler.run_ok _ (fun call member => ?_) ?_ fun _ _ => rfl
  · rcases List.mem_append.mp member with member | member
    · exact all.encodable deterministic call member
    · rcases ending with rfl | rfl
      · cases member
      · simp only [exitStub, xorRegReg, List.mem_cons, List.not_mem_nil, or_false] at member
        rcases member with rfl | rfl | rfl <;> exact ⟨_, rfl⟩
  · have noLabels : labelNames rest = [] := by rcases ending with rfl | rfl <;> rfl
    rw [labelNames_append, noLabels, List.append_nil, all.labels]
    exact once.map lbl_injective

/-! ### Runs -/

/-- The listing of a program begins with the code of its statements. -/
structure Placed (stmts : List Stmt) (codes : List (List Call)) (L : Listing) : Prop where
  pieces : Codes stmts codes
  shape : ∃ rest, L.calls = codes.flatten ++ rest

/-- The position of the code of a statement. -/
def start (codes : List (List Call)) (k : Nat) : Nat := (codes.take k).flatten.length

theorem StmtCode.label {s : Stmt} {calls : List Call} (code : StmtCode s calls) {name : String}
    (named : labelName s = some name) : calls = [.label (lbl name)] := by
  obtain ⟨line, code⟩ := code
  cases code <;> first | (cases named; rfl) | cases named

section Placement

variable {stmts : List Stmt} {codes : List (List Call)} {L : Listing} (placed : Placed stmts codes L)
include placed

theorem Placed.code {k : Nat} {s : Stmt} (found : stmts[k]? = some s) :
    ∃ calls, StmtCode s calls ∧ L.At (start codes k) calls ∧ start codes (k + 1) = start codes k + calls.length := by
  obtain ⟨bound, rfl⟩ := List.getElem?_eq_some_iff.mp found
  have bound' : k < codes.length := by rw [← placed.pieces.length_eq]; exact bound
  obtain ⟨rest, shape⟩ := placed.shape
  have split : codes.flatten = (codes.take k).flatten ++ (codes[k] ++ (codes.drop (k + 1)).flatten) := by
    rw [← List.flatten_cons, ← List.drop_eq_getElem_cons bound', ← List.flatten_append, List.take_append_drop]
  have here : L.calls.drop (start codes k) = codes[k] ++ ((codes.drop (k + 1)).flatten ++ rest) := by
    rw [shape, split, List.append_assoc, start, List.drop_left, List.append_assoc]
  refine ⟨codes[k], List.Forall₂.get placed.pieces bound bound', ⟨_, here.symm⟩, ?_⟩
  rw [start, ← List.take_append_getElem bound', List.flatten_append, List.length_append]
  simp [start]

/-- A label is defined where its statement stands. -/
theorem Placed.defines {label : String} {k : Nat} (found : position stmts label = some k) :
    L.Defines (start codes k) (lbl label) := by
  obtain ⟨bound, named, -⟩ := List.findIdx?_eq_some_iff_getElem.mp found
  obtain ⟨calls, code, here, -⟩ := placed.code (List.getElem?_eq_getElem bound)
  rw [code.label (by simpa using named)] at here
  exact here

end Placement

/-- A comparison, as the flags show it. -/
theorem holds_relation : ∀ entry ∈ RELATIONS, ∃ k, jumpCondition entry.1 = some k ∧
    ∀ (f : Flags) (x y : Word), k.holds (f.sub x y false) = entry.2 x y := by
  simp only [RELATIONS, List.forall_mem_cons, List.not_mem_nil, false_implies, implies_true, and_true]
  exact ⟨⟨.e, rfl, X64.holds_e⟩, ⟨.ne, rfl, X64.holds_ne⟩, ⟨.l, rfl, X64.holds_l⟩, ⟨.g, rfl, X64.holds_g⟩,
    ⟨.le, rfl, X64.holds_le⟩, ⟨.ge, rfl, X64.holds_ge⟩, ⟨.b, rfl, X64.holds_b⟩, ⟨.be, rfl, X64.holds_be⟩,
    ⟨.a, rfl, X64.holds_a⟩, ⟨.ae, rfl, X64.holds_ae⟩, ⟨.ae, rfl, X64.holds_ae⟩⟩

/-- The jump of the machine is taken exactly when that of the source is. -/
theorem taken_condition {status : Status} {cond : String} {taken : Bool} (asked : status.taken cond = some taken) :
    ∃ k, jumpCondition cond = some k ∧ k.holds status.flags = taken := by
  cases status with
  | compared before left right =>
    obtain ⟨relation, found, rfl⟩ := Option.map_eq_some_iff.mp asked
    obtain ⟨k, named, holds⟩ := holds_relation _ (Dict.entry_of_get? found)
    exact ⟨k, named, holds _ _ _⟩
  | raw flags =>
    obtain ⟨k, found, rfl⟩ := Option.map_eq_some_iff.mp asked
    have all : ∀ entry ∈ CONDITION_CODES, jumpCondition entry.1 = some entry.2 := by decide
    exact ⟨k, all _ (Dict.entry_of_get? found), rfl⟩

theorem Agrees.goto {s : State} {c : Cpu} (agrees : Agrees s c) (k : Nat) : Agrees { s with next := k } c :=
  ⟨agrees.regs, agrees.flags, agrees.sp, agrees.stack⟩

section Runs

variable {stmts : List Stmt} {codes : List (List Call)} {L : Listing} (placed : Placed stmts codes L)
include placed

/-- One step of the source is a run of the listing between the positions of the statements. -/
theorem Placed.step {s t : State} {c : Cpu} (step : Core.step L.env.undefined stmts s = some t) (agrees : Agrees s c) :
    ∃ d, L.Steps (start codes s.next, c) (start codes t.next, d) ∧ Agrees t d := by
  unfold Core.step at step
  split at step
  case h_2 => cases step
  next line op found =>
  obtain ⟨calls, code, here, next⟩ := placed.code found
  obtain ⟨-, code⟩ := code
  by_cases noJump : ∀ label, op ≠ .goto label ∧ ∀ cond, op ≠ .jumpIf cond label
  · obtain ⟨on, d, run, agrees⟩ := code.straight L.address noJump step agrees
    rw [on, next]
    exact ⟨d, Listing.steps_of_effects here run, agrees⟩
  cases code with
  | goto label =>
    obtain ⟨k, target, rfl⟩ := Option.map_eq_some_iff.mp step
    exact ⟨c, .single (.jmp here (placed.defines target)), agrees.goto k⟩
  | @jumpIf cond label known =>
    obtain ⟨taken, asked, step⟩ := Option.bind_eq_some_iff.mp step
    obtain ⟨k, named, holds⟩ := taken_condition asked
    rw [← agrees.flags] at holds
    cases taken with
    | true =>
      obtain ⟨j, target, rfl⟩ := Option.map_eq_some_iff.mp step
      exact ⟨c, .single (.taken here named holds (placed.defines target)), agrees.goto j⟩
    | false =>
      cases step
      exact ⟨c, next ▸ .single (.fall here named holds), agrees.advance⟩
  | _ => exact absurd (fun _ => ⟨nofun, fun _ => nofun⟩) noJump

/-- A run of the source is a run of the listing. -/
theorem Placed.run {s t : State} (run : Run L.env.undefined stmts s t) {c : Cpu} (agrees : Agrees s c) :
    ∃ d, L.Steps (start codes s.next, c) (start codes t.next, d) ∧ Agrees t d := by
  induction run with
  | refl => exact ⟨c, .refl _, agrees⟩
  | tail _ once ih =>
    obtain ⟨m, first, agrees⟩ := ih
    obtain ⟨d, second, agrees⟩ := placed.step once agrees
    exact ⟨d, first.trans second, agrees⟩

end Runs

/-! ### The linked program -/

/-- The code offset of a statement: how much code there is when the statements before it are emitted. -/
def statementOffset (opts : Options) (p : Program) (k : Nat) : Nat :=
  match prepare opts p with
  | .error _ => 0
  | .ok g => match emitAll (p.statements.take k) g with
    | .ok _ g | .error _ g => g.codeLength

theorem statementOffset_eq {opts : Options} {p : Program} {g₀ : CodeGenerator} (prepared : prepare opts p = .ok g₀)
    (top : g₀.fnLocals = []) {codes : List (List Call)} {L : Listing} (placed : Placed p.statements codes L)
    (deterministic : L.deterministic = g₀.deterministic) (k : Nat) :
    statementOffset opts p k = L.offset (start codes k) := by
  obtain ⟨m, ok, script, -⟩ := Codes.emitAll (List.forall₂_take k placed.pieces) top
  obtain ⟨rest, shape⟩ := placed.shape
  have front : L.calls.take (start codes k) = (codes.take k).flatten := by
    rw [shape, ← List.take_append_drop k codes, List.flatten_append, List.append_assoc, start, List.take_append_drop,
      List.take_left]
  have kept := (emitAll_emission _ _ _ ok).deterministic
  simp only [statementOffset, prepared, ok, CodeGenerator.codeLength, Listing.offset, front, script,
    (prepare_ok prepared).1, List.nil_append, kept, deterministic]

/-- A state of the source with the first `n` words of the processor's stack, ready for the first statement. -/
def State.ofCpu (c : Cpu) (n : Nat) (room : 8 * n + 16 ≤ 2 ^ 64) : State :=
  ⟨0, fun r => c.reg r.1, .raw c.flags, c.reg .rsp,
    ⟨(List.range n).map fun i => c.mem.load (c.reg .rsp + BitVec.ofNat 64 (8 * i)) 8, by simpa using room⟩⟩

theorem agrees_ofCpu (c : Cpu) (n : Nat) (room : 8 * n + 16 ≤ 2 ^ 64) : Agrees (State.ofCpu c n room) c :=
  ⟨fun _ => rfl, rfl, rfl, X64.Memory.stackAt_read _ _ _⟩

/-- Every program of the core language whose labels are defined once compiles, and the linked text carries out
every run of the source: from any processor that agrees with a state, it goes from the offset of the statement that
is next to the offset of the statement that is next at the end, and to a processor that agrees again. Every
processor agrees with some state, with as many of the words on its stack as one likes. -/
theorem core_correct (opts : Options) (p : Program) (core : ∀ s ∈ p.statements, CoreStmt s)
    (once : (p.statements.filterMap labelName).Nodup) :
    ∃ g a, emitted opts p = .ok (g, a) ∧ ∀ linked, a.link (targetOffsets opts g a) = .ok linked →
      ∀ M : Machine, linked.code <+: M.code → (∀ c n room, Agrees (State.ofCpu c n room) c) ∧
        ∀ s t c, Run M.env.undefined p.statements s t → Agrees s c →
          ∃ d, M.Steps ⟨statementOffset opts p s.next, c⟩ ⟨statementOffset opts p t.next, d⟩ ∧ Agrees t d := by
  obtain ⟨codes, all⟩ := codes_of_core core
  obtain ⟨g₀, prepared, top⟩ := prepare_core opts core
  obtain ⟨empty, -, -⟩ := prepare_ok prepared
  obtain ⟨g, rest, emission, script, ending⟩ := emitProgram_core core all top empty
  obtain ⟨a, assembled⟩ := run_core all ending once g.deterministic
  have ok : emitted opts p = .ok (g, a) := emitted_ok.mpr ⟨g₀, prepared, emission, script ▸ assembled⟩
  have done := finished_of_emitted ok
  have deterministic : g.deterministic = g₀.deterministic := (emitProgram_emission _ _ _ emission).deterministic
  refine ⟨g, a, ok, fun linked link M text => ⟨agrees_ofCpu, fun s t c run agrees => ?_⟩⟩
  obtain ⟨L, shape⟩ : ∃ L : Listing, L = ⟨g.script, g.deterministic, targetOffsets opts g a, M.base, M.env⟩ := ⟨_, rfl⟩
  have placed : Placed p.statements codes L := ⟨all, rest, by rw [shape]; exact script⟩
  have loaded : L.Loaded M := by
    subst shape
    exact Listing.loaded_of_link done.run link (fun name o found => done.target_label found) rfl rfl text
  have offset := statementOffset_eq prepared top placed (by rw [shape]; exact deterministic)
  subst shape
  obtain ⟨d, steps, agrees⟩ := placed.run run agrees
  exact ⟨d, by rw [offset, offset]; exact loaded.steps steps, agrees⟩

/-- Two rounds of a loop. -/
def countdown : Program :=
  ⟨[.op 1 (.cpuBin .set "reg1" (.number 2)), .op 2 (.label "loop"), .op 3 (.cpuUnary .dec "reg1"),
    .op 4 (.cmp (.reg "reg1") (.number 0)), .op 5 (.jumpIf "neq" "loop")]⟩

def blank : Cpu := ⟨fun _ => 0, ⟨false, false, false, false, false, false, false⟩, fun _ => 0, []⟩

def idle : Env := ⟨fun _ => none, fun _ _ => 0, fun f _ _ => f⟩

def plainBuild : Options := ⟨false, false, false⟩

theorem core_correct_countdown :
    ∃ g a linked, emitted plainBuild countdown = .ok (g, a) ∧
      a.link (targetOffsets plainBuild g a) = .ok linked ∧
      ∃ d, (⟨linked.code, 0, idle⟩ : Machine).Steps ⟨0, blank⟩ ⟨37, d⟩ ∧ d.reg .rax = 0 := by
  obtain ⟨g, a, ok, simulates⟩ := core_correct plainBuild countdown
    (by decide) (by decide)
  have links : (match emitted plainBuild countdown with
      | .ok (g, a) => (a.link (targetOffsets plainBuild g a)).isOk
      | .error _ => false) = true := by decide
  simp only [ok] at links
  obtain ⟨linked, link⟩ := exists_of_isOk links
  obtain ⟨initial, final⟩ := simulates linked link ⟨linked.code, 0, idle⟩ (List.prefix_refl _)
  have counted : (runFor idle.undefined countdown.statements 9 (State.ofCpu blank 0 (by decide))).map
      (fun t => (t.next, t.regs ⟨.rax, by decide⟩)) = some (5, 0) := by decide
  obtain ⟨t, ran, result⟩ := Option.map_eq_some_iff.mp counted
  obtain ⟨d, steps, agrees⟩ := final _ t blank (run_of_runFor _ _ ran) (initial blank 0 (by decide))
  obtain ⟨next, zero⟩ := Prod.mk.inj result
  have first : statementOffset plainBuild countdown (State.ofCpu blank 0 (by decide)).next = 0 := by decide
  have last : statementOffset plainBuild countdown t.next = 37 := by rw [next]; decide
  rw [first, last] at steps
  exact ⟨g, a, linked, ok, link, d, steps, (agrees.regs ⟨.rax, by decide⟩).trans zero⟩

end Aclm.Core
