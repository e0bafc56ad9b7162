import Aclm.Codegen.Generator

/-! Operands: what a leaf of an expression refers to, and the code that evaluates an expression into
a register or finds the base register of an address. -/

set_option autoImplicit false

namespace Aclm

open X64 (Reg)
open Encoder (Call movRegMem addRegReg subRegReg)

namespace Codegen

/-- What a leaf refers to. -/
inductive Operand where
  | imm (value : Int)
  | reg (r : Reg)
  /-- A local, by its offset from RBP. -/
  | slot (off : Int)
  | address (label : String)
  deriving DecidableEq, Repr

/-- The code that brings an operand into a register. -/
def Operand.mov (dst : Reg) : Operand → List Call
  | imm value => [.movRegImm64 dst value]
  | reg r => copyTo dst r
  | slot off => [movRegMem dst .rbp off none 1]
  | address label => [.leaRegLabel dst label]

/-- `repr` of a list of names. -/
def reprNames (names : List String) : String :=
  "[" ++ ", ".intercalate (names.map fun name => "'" ++ name ++ "'") ++ "]"

def reprFields (s : StructLayout) : String :=
  ", ".intercalate (s.fields.map fun f => s!"{f.1}@+{f.2}")

end Codegen

namespace CodeGenerator

open Codegen

variable (g : CodeGenerator)

def unknownIdentifier (name : String) : PyErr :=
  .codegenError (s!"unknown identifier '{name}'\n" ++
    s!"  hint: data names={reprNames (g.dataLayout.keys.take 12)} " ++
    s!"structs={reprNames (g.structs.keys.take 8)} locals={reprNames g.fnLocals.keys}")

def unknownField (s : StructLayout) (struct field : String) : PyErr :=
  .codegenError (s!"unknown field '{struct}.{field}'\n  {struct} fields: {reprFields s} (size {s.size})")

/-- The value of an integer constant; a string constant has none. -/
def integerConst (name : String) : Option Int :=
  if g.stringLens.contains name then none else g.dataConsts.get? name

/-- An identifier: argument, local, integer constant, data or struct, whichever comes first. -/
def identOperand (name : String) : Except PyErr Operand :=
  match g.fnArgs.get? name with
  | some src => .ok (.reg src)
  | none => match g.fnLocals.get? name with
    | some off => .ok (.slot off)
    | none => match g.integerConst name with
      | some value => .ok (.imm value)
      | none =>
        if g.dataLayout.contains name then .ok (.address (data name))
        else match g.structs.get? name with
          | some s => .ok (.imm s.size)
          | none => .error (g.unknownIdentifier name)

def fieldOperand (struct field : String) : Except PyErr Operand :=
  match g.structs.get? struct with
  | none => .error (.codegenError (s!"unknown struct '{struct}'\n" ++ s!"  known structs: {reprNames g.structs.keys}"))
  | some s => match s.fields.get? field with
    | none => .error (unknownField s struct field)
    | some off => .ok (.imm off)

/-- The leaves of an expression. -/
def operand : Expr → Except PyErr Operand
  | .number value => .ok (.imm value)
  | .reg name => (resolve name).map .reg
  | .ident name => g.identOperand name
  | .structFieldRef struct field => g.fieldOperand struct field
  | node => .error (.codegenError s!"bad operand {node.typeName}")

/-- `_resolve_offset` -/
def resolveOffset : Expr → Except PyErr Int
  | .number value => .ok value
  | .structFieldRef struct field =>
    match g.structs.get? struct with
    | none => .error (.codegenError s!"unknown struct '{struct}'")
    | some s => match s.fields.get? field with
      | none => .error (.codegenError s!"unknown field '{struct}.{field}'")
      | some off => .ok off
  | .binExpr op left right => do
    let l ← resolveOffset left
    let r ← resolveOffset right
    match op with
    | .add => .ok (l + r)
    | .sub => .ok (l - r)
    | .mul => .ok (l * r)
  | node => .error (.codegenError s!"non-constant memory offset {node.typeName}")

end CodeGenerator

namespace Codegen

def combine : ExprOp → Call
  | .add => addRegReg .r11 .r12
  | .sub => subRegReg .r11 .r12
  | .mul => .imulRegReg .r11 .r12

/-- `_eval`: a binary node goes through R11 and R12. -/
def eval : Expr → Reg → Gen Unit
  | .binExpr op left right, dst => do
    eval left .r11
    asm [.pushReg .r11]
    eval right .r12
    asm [.popReg .r11]
    asm [combine op]
    asm (copyTo dst .r11)
  | node, dst => do
    let operand ← ofExcept ((← get).operand node)
    asm (operand.mov dst)

def evalOr (node : Option Expr) (dst : Reg) (default : List Call) : Gen Unit :=
  match node with
  | some node => eval node dst
  | none => asm default

/-- `_base_reg` -/
def baseReg : Expr → Gen Reg
  | .reg name => reg name
  | .ident name => do
    match (← get).fnLocals.get? name with
    | some off =>
      asm [movRegMem .r13 .rbp off none 1]
      return .r13
    | none =>
      asm [.leaRegLabel .r11 (data name)]
      return .r11
  | _ => codegenError "bad memory base"

/-- `_base_phys` -/
def basePhys : Expr → Gen Reg
  | .reg name => reg name
  | .ident name => do
    asm [.leaRegLabel .r12 (data name)]
    return .r12
  | .number value => do
    asm [.movRegImm64 .r12 value]
    return .r12
  | node => codegenError s!"bad base <class 'ACLM.ast_nodes.{node.typeName}'>"

/-- The index register of an address; anything but a register is evaluated into R13. -/
def indexReg : Option Expr → Gen (Option Reg)
  | none => return none
  | some (.reg name) => do return some (← reg name)
  | some node => do
    eval node .r13
    return some .r13

/-! ### The code of an evaluation -/

/-- What `eval` appends. -/
def evalCalls (g : CodeGenerator) : Expr → Reg → Except PyErr (List Call)
  | .binExpr op left right, dst => do
    let l ← evalCalls g left .r11
    let r ← evalCalls g right .r12
    .ok (l ++ [.pushReg .r11] ++ r ++ [.popReg .r11, combine op] ++ copyTo dst .r11)
  | node, dst => (g.operand node).map (Operand.mov dst)

@[simp] theorem operand_withScript (g : CodeGenerator) (s : List Call) (node : Expr) :
    (g.withScript s).operand node = g.operand node := by
  cases node <;> rfl

@[simp] theorem operand_nextLabel (g : CodeGenerator) (node : Expr) : g.nextLabel.operand node = g.operand node := by
  cases node <;> rfl

@[simp] theorem evalCalls_withScript (g : CodeGenerator) (s : List Call) (node : Expr) (dst : Reg) :
    evalCalls (g.withScript s) node dst = evalCalls g node dst := by
  induction node generalizing dst with
  | binExpr op left right ihl ihr => simp only [evalCalls, ihl, ihr]
  | _ => simp only [evalCalls, operand_withScript]

theorem leaf_ok {g g' : CodeGenerator} {node : Expr} {dst : Reg} {u : Unit} :
    (do let operand ← ofExcept ((← get).operand node); asm (operand.mov dst) : Gen Unit) g = .ok u g' ↔
      ∃ calls, (g.operand node).map (Operand.mov dst) = .ok calls ∧ g' = g.withScript (g.script ++ calls) := by
  simp only [bind_ok, get_ok, ofExcept_ok, asm_ok]
  cases found : g.operand node with
  | error e => simp [Except.map, found]
  | ok operand => simp [Except.map, found]

theorem eval_ok {g g' : CodeGenerator} {node : Expr} {dst : Reg} {u : Unit} :
    eval node dst g = .ok u g' ↔
      ∃ calls, evalCalls g node dst = .ok calls ∧ g' = g.withScript (g.script ++ calls) := by
  induction node generalizing g g' dst with
  | binExpr op left right ihl ihr =>
    simp only [eval, bind_ok, ihl, ihr, asm_ok, evalCalls]
    cases hl : evalCalls g left .r11 with
    | error e => simp [bind, Except.bind]
    | ok l =>
      cases hr : evalCalls g right .r12 with
      | error e => simp [bind, Except.bind, hr]
      | ok r => simp [bind, Except.bind, hr]
  | _ => exact leaf_ok

theorem eval_bind_ok {β : Type} {b : β} {g g' : CodeGenerator} {node : Expr} {dst : Reg} {f : Unit → Gen β} :
    (eval node dst >>= f) g = .ok b g' ↔
      ∃ calls, evalCalls g node dst = .ok calls ∧ f () (g.withScript (g.script ++ calls)) = .ok b g' := by
  simp only [bind_ok, eval_ok]
  constructor
  · rintro ⟨_, _, ⟨calls, appended, rfl⟩, rest⟩
    exact ⟨calls, appended, rest⟩
  · rintro ⟨calls, appended, rest⟩
    exact ⟨(), _, ⟨calls, appended, rfl⟩, rest⟩

end Codegen

end Aclm
