import Aclm.Parser.Reader
import Aclm.Ast
import Aclm.Regs

/-! Expressions, and the addresses between brackets. -/

set_option autoImplicit false

namespace Aclm.Parse

/-- A `while` over the operators of one precedence, with `next` for the operands. -/
def chain (operator : T → Option ExprOp) (next : Parse Expr) : Nat → Expr → Parse Expr
  | 0, _ => exhausted
  | n + 1, node => do
    match operator (← kind) with
    | none => return node
    | some op =>
      let _ ← adv
      let right ← next
      chain operator next n (.binExpr op node right)

def mulOperator : T → Option ExprOp
  | .star => some .mul
  | _ => none

def addOperator : T → Option ExprOp
  | .plus => some .add
  | .minus => some .sub
  | _ => none

/-- `_expr_mul` -/
def exprMul (primary : Parse Expr) : Parse Expr := do
  let node ← primary
  chain mulOperator primary ((← remaining) + 1) node

/-- `_expr_add` -/
def exprAdd (primary : Parse Expr) : Parse Expr := do
  let node ← exprMul primary
  chain addOperator (exprMul primary) ((← remaining) + 1) node

/-- `_primary`, with the number of parentheses that can still be opened. -/
def primaryIn : Nat → Parse Expr
  | 0 => exhausted
  | n + 1 => do
    let t ← peek
    match t.kind with
    | .lparen =>
      let _ ← adv
      let node ← exprAdd (primaryIn n)
      let _ ← expectFor .rparen "closing )"
      return node
    | .number =>
      let _ ← adv
      return .number (← int 0 t.value)
    | .string =>
      let _ ← adv
      return .string t.value
    | .ident =>
      let _ ← adv
      if isRegName t.value then return .reg t.value
      if ← accept .dot then return .structFieldRef t.value (← name)
      return .ident t.value
    | _ => failAt t "expected operand"

/-- `_primary` -/
def primary : Parse Expr := do primaryIn ((← remaining) + 1)

/-- `_operand` -/
def operand : Parse Expr := do exprAdd (primaryIn ((← remaining) + 1))

def optOperand : Parse (Option Expr) := do
  if ← atEnd then return none
  some <$> operand

/-- Operands to the end of the statement, with or without commas. -/
def operandsFrom : Nat → List Expr → Parse (List Expr)
  | 0, _ => exhausted
  | n + 1, args => do
    if ← atEnd then return args
    if ← accept .comma then operandsFrom n args
    else operandsFrom n (args ++ [← operand])

def operands : Parse (List Expr) := do operandsFrom ((← remaining) + 1) []

/-! ### Addresses -/

/-- What is read between the brackets. An offset that is an `int` is a number here. -/
structure Address where
  base : Expr
  offset : Expr
  index : Option Expr
  scale : Int
  deriving DecidableEq, Repr

def checkScale (msg : String) (scale : Int) : Parse Int :=
  if scale = 1 ∨ scale = 2 ∨ scale = 4 ∨ scale = 8 then return scale else fail (.syntaxError msg)

/-- `off += n` -/
def addNumber (n : Int) : Expr → Parse Expr
  | .number off => return .number (off + n)
  | off => fail (.typeError s!"unsupported operand type(s) for +=: '{off.typeName}' and 'int'")

/-- A further part of the offset that is no literal. -/
def addOffset (part : Expr) : Expr → Expr
  | .number 0 => part
  | off => .binExpr .add off part

/-- One operand of `_mem_addr` behind a plus sign. -/
def memPart (a : Address) : Expr → Parse Address
  | .binExpr .mul (.reg index) (.number scale) => do
    let scale ← checkScale "scale must be 1,2,4,8" scale
    return { a with index := some (.reg index), scale }
  | .reg index => do
    if ← accept .star then
      let scale ← checkScale "scale must be 1,2,4,8" (← number)
      return { a with index := some (.reg index), scale }
    return { a with index := some (.reg index) }
  | .number n => match a.offset with
    | .number off => return { a with offset := .number (off + n) }
    | off => return { a with offset := .binExpr .add off (.number n) }
  | .string value => return { a with index := some (.string value) }
  | part => return { a with offset := addOffset part a.offset }

def memParts : Nat → Address → Parse Address
  | 0, _ => exhausted
  | n + 1, a => do
    if ← accept .plus then
      if (← kind) = .number then
        let offset ← addNumber (← int 0 (← adv).value) a.offset
        memParts n { a with offset }
      else
        memParts n (← memPart a (← operand))
    else return a

/-- `_mem_addr` -/
def memAddr : Parse Address := do
  let _ ← expect .lbrack
  let base ← primary
  let a ← memParts ((← remaining) + 1) ⟨base, .number 0, none, 1⟩
  let _ ← expect .rbrack
  return a

/-- `[base + off]` where it is read with the rule for operands. -/
def baseOffset : Parse (Expr × Int) := do
  let _ ← expect .lbrack
  let base ← operand
  let off ← if ← accept .plus then number else pure 0
  let _ ← expect .rbrack
  return (base, off)

/-- The terms of `cpu:lea` behind its base: index, scale and offset. -/
def leaParts : Nat → Option Expr → Int → Int → Parse (Option Expr × Int × Int)
  | 0, _, _, _ => exhausted
  | n + 1, index, scale, offset => do
    if ← accept .plus then
      if (← kind) = .number then leaParts n index scale (offset + (← int 0 (← adv).value))
      else match ← primary with
        | .binExpr .mul (.reg name) (.number scale) =>
          leaParts n (some (.reg name)) (← checkScale "lea scale must be 1,2,4,8" scale) offset
        | .reg name =>
          if ← accept .star then
            leaParts n (some (.reg name)) (← checkScale "lea scale must be 1,2,4,8" (← number)) offset
          else leaParts n (some (.reg name)) scale offset
        | _ => fail (.syntaxError "bad lea address form")
    else return (index, scale, offset)

end Aclm.Parse
