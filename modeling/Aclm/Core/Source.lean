import Aclm.Ast
import Aclm.Regs
import Aclm.X64.Flags
import Aclm.X64.Memory
import Mathlib.Logic.Relation

/-! The core language by itself: programs of labels, jumps, comparisons, register arithmetic and stack
operations, and what they mean. A comparison is remembered by its operands, and a jump asks how they
compare; nothing here mentions the code that is generated. -/

set_option autoImplicit false

namespace Aclm.Core

open X64 (Word Flags Reg Cond)

/-! ### Programs -/

/-- A name that `resolve` accepts. -/
def Accepted (name : String) : Prop := ∃ r, resolve name = .ok r

instance (name : String) : Decidable (Accepted name) :=
  match h : resolve name with
  | .ok r => .isTrue ⟨r, h⟩
  | .error _ => .isFalse fun ⟨_, accepted⟩ => nomatch h.symm.trans accepted

def CoreOperand : Expr → Prop
  | .number _ => True
  | .reg name => Accepted name
  | _ => False

/-- The relations that a jump can ask for, between the left and the right operand of the comparison. -/
def RELATIONS : Dict (Word → Word → Bool) :=
  [("eq", fun x y => x = y), ("neq", fun x y => x ≠ y), ("lt", fun x y => x.toInt < y.toInt),
   ("gt", fun x y => y.toInt < x.toInt), ("lte", fun x y => x.toInt ≤ y.toInt),
   ("gte", fun x y => y.toInt ≤ x.toInt), ("below", fun x y => x < y), ("be", fun x y => x ≤ y),
   ("above", fun x y => y < x), ("ae", fun x y => y ≤ x), ("abe", fun x y => y ≤ x)]

/-- The condition a jump asks for where the last operation was no comparison. -/
def CONDITION_CODES : Dict Cond :=
  [("eq", .e), ("neq", .ne), ("lt", .l), ("gt", .g), ("lte", .le), ("gte", .ge), ("below", .b), ("be", .be),
   ("above", .a), ("ae", .ae), ("abe", .ae)]

/-- The value of an operation and the flags it leaves, from the flags and the operands before. -/
def binary (undefined : Flags → Word → Word → Flags) (op : CpuBinOp) (f : Flags) (a b : Word) :
    Option (Word × Flags) :=
  match op with
  | .set => some (b, f)
  | .add => some (a + b, f.add a b false)
  | .sub => some (a - b, f.sub a b false)
  | .and => some (a &&& b, f.logic (undefined f a b) (a &&& b))
  | .or => some (a ||| b, f.logic (undefined f a b) (a ||| b))
  | .xor => some (a ^^^ b, f.logic (undefined f a b) (a ^^^ b))
  | .mul => some (a * b, f.imul (undefined f a b) a b)
  | _ => none

def unary (op : CpuUnaryOp) (f : Flags) (a : Word) : Word × Flags :=
  match op with
  | .not => (~~~a, f)
  | .neg => (-a, f.sub 0 a false)
  | .inc => (a + 1, f.inc a)
  | .dec => (a - 1, f.dec a)

def CoreBinOp : CpuBinOp → Prop
  | .set | .add | .sub | .and | .or | .xor | .mul => True
  | _ => False

def CoreOp : Op → Prop
  | .label _ | .goto _ => True
  | .jumpIf cond _ => cond ∈ RELATIONS.keys
  | .cmp left right => CoreOperand left ∧ CoreOperand right
  | .cpuBin op dest value => CoreBinOp op ∧ Accepted dest ∧ CoreOperand value
  | .cpuUnary _ dest => Accepted dest
  | .stackPush value => CoreOperand value
  | .stackPop dest => Accepted dest
  | _ => False

def CoreStmt : Stmt → Prop
  | .op _ op => CoreOp op
  | .fnDef .. => False

instance (node : Expr) : Decidable (CoreOperand node) := by
  cases node <;> unfold CoreOperand <;> infer_instance

instance (op : CpuBinOp) : Decidable (CoreBinOp op) := by
  cases op <;> unfold CoreBinOp <;> infer_instance

instance (op : Op) : Decidable (CoreOp op) := by
  cases op <;> unfold CoreOp <;> infer_instance

instance (s : Stmt) : Decidable (CoreStmt s) := by
  cases s <;> unfold CoreStmt <;> infer_instance

def labelName : Stmt → Option String
  | .op _ (.label name) => some name
  | _ => none

/-- The statement that a label stands at. -/
def position (stmts : List Stmt) (label : String) : Option Nat :=
  stmts.findIdx? fun s => labelName s = some label

/-! ### States -/

/-- The registers a program can name. -/
abbrev UserReg := {r : Reg // User r}

def resolveUser (name : String) : Option UserReg :=
  match h : resolve name with
  | .ok r => some ⟨r, user_of_resolve h⟩
  | .error _ => none

/-- The flags: what was compared last, or what the last operation left. -/
inductive Status where
  | compared (before : Flags) (left right : Word)
  | raw (flags : Flags)

def Status.flags : Status → Flags
  | compared before left right => before.sub left right false
  | raw flags => flags

/-- Whether a jump is taken. -/
def Status.taken (cond : String) : Status → Option Bool
  | compared _ left right => (RELATIONS.get? cond).map fun relation => relation left right
  | raw flags => (CONDITION_CODES.get? cond).map fun code => code.holds flags

/-- The words on the stack, top first. There are never so many that the next one, or the two words that
a comparison puts under the top for a while, would meet the bottom on the address circle. -/
abbrev Stack := {words : List Word // 8 * words.length + 16 ≤ 2 ^ 64}

def Stack.push (stack : Stack) (v : Word) : Option Stack :=
  if room : 8 * (v :: stack.1).length + 16 ≤ 2 ^ 64 then some ⟨v :: stack.1, room⟩ else none

def Stack.pop : Stack → Option (Word × Stack)
  | ⟨[], _⟩ => none
  | ⟨v :: words, room⟩ => some (v, ⟨words, by simp only [List.length_cons] at room; omega⟩)

structure State where
  /-- The statement to execute, by its index. -/
  next : Nat
  regs : UserReg → Word
  status : Status
  /-- The address of the top of the stack. -/
  sp : Word
  stack : Stack

namespace State

variable (s : State)

def advance : State := { s with next := s.next + 1 }

/-- `r` is given a value, and the operation leaves its flags. -/
def assign (r : UserReg) (v : Word) (status : Status) : State :=
  { s with next := s.next + 1, regs := fun q => if q = r then v else s.regs q, status := status }

def value : Expr → Option Word
  | .number n => some (BitVec.ofInt 64 n)
  | .reg name => (resolveUser name).map s.regs
  | _ => none

end State

/-! ### Steps -/

section Steps

variable (undefined : Flags → Word → Word → Flags) (stmts : List Stmt)

/-- One operation; `none` where it is not of the core language, a label is not defined or the stack is
empty or full. -/
def perform (s : State) : Op → Option State
  | .label _ => some s.advance
  | .goto label => (position stmts label).map fun i => { s with next := i }
  | .jumpIf cond label => do
    if ← s.status.taken cond then (position stmts label).map fun i => { s with next := i } else some s.advance
  | .cmp left right => do
    some { s.advance with status := .compared s.status.flags (← s.value left) (← s.value right) }
  | .cpuBin op dest value => do
    let r ← resolveUser dest
    let (v, f) ← binary undefined op s.status.flags (s.regs r) (← s.value value)
    some (s.assign r v (if op = .set then s.status else .raw f))
  | .cpuUnary op dest => do
    let r ← resolveUser dest
    let (v, f) := unary op s.status.flags (s.regs r)
    some (s.assign r v (if op = .not then s.status else .raw f))
  | .stackPush value => do
    some { s.advance with sp := s.sp - 8, stack := ← s.stack.push (← s.value value) }
  | .stackPop dest => do
    let r ← resolveUser dest
    let (v, rest) ← s.stack.pop
    some { s.assign r v s.status with sp := s.sp + 8, stack := rest }
  | _ => none

def step (s : State) : Option State :=
  match stmts[s.next]? with
  | some (.op _ op) => perform undefined stmts s op
  | _ => none

/-- Zero or more steps. -/
def Run : State → State → Prop := Relation.ReflTransGen fun s t => step undefined stmts s = some t

/-- `n` steps. -/
def runFor : Nat → State → Option State
  | 0, s => some s
  | n + 1, s => (step undefined stmts s).bind (runFor n)

theorem run_of_runFor {n : Nat} {s t : State} (ran : runFor undefined stmts n s = some t) : Run undefined stmts s t := by
  induction n generalizing s with
  | zero => cases ran; exact .refl
  | succ n ih =>
    obtain ⟨m, first, rest⟩ := Option.bind_eq_some_iff.mp ran
    exact .head first (ih rest)

end Steps

end Aclm.Core
