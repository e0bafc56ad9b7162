import Aclm.Ast
import Aclm.Regs
import Aclm.Encoder.Assembler
import Aclm.Encoder.Instructions

/-! The code generator's state, and the steps its emitters are made of.
The assembler is kept as the calls made to it so far; `generate` runs them. -/

set_option autoImplicit false

namespace Aclm

open X64 (Byte Reg)
open Encoder (Call size)

namespace Codegen

structure StructLayout where
  fields : Dict Int
  size : Int
  deriving DecidableEq, Repr

/-- The pieces of code that are emitted by the first statement that needs them. -/
inductive Stub where
  | idtHandler | irq0 | pf | sysentry | irq0Full | nosys | sysdispatch | nmi
  deriving DecidableEq, Repr

structure AssertBytes where
  name : String
  limit : Int
  op : AssertOp
  codeOff : Nat
  deriving DecidableEq, Repr

end Codegen

open Codegen (StructLayout Stub)

structure CodeGenerator where
  script : List Call
  deterministic : Bool
  dataLayout : Dict Int
  dataBytes : List Byte
  dataConsts : Dict Int
  stringLens : Dict Nat
  labelI : Nat
  assertBytes : List Codegen.AssertBytes
  assertSizes : List (String × Int)
  /-- `emit_listing or teach_mode`, and the line and code offset of each statement emitted. -/
  listing : Bool
  teachMap : List (Int × Nat)
  baremetal : Bool
  structs : Dict StructLayout
  fnLocals : Dict Int
  fnArgs : Dict Reg
  inFn : Bool
  emitted : List Stub
  deriving DecidableEq, Repr

/-- A step of the generator; what was done before an exception stays done. -/
abbrev Gen := EStateM PyErr CodeGenerator

namespace CodeGenerator

/-- `CodeGenerator()` -/
def new (listing : Bool) : CodeGenerator :=
  { script := [], deterministic := false, dataLayout := [], dataBytes := [], dataConsts := [], stringLens := [],
    labelI := 0, assertBytes := [], assertSizes := [], listing := listing, teachMap := [], baremetal := false,
    structs := [], fnLocals := [], fnArgs := [], inFn := false, emitted := [] }

/-- `len(self.asm.code)` -/
def codeLength (g : CodeGenerator) : Nat := size g.deterministic g.script

def withScript (g : CodeGenerator) (script : List Call) : CodeGenerator := { g with script := script }

@[simp] theorem withScript_script (g : CodeGenerator) (s : List Call) : (g.withScript s).script = s := rfl
@[simp] theorem withScript_withScript (g : CodeGenerator) (s t : List Call) :
    (g.withScript s).withScript t = g.withScript t := rfl
@[simp] theorem withScript_self (g : CodeGenerator) : g.withScript g.script = g := rfl
@[simp] theorem withScript_fnLocals (g : CodeGenerator) (s : List Call) : (g.withScript s).fnLocals = g.fnLocals := rfl
@[simp] theorem withScript_fnArgs (g : CodeGenerator) (s : List Call) : (g.withScript s).fnArgs = g.fnArgs := rfl
@[simp] theorem withScript_structs (g : CodeGenerator) (s : List Call) : (g.withScript s).structs = g.structs := rfl
@[simp] theorem withScript_dataLayout (g : CodeGenerator) (s : List Call) :
    (g.withScript s).dataLayout = g.dataLayout := rfl
@[simp] theorem withScript_dataConsts (g : CodeGenerator) (s : List Call) :
    (g.withScript s).dataConsts = g.dataConsts := rfl
@[simp] theorem withScript_stringLens (g : CodeGenerator) (s : List Call) :
    (g.withScript s).stringLens = g.stringLens := rfl
@[simp] theorem withScript_labelI (g : CodeGenerator) (s : List Call) : (g.withScript s).labelI = g.labelI := rfl

/-- The generator after `new_label`. -/
def nextLabel (g : CodeGenerator) : CodeGenerator := { g with labelI := g.labelI + 1 }

@[simp] theorem nextLabel_script (g : CodeGenerator) : g.nextLabel.script = g.script := rfl
@[simp] theorem nextLabel_labelI (g : CodeGenerator) : g.nextLabel.labelI = g.labelI + 1 := rfl

end CodeGenerator

namespace Codegen

/-- Assembler calls, in order. -/
def asm (calls : List Call) : Gen Unit := modify fun g => g.withScript (g.script ++ calls)

def ofExcept {α : Type} : Except PyErr α → Gen α
  | .ok v => pure v
  | .error e => throw e

/-- `resolve(name)` -/
def reg (name : String) : Gen Reg := ofExcept (resolve name)

def codegenError {α : Type} (msg : String) : Gen α := throw (.codegenError msg)

/-- `new_label(prefix)` -/
def newLabel (pfx : String) : Gen String := do
  modify fun g => { g with labelI := g.labelI + 1 }
  return s!"__aclm_{pfx}_{(← get).labelI}"

/-- The label of `new_label(prefix)` that is the `n`-th of all. -/
def freshLabel (pfx : String) (n : Nat) : String := s!"__aclm_{pfx}_{n}"

/-- `__lbl_name` -/
def lbl (name : String) : String := "__lbl_" ++ name

/-- `__data_name` -/
def data (name : String) : String := "__data_" ++ name

/-- Data that is reserved by the first statement that needs it. -/
def reserve (name : String) (bytes : List Byte) : Gen Unit := do
  unless (← get).dataLayout.contains name do
    modify fun g => { g with
      dataLayout := g.dataLayout.set name g.dataBytes.length
      dataBytes := g.dataBytes ++ bytes }

/-- `b"\x00" * n` -/
def zeroBytes (n : Int) : List Byte := List.replicate n.toNat 0

/-- Code that is emitted by the first statement that needs it. -/
def once (stub : Stub) (calls : List Call) : Gen Unit := do
  unless stub ∈ (← get).emitted do
    asm calls
    modify fun g => { g with emitted := stub :: g.emitted }

def pushes (rs : List Reg) : List Call := rs.map .pushReg

/-- `r` as the destination of a value in RAX or another fixed register: nothing moves onto itself. -/
def copyTo (dst src : Reg) : List Call := if dst = src then [] else [.movRegReg dst src]

/-! ### Steps that succeed -/

section Steps

variable {α β : Type} {g g' : CodeGenerator}

theorem bind_ok {x : Gen α} {f : α → Gen β} {b : β} :
    (x >>= f) g = .ok b g' ↔ ∃ a m, x g = .ok a m ∧ f a m = .ok b g' := by
  change EStateM.bind x f g = _ ↔ _
  unfold EStateM.bind
  cases x g with
  | ok a m => simp
  | error e m => simp

theorem pure_ok {a b : α} : (pure a : Gen α) g = .ok b g' ↔ b = a ∧ g' = g := by
  change EStateM.Result.ok a g = _ ↔ _
  simp [eq_comm]

theorem get_ok {h : CodeGenerator} : (get : Gen CodeGenerator) g = .ok h g' ↔ h = g ∧ g' = g := by
  change EStateM.Result.ok g g = _ ↔ _
  simp [eq_comm]

theorem modify_ok {f : CodeGenerator → CodeGenerator} {u : Unit} :
    (modify f : Gen Unit) g = .ok u g' ↔ g' = f g := by
  change EStateM.Result.ok () (f g) = _ ↔ _
  simp [eq_comm]

theorem throw_ok {e : PyErr} {a : α} : ¬ (throw e : Gen α) g = .ok a g' := by
  change ¬ EStateM.Result.error e g = _
  simp

theorem asm_ok {calls : List Call} {u : Unit} :
    asm calls g = .ok u g' ↔ g' = g.withScript (g.script ++ calls) := modify_ok

theorem ofExcept_ok {x : Except PyErr α} {a : α} : ofExcept x g = .ok a g' ↔ x = .ok a ∧ g' = g := by
  cases x with
  | ok v => simp [ofExcept, pure_ok, eq_comm]
  | error e => simp [ofExcept, throw_ok]

theorem reg_ok {name : String} {r : Reg} : reg name g = .ok r g' ↔ resolve name = .ok r ∧ g' = g := ofExcept_ok

theorem newLabel_ok {pfx name : String} :
    newLabel pfx g = .ok name g' ↔
      name = s!"__aclm_{pfx}_{g.labelI + 1}" ∧ g' = { g with labelI := g.labelI + 1 } := by
  simp only [newLabel, bind_ok, modify_ok, get_ok, pure_ok]
  constructor
  · rintro ⟨-, -, rfl, -, -, ⟨rfl, rfl⟩, rfl, rfl⟩
    exact ⟨rfl, rfl⟩
  · rintro ⟨rfl, rfl⟩
    exact ⟨(), _, rfl, _, _, ⟨rfl, rfl⟩, rfl, rfl⟩

/-! The same as rules for the head of a sequence: they read a whole emitter off. -/

variable {b : β}

theorem get_bind_ok {f : CodeGenerator → Gen β} : (get >>= f) g = .ok b g' ↔ f g g = .ok b g' := by
  simp [bind_ok, get_ok]

theorem modify_bind_ok {m : CodeGenerator → CodeGenerator} {f : Unit → Gen β} :
    (modify m >>= f) g = .ok b g' ↔ f () (m g) = .ok b g' := by
  simp only [bind_ok, modify_ok, exists_eq_left]
  exact ⟨fun ⟨_, rest⟩ => rest, fun rest => ⟨(), rest⟩⟩

theorem asm_bind_ok {calls : List Call} {f : Unit → Gen β} :
    (asm calls >>= f) g = .ok b g' ↔ f () (g.withScript (g.script ++ calls)) = .ok b g' := modify_bind_ok

theorem throw_bind_ok {e : PyErr} {f : α → Gen β} : ¬ ((throw e : Gen α) >>= f) g = .ok b g' := by
  simp [bind_ok, throw_ok]

theorem ofExcept_bind_ok {x : Except PyErr α} {f : α → Gen β} :
    (ofExcept x >>= f) g = .ok b g' ↔ ∃ a, x = .ok a ∧ f a g = .ok b g' := by
  simp only [bind_ok, ofExcept_ok]
  constructor
  · rintro ⟨a, _, ⟨found, rfl⟩, rest⟩
    exact ⟨a, found, rest⟩
  · rintro ⟨a, found, rest⟩
    exact ⟨a, g, ⟨found, rfl⟩, rest⟩

theorem reg_bind_ok {name : String} {f : Reg → Gen β} :
    (reg name >>= f) g = .ok b g' ↔ ∃ r, resolve name = .ok r ∧ f r g = .ok b g' := ofExcept_bind_ok

theorem newLabel_bind_ok {pfx : String} {f : String → Gen β} :
    (newLabel pfx >>= f) g = .ok b g' ↔
      f (freshLabel pfx (g.labelI + 1)) g.nextLabel = .ok b g' := by
  simp only [bind_ok, newLabel_ok]
  constructor
  · rintro ⟨_, _, ⟨rfl, rfl⟩, rest⟩
    exact rest
  · intro rest
    exact ⟨_, _, ⟨rfl, rfl⟩, rest⟩

/-- The generator after `reserve`. -/
def reserved (g : CodeGenerator) (name : String) (bytes : List Byte) : CodeGenerator :=
  if g.dataLayout.contains name then g
  else { g with dataLayout := g.dataLayout.set name g.dataBytes.length, dataBytes := g.dataBytes ++ bytes }

theorem reserve_bind_ok {name : String} {bytes : List Byte} {f : Unit → Gen β} :
    (reserve name bytes >>= f) g = .ok b g' ↔ f () (reserved g name bytes) = .ok b g' := by
  by_cases known : g.dataLayout.contains name
  · simp [reserve, reserved, known, bind_assoc, get_bind_ok]
  · simp [reserve, reserved, known, bind_assoc, get_bind_ok, modify_bind_ok]

@[simp] theorem reserved_script (g : CodeGenerator) (name : String) (bytes : List Byte) :
    (reserved g name bytes).script = g.script := by
  unfold reserved
  split <;> rfl

@[simp] theorem reserved_labelI (g : CodeGenerator) (name : String) (bytes : List Byte) :
    (reserved g name bytes).labelI = g.labelI := by
  unfold reserved
  split <;> rfl

theorem reserved_get? {name other : String} (bytes : List Byte) {o : Int} (found : g.dataLayout.get? other = some o) :
    (reserved g name bytes).dataLayout.get? other = some o := by
  unfold reserved
  split
  · exact found
  · next fresh =>
    have apart : name ≠ other := by
      intro same
      subst same
      exact fresh (by simp [Dict.contains, found])
    simpa [Dict.get?_set, apart] using found

/-- The generator after `once`. -/
def onced (g : CodeGenerator) (stub : Stub) (calls : List Call) : CodeGenerator :=
  if stub ∈ g.emitted then g else { g.withScript (g.script ++ calls) with emitted := stub :: g.emitted }

theorem once_bind_ok {stub : Stub} {calls : List Call} {f : Unit → Gen β} :
    (once stub calls >>= f) g = .ok b g' ↔ f () (onced g stub calls) = .ok b g' := by
  by_cases done : stub ∈ g.emitted
  · simp [once, onced, done, bind_assoc, get_bind_ok]
  · simp only [once, onced, done, bind_assoc, get_bind_ok, if_false, asm_bind_ok, modify_bind_ok]
    rfl

@[simp] theorem onced_dataLayout (g : CodeGenerator) (stub : Stub) (calls : List Call) :
    (onced g stub calls).dataLayout = g.dataLayout := by
  unfold onced
  split <;> rfl

end Steps

end Codegen

end Aclm
