import Aclm.X64.Decode

/-! The instructions with a memory operand that no run of the model executes, as far as they decode:
conditional moves, the locked compare-exchanges and the unaligned vector moves. -/

set_option autoImplicit false

namespace Aclm.X64

/-- The operation and its other operand. Vector registers go by their numbers. -/
inductive Access where
  | cmov (c : Cond) (dst : Reg)
  | lockCmpxchg (src : Reg)
  | lockCmpxchg16b
  | movups (store : Bool) (xmm : Nat)
  | vmovups (store : Bool) (ymm : Nat)
  deriving DecidableEq, Repr

namespace Access

/-- The vector register of a field, whose fourth bit is in the prefix. -/
def vector (high : Bool) (field : Nat) : Nat := 8 * high.toNat + field

/-- The two opcodes of a vector move. -/
def isStore (op : Nat) : Option Bool := if op = 0x10 then some false else if op = 0x11 then some true else none

/-- `0F xx` behind an optional REX prefix. -/
def decodeTwo (bs : List Byte) : Option (Access × MemRef × List Byte) := do
  let (p, bs) := takeRex bs
  let p := p.getD .absent
  let (escape, rest) ← take8 bs
  let (op, rest) ← take8 rest
  let (field, rm, rest) ← takeRm p rest
  match rm with
  | .mem m =>
    if escape ≠ 0x0F then none
    else if op / 16 = 4 ∧ p.w then some (.cmov (Cond.ofCode (op % 16)) (Reg.ofFields p.r field), m, rest)
    else (isStore op).map fun store => (.movups store (vector p.r field), m, rest)
  | _ => none

/-- `0F xx` behind a lock prefix. -/
def decodeLock (bs : List Byte) : Option (Access × MemRef × List Byte) := do
  let (p, bs) := takeRex bs
  let p := p.getD .absent
  let (escape, rest) ← take8 bs
  let (op, rest) ← take8 rest
  let (field, rm, rest) ← takeRm p rest
  match rm with
  | .mem m =>
    if escape ≠ 0x0F ∨ ¬p.w then none
    else if op = 0xB1 then some (.lockCmpxchg (Reg.ofFields p.r field), m, rest)
    else if op = 0xC7 ∧ field = 1 then some (.lockCmpxchg16b, m, rest)
    else none
  | _ => none

/-- Behind the two-byte VEX prefix, whose one extension bit is that of the reg field, inverted; the
base has the numbers below 8. Only the 256-bit moves without a second source are modelled. -/
def decodeVex (bs : List Byte) : Option (Access × MemRef × List Byte) := do
  let (v, rest) ← take8 bs
  let (op, rest) ← take8 rest
  let (field, rm, rest) ← takeRm .absent rest
  match rm with
  | .mem m =>
    if v % 128 ≠ 0x7C then none
    else (isStore op).map fun store => (.vmovups store (vector (v < 128) field), m, rest)
  | _ => none

def decode : List Byte → Option (Access × MemRef × List Byte)
  | [] => none
  | v :: rest =>
    if v = 0xC5#8 then decodeVex rest else if v = 0xF0#8 then decodeLock rest else decodeTwo (v :: rest)

/-! ### The forms, by what their operand reads as -/

section Forms

variable (p : Rex) (op : Byte) {tail rest : List Byte} {field : Nat} {m : MemRef}

theorem decode_rex (bs : List Byte) : decode (p.byte :: bs) = decodeTwo (p.byte :: bs) := by
  obtain ⟨w, r, x, b⟩ := p
  cases w <;> cases r <;> cases x <;> cases b <;> rfl

theorem decode_two (read : takeRm p tail = some (field, .mem m, rest)) :
    decode (p.byte :: 0x0F#8 :: op :: tail) =
      if op.toNat / 16 = 4 ∧ p.w then some (.cmov (Cond.ofCode (op.toNat % 16)) (Reg.ofFields p.r field), m, rest)
      else (isStore op.toNat).map fun store => (.movups store (vector p.r field), m, rest) := by
  rw [decode_rex]
  simp [decodeTwo, take8, read]

theorem decode_two_none (read : takeRm p tail = none) : decode (p.byte :: 0x0F#8 :: op :: tail) = none := by
  rw [decode_rex]
  simp [decodeTwo, take8, read]

/-- Without a prefix. -/
theorem decode_bare (read : takeRm .absent tail = some (field, .mem m, rest)) :
    decode (0x0F#8 :: op :: tail) = (isStore op.toNat).map fun store => (.movups store (vector false field), m, rest) := by
  simp [decode, decodeTwo, takeRex, Rex.ofByte, take8, read, show Rex.absent.w = false from rfl, show Rex.absent.r = false from rfl]

theorem decode_lock (read : takeRm p tail = some (field, .mem m, rest)) (w : p.w = true) :
    decode (0xF0#8 :: p.byte :: 0x0F#8 :: op :: tail) =
      if op.toNat = 0xB1 then some (.lockCmpxchg (Reg.ofFields p.r field), m, rest)
      else if op.toNat = 0xC7 ∧ field = 1 then some (.lockCmpxchg16b, m, rest) else none := by
  simp [decode, decodeLock, take8, read, w]

theorem decode_lock_none (read : takeRm p tail = none) :
    decode (0xF0#8 :: p.byte :: 0x0F#8 :: op :: tail) = none := by
  simp [decode, decodeLock, take8, read]

theorem decode_vex {v : Byte} (plain : v.toNat % 128 = 0x7C) (read : takeRm .absent tail = some (field, .mem m, rest)) :
    decode (0xC5#8 :: v :: op :: tail) =
      (isStore op.toNat).map fun store => (.vmovups store (vector (v.toNat < 128) field), m, rest) := by
  simp [decode, decodeVex, take8, read, plain]

theorem decode_vex_none {v : Byte} (read : takeRm .absent tail = none) : decode (0xC5#8 :: v :: op :: tail) = none := by
  simp [decode, decodeVex, take8, read]

end Forms

end Access

end Aclm.X64
