import Aclm.Python
import Aclm.X64.Decode

/-! The instruction emitters as data, and the bytes each one appends.
A call that refers to a label appends these bytes and then a four-byte field for the linker. -/

set_option autoImplicit false

namespace Aclm.Encoder

open X64 (Byte Reg leBytes ofSigned)

def u8 (v : Int) : List Byte := leBytes 1 (ofSigned 8 v)

def u32 (v : Int) : List Byte := leBytes 4 (ofSigned 32 v)

def u64 (v : Int) : List Byte := leBytes 8 (ofSigned 64 v)

def s8 (v : Int) : Except PyErr (List Byte) :=
  if v < -128 ∨ v > 127 then .error (.valueError s!"value {v} does not fit in imm8")
  else .ok (leBytes 1 (ofSigned 8 v))

def s32 (v : Int) : Except PyErr (List Byte) :=
  if v < -2 ^ 31 ∨ v > 2 ^ 31 - 1 then .error (.valueError s!"value {v} does not fit in imm32")
  else .ok (leBytes 4 (ofSigned 32 v))

def rex (w r x b : Nat) : Byte :=
  BitVec.ofNat 8 (0x40 ||| w <<< 3 ||| r <<< 2 ||| x <<< 1 ||| b)

def modrm (mod reg rm : Nat) : Byte :=
  BitVec.ofNat 8 ((mod &&& 3) <<< 6 ||| (reg &&& 7) <<< 3 ||| (rm &&& 7))

/-- The opcodes of `_binop_reg_reg`. -/
inductive BinOp where
  | add | sub | and | or | xor | cmp | test | adc | sbb
  deriving DecidableEq, Repr

def BinOp.opcode : BinOp → Byte
  | add => 0x01 | sub => 0x29 | and => 0x21 | or => 0x09 | xor => 0x31 | cmp => 0x39
  | test => 0x85 | adc => 0x11 | sbb => 0x19

/-- The opcode extensions of `_binop_reg_imm32`. -/
inductive ImmOp where
  | add | sub | and | or | xor | cmp
  deriving DecidableEq, Repr

def ImmOp.ext : ImmOp → Nat
  | add => 0 | sub => 5 | and => 4 | or => 1 | xor => 6 | cmp => 7

/-- The one-operand forms, with their opcode and extension. -/
inductive UnaryOp where
  | not | neg | inc | dec | mul | div | idiv
  deriving DecidableEq, Repr

def UnaryOp.opcode : UnaryOp → Byte
  | not | neg | mul | div | idiv => 0xF7
  | inc | dec => 0xFF

def UnaryOp.ext : UnaryOp → Nat
  | not => 2 | neg => 3 | inc => 0 | dec => 1 | mul => 4 | div => 6 | idiv => 7

/-- `sal` is emitted as `shl`. -/
inductive ShiftOp where
  | shl | shr | rol | ror | sar | rcl | rcr
  deriving DecidableEq, Repr

def ShiftOp.ext : ShiftOp → Nat
  | shl => 4 | shr => 5 | rol => 0 | ror => 1 | sar => 7 | rcl => 2 | rcr => 3

/-- The count byte: four of the emitters mask it to six bits, the others to eight. -/
def ShiftOp.mask (op : ShiftOp) (imm : Int) : Int :=
  match op with
  | shl | shr | rol | ror => imm % 64
  | sar | rcl | rcr => imm % 256

def SETCC_OPCODE : Dict Byte :=
  [("eq", 0x94), ("neq", 0x95), ("gt", 0x9F), ("lt", 0x9C), ("gte", 0x9D), ("lte", 0x9E),
   ("above", 0x97), ("below", 0x92), ("abe", 0x96), ("ble", 0x96), ("zf", 0x94), ("e", 0x94),
   ("z", 0x94), ("nz", 0x95), ("ne", 0x95), ("g", 0x9F), ("nle", 0x9F), ("l", 0x9C), ("nge", 0x9C),
   ("ge", 0x9D), ("nl", 0x9D), ("le", 0x9E), ("ng", 0x9E), ("a", 0x97), ("nbe", 0x97), ("b", 0x92),
   ("c", 0x92), ("nae", 0x92), ("ae", 0x93), ("nb", 0x93), ("nc", 0x93), ("be", 0x96), ("na", 0x96),
   ("s", 0x98), ("ns", 0x99), ("o", 0x90), ("no", 0x91), ("p", 0x9A), ("pe", 0x9A), ("np", 0x9B),
   ("po", 0x9B)]

def JCC_OPCODE : Dict Byte :=
  [("eq", 0x84), ("neq", 0x85), ("gt", 0x8F), ("lt", 0x8C), ("gte", 0x8D), ("lte", 0x8E),
   ("above", 0x87), ("below", 0x82), ("abe", 0x83), ("ae", 0x83), ("be", 0x86), ("ble", 0x86),
   ("zf", 0x84), ("e", 0x84), ("z", 0x84), ("nz", 0x85), ("ne", 0x85), ("g", 0x8F), ("nle", 0x8F),
   ("l", 0x8C), ("nge", 0x8C), ("ge", 0x8D), ("nl", 0x8D), ("le", 0x8E), ("ng", 0x8E), ("a", 0x87),
   ("nbe", 0x87), ("b", 0x82), ("c", 0x82), ("nae", 0x82), ("nb", 0x83), ("nc", 0x83), ("na", 0x86),
   ("s", 0x88), ("ns", 0x89), ("o", 0x80), ("no", 0x81), ("p", 0x8A), ("pe", 0x8A), ("np", 0x8B),
   ("po", 0x8B)]

def CMOV_OPCODE : Dict Byte :=
  [("eq", 0x44), ("neq", 0x45), ("lt", 0x4C), ("gt", 0x4F), ("lte", 0x4E), ("gte", 0x4D),
   ("below", 0x42), ("above", 0x47), ("abe", 0x43), ("ae", 0x43), ("be", 0x46), ("ble", 0x46)]

/-- `d[key]` -/
def index {α : Type} (d : Dict α) (key : String) : Except PyErr α :=
  match d.get? key with
  | some v => .ok v
  | none => .error (.keyError key)

/-- How many bytes a sized load or store moves. -/
inductive Size where
  | b8 | b16 | b32 | b64
  deriving DecidableEq, Repr

def Size.bytes : Size → Nat
  | b8 => 1 | b16 => 2 | b32 => 4 | b64 => 8

/-- A memory operand `[base + index * scale + disp]`. -/
structure Mem where
  base : Reg
  disp : Int
  index : Option Reg
  scale : Int
  deriving DecidableEq, Repr

inductive Call where
  | label (name : String)
  | movRegImm64 (dst : Reg) (imm : Int)
  | movRegReg (dst src : Reg)
  | load (size : Size) (dst : Reg) (src : Mem)
  | store (size : Size) (dst : Mem) (src : Reg)
  | binopRegReg (op : BinOp) (dst src : Reg)
  | binopRegImm (op : ImmOp) (dst : Reg) (imm : Int)
  | imulRegReg (dst src : Reg)
  | unaryReg (op : UnaryOp) (r : Reg)
  | cqo
  | shiftRegImm8 (op : ShiftOp) (r : Reg) (imm : Int)
  | shiftRegCl (op : ShiftOp) (r : Reg)
  | setccReg (cond : String) (dst : Reg)
  | jmp (target : String)
  | jcc (cond target : String)
  | call (target : String)
  | ret
  | pushReg (r : Reg)
  | popReg (r : Reg)
  | syscall
  | hlt
  | leaRegLabel (dst : Reg) (target : String)
  | inAlDx
  | cmovRegReg (cond : String) (dst src : Reg)
  | xchgRegReg (a b : Reg)
  /-- The other emitters, by the bytes they append. -/
  | bytes (data : List Byte)
  deriving DecidableEq, Repr

/-- REX.W, the opcode and a register-direct ModRM byte. -/
def regReg (opcode : List Byte) (reg rm : Reg) : List Byte :=
  [rex 1 (reg.num >>> 3) 0 (rm.num >>> 3)] ++ opcode ++ [modrm 3 (reg.num &&& 7) (rm.num &&& 7)]

/-- REX.W, the opcode and a ModRM byte that extends it. -/
def regExt (opcode : List Byte) (ext : Nat) (r : Reg) : List Byte :=
  [rex 1 0 0 (r.num >>> 3)] ++ opcode ++ [modrm 3 ext (r.num &&& 7)]

def movRegImm64Bytes (deterministic : Bool) (dst : Reg) (imm : Int) : List Byte :=
  let imm := imm % 2 ^ 64
  let d := dst.num
  let ext := if d ≥ 8 then [0x41#8] else []
  if deterministic then [rex 1 0 0 (d >>> 3), BitVec.ofNat 8 (0xB8 + (d &&& 7))] ++ u64 imm
  else if imm = 0 then ext ++ [BitVec.ofNat 8 (0xB8 + (d &&& 7))] ++ u32 0
  else if imm ≤ 0xFFFFFFFF then ext ++ [BitVec.ofNat 8 (0xB8 + (d &&& 7))] ++ u32 imm
  else
    let signed := if imm < 0x80000000 then imm else imm - 2 ^ 64
    if (imm ≥ 0xFFFFFFFF80000000 ∨ imm < 0x80000000) ∧ -0x80000000 ≤ signed ∧ signed ≤ 0x7FFFFFFF then
      [rex 1 0 0 (d >>> 3), 0xC7#8, modrm 3 0 (d &&& 7)] ++ u32 signed
    else [rex 1 0 0 (d >>> 3), BitVec.ofNat 8 (0xB8 + (d &&& 7))] ++ u64 imm

def scaleBits (scale : Int) : Except PyErr Nat :=
  if scale = 1 then .ok 0 else if scale = 2 then .ok 1 else if scale = 4 then .ok 2
  else if scale = 8 then .ok 3 else .error (.keyError (toString scale))

/-- REX.X and the SIB byte, which an index needs, and RSP or R12 as base. -/
def memSib (m : Mem) : Except PyErr (Nat × List Byte) :=
  let b := m.base.num
  match m.index with
  | some index => do
    let s ← scaleBits m.scale
    let i := index.num
    .ok (i >>> 3, [BitVec.ofNat 8 (s <<< 6 ||| (i &&& 7) <<< 3 ||| (b &&& 7))])
  | none =>
    .ok (0, if b &&& 7 = 4 then [BitVec.ofNat 8 (0 <<< 6 ||| 0b100 <<< 3 ||| (b &&& 7))] else [])

def memDisp (mod : Nat) (disp : Int) : Except PyErr (List Byte) :=
  if mod = 2 then s32 disp else .ok []

/-- REX.X, and the ModRM byte, SIB byte and displacement. RBP and R13 as base need a displacement
even when it is zero. -/
def memOperand (field : Nat) (m : Mem) : Except PyErr (Nat × List Byte) := do
  let b := m.base.num
  let (x, sib) ← memSib m
  let mod := if m.disp ≠ 0 ∨ b &&& 7 = 5 then 2 else 0
  let disp ← memDisp mod m.disp
  .ok (x, [modrm mod field (if sib = [] then b &&& 7 else 0b100)] ++ sib ++ disp)

/-- `_emit_mem_op` and `_emit_mem_op_0f` -/
def memOp (opcode : List Byte) (r : Reg) (m : Mem) : Except PyErr (List Byte) := do
  let (x, operand) ← memOperand (r.num &&& 7) m
  .ok ([rex 1 (r.num >>> 3) x (m.base.num >>> 3)] ++ opcode ++ operand)

def mov32RegMemBytes (dst : Reg) (m : Mem) : Except PyErr (List Byte) := do
  let (x, operand) ← memOperand (dst.num &&& 7) m
  let pfx := if dst.num ≥ 8 ∨ m.base.num ≥ 8 ∨ x ≠ 0
    then [rex 0 (dst.num >>> 3) x (m.base.num >>> 3)] else []
  .ok (pfx ++ [0x8B#8] ++ operand)

/-- `_emit_mem_op_sized`; SPL, BPL, SIL and DIL need a REX prefix to name the low byte. -/
def memOpSized (opcode : Byte) (r : Reg) (m : Mem) (size : Nat) : Except PyErr (List Byte) := do
  let (x, operand) ← memOperand (r.num &&& 7) m
  let opsize := if size = 16 then [0x66#8] else []
  let needRex := (size = 8 ∧ r.num ∈ [4, 5, 6, 7]) ∨ r.num ≥ 8 ∨ m.base.num ≥ 8 ∨ x ≠ 0
  let pfx := if needRex ∨ size ≠ 8 then [rex 0 (r.num >>> 3) x (m.base.num >>> 3)] else []
  .ok (opsize ++ pfx ++ [opcode] ++ operand)

def setccRegBytes (cond : String) (dst : Reg) : Except PyErr (List Byte) := do
  let op ← index SETCC_OPCODE cond
  let d := dst.num
  let pfx := if d ≥ 8 then [rex 0 0 0 1] else if d ∈ [4, 5, 6, 7] then [rex 0 0 0 0] else []
  .ok (pfx ++ [0x0F#8, op, modrm 3 0 (d &&& 7)] ++
    [rex 1 (d >>> 3) 0 (d >>> 3), 0x0F#8, 0xB6#8, modrm 3 (d &&& 7) (d &&& 7)])

def xchgRegRegBytes (a b : Reg) : List Byte :=
  if a = b then []
  else if a.num = 0 then
    [if b.num ≥ 8 then 0x49#8 else 0x48#8, BitVec.ofNat 8 (0x90 + (b.num &&& 7))]
  else if b.num = 0 then
    [if a.num ≥ 8 then 0x49#8 else 0x48#8, BitVec.ofNat 8 (0x90 + (a.num &&& 7))]
  else regReg [0x87] a b

namespace Call

/-- The bytes before the linker's field, if there is one. -/
def encode (deterministic : Bool) : Call → Except PyErr (List Byte)
  | label _ => .ok []
  | movRegImm64 dst imm => .ok (movRegImm64Bytes deterministic dst imm)
  | movRegReg dst src => .ok (if dst = src then [] else regReg [0x89] src dst)
  | load .b8 dst src => memOp [0x0F, 0xB6] dst src
  | load .b16 dst src => memOp [0x0F, 0xB7] dst src
  | load .b32 dst src => mov32RegMemBytes dst src
  | load .b64 dst src => memOp [0x8B] dst src
  | store .b8 dst src => memOpSized 0x88 src dst 8
  | store .b16 dst src => memOpSized 0x89 src dst 16
  | store .b32 dst src => memOpSized 0x89 src dst 32
  | store .b64 dst src => memOp [0x89] src dst
  | binopRegReg op dst src => .ok (regReg [op.opcode] src dst)
  | binopRegImm op dst imm => do .ok (regExt [0x81] op.ext dst ++ (← s32 imm))
  | imulRegReg dst src => .ok (regReg [0x0F, 0xAF] dst src)
  | unaryReg op r => .ok (regExt [op.opcode] op.ext r)
  | cqo => .ok [0x48, 0x99]
  | shiftRegImm8 op r imm => .ok (regExt [0xC1] op.ext r ++ u8 (op.mask imm))
  | shiftRegCl op r => .ok (regExt [0xD3] op.ext r)
  | setccReg cond dst => setccRegBytes cond dst
  | jmp _ => .ok [0xE9]
  | jcc cond _ => do .ok [0x0F, ← index JCC_OPCODE cond]
  | call _ => .ok [0xE8]
  | ret => .ok [0xC3]
  | pushReg r => .ok ((if r.num ≥ 8 then [rex 0 0 0 1] else []) ++ [BitVec.ofNat 8 (0x50 + (r.num &&& 7))])
  | popReg r => .ok ((if r.num ≥ 8 then [rex 0 0 0 1] else []) ++ [BitVec.ofNat 8 (0x58 + (r.num &&& 7))])
  | syscall => .ok [0x0F, 0x05]
  | hlt => .ok [0xF4]
  | leaRegLabel dst _ => .ok [rex 1 (dst.num >>> 3) 0 0, 0x8D, modrm 0 (dst.num &&& 7) 0b101]
  | inAlDx => .ok [0xEC]
  | cmovRegReg cond dst src => do .ok (regReg [0x0F, ← index CMOV_OPCODE cond] dst src)
  | xchgRegReg a b => .ok (xchgRegRegBytes a b)
  | bytes data => .ok data

/-- The label whose displacement the linker puts after the bytes. -/
def fixup : Call → Option String
  | jmp target | jcc _ target | call target | leaRegLabel _ target => some target
  | _ => none

end Call

end Aclm.Encoder
