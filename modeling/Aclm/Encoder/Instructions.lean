import Aclm.Encoder.Call

/-! The instruction emitters under their own names. The ones the machine model executes are members
of the families of `Call`; the others are the bytes they append. -/

set_option autoImplicit false

namespace Aclm.Encoder

open X64 (Byte Reg)

def addRegReg (dst src : Reg) : Call := .binopRegReg .add dst src
def subRegReg (dst src : Reg) : Call := .binopRegReg .sub dst src
def andRegReg (dst src : Reg) : Call := .binopRegReg .and dst src
def orRegReg (dst src : Reg) : Call := .binopRegReg .or dst src
def xorRegReg (dst src : Reg) : Call := .binopRegReg .xor dst src
def cmpRegReg (a b : Reg) : Call := .binopRegReg .cmp a b
def testRegReg (a b : Reg) : Call := .binopRegReg .test a b
def adcRegReg (dst src : Reg) : Call := .binopRegReg .adc dst src
def sbbRegReg (dst src : Reg) : Call := .binopRegReg .sbb dst src

def addRegImm (dst : Reg) (imm : Int) : Call := .binopRegImm .add dst imm
def subRegImm (dst : Reg) (imm : Int) : Call := .binopRegImm .sub dst imm
def andRegImm (dst : Reg) (imm : Int) : Call := .binopRegImm .and dst imm
def orRegImm (dst : Reg) (imm : Int) : Call := .binopRegImm .or dst imm

def notReg (r : Reg) : Call := .unaryReg .not r
def negReg (r : Reg) : Call := .unaryReg .neg r
def incReg (r : Reg) : Call := .unaryReg .inc r
def decReg (r : Reg) : Call := .unaryReg .dec r
def mulReg (r : Reg) : Call := .unaryReg .mul r
def divReg (r : Reg) : Call := .unaryReg .div r
def idivReg (r : Reg) : Call := .unaryReg .idiv r

def xorRegImm (dst : Reg) (imm : Int) : Call := .binopRegImm .xor dst imm
def cmpRegImm (dst : Reg) (imm : Int) : Call := .binopRegImm .cmp dst imm

def shlRegImm8 (r : Reg) (imm : Int) : Call := .shiftRegImm8 .shl r imm
def shrRegImm8 (r : Reg) (imm : Int) : Call := .shiftRegImm8 .shr r imm
def shlRegCl (r : Reg) : Call := .shiftRegCl .shl r

def movRegMem (dst base : Reg) (disp : Int) (index : Option Reg) (scale : Int) : Call :=
  .load .b64 dst ⟨base, disp, index, scale⟩
def movMemReg (base : Reg) (disp : Int) (src : Reg) (index : Option Reg) (scale : Int) : Call :=
  .store .b64 ⟨base, disp, index, scale⟩ src
def mov8RegMem (dst base : Reg) (disp : Int) (index : Option Reg) (scale : Int) : Call :=
  .load .b8 dst ⟨base, disp, index, scale⟩
def mov16RegMem (dst base : Reg) (disp : Int) (index : Option Reg) (scale : Int) : Call :=
  .load .b16 dst ⟨base, disp, index, scale⟩
def mov32RegMem (dst base : Reg) (disp : Int) (index : Option Reg) (scale : Int) : Call :=
  .load .b32 dst ⟨base, disp, index, scale⟩
def mov8MemReg (base : Reg) (disp : Int) (src : Reg) (index : Option Reg) (scale : Int) : Call :=
  .store .b8 ⟨base, disp, index, scale⟩ src
def mov16MemReg (base : Reg) (disp : Int) (src : Reg) (index : Option Reg) (scale : Int) : Call :=
  .store .b16 ⟨base, disp, index, scale⟩ src
def mov32MemReg (base : Reg) (disp : Int) (src : Reg) (index : Option Reg) (scale : Int) : Call :=
  .store .b32 ⟨base, disp, index, scale⟩ src

/-! ### Fixed bytes -/

def leave : Call := .bytes [0xC9]
def nop : Call := .bytes [0x90]
def nopMulti (n : Int) : Call := .bytes (List.replicate (max 1 n).toNat 0x90)
def nopLong : Call := .bytes [0x0F, 0x1F, 0x00]
def cld : Call := .bytes [0xFC]
def std : Call := .bytes [0xFD]
def rawBytes (data : List Byte) : Call := .bytes data
def faddp : Call := .bytes [0xDE, 0xC1]
def fsubp : Call := .bytes [0xDE, 0xE9]
def fmulp : Call := .bytes [0xDE, 0xC9]
def fdivp : Call := .bytes [0xDE, 0xF9]
def fcomip : Call := .bytes [0xDF, 0xF1]
def fstswAx : Call := .bytes [0xDF, 0xE0]
def fxch : Call := .bytes [0xD9, 0xC9]
def rdtsc : Call := .bytes [0x0F, 0x31]
def rdtscp : Call := .bytes [0x0F, 0x01, 0xF9]
def cpuid : Call := .bytes [0x0F, 0xA2]
def mfence : Call := .bytes [0x0F, 0xAE, 0xF0]
def lfence : Call := .bytes [0x0F, 0xAE, 0xE8]
def sfence : Call := .bytes [0x0F, 0xAE, 0xF8]
def cli : Call := .bytes [0xFA]
def sti : Call := .bytes [0xFB]
def outDxAl : Call := .bytes [0xEE]
def repStosb : Call := .bytes [0xF3, 0xAA]
def repMovsb : Call := .bytes [0xF3, 0xA4]
def lockPrefix : Call := .bytes [0xF0]
def repPrefix : Call := .bytes [0xF3]
def clc : Call := .bytes [0xF8]
def stc : Call := .bytes [0xF9]
def cmc : Call := .bytes [0xF5]
def pause : Call := .bytes [0xF3, 0x90]
def int3 : Call := .bytes [0xCC]
def ud2 : Call := .bytes [0x0F, 0x0B]
def cdq : Call := .bytes [0x99]
def cdqe : Call := .bytes [0x48, 0x98]
def cbw : Call := .bytes [0x66, 0x98]
def cwde : Call := .bytes [0x98]
def cwd : Call := .bytes [0x66, 0x99]
def pushfq : Call := .bytes [0x9C]
def popfq : Call := .bytes [0x9D]
def endbr64 : Call := .bytes [0xF3, 0x0F, 0x1E, 0xFA]
def xgetbv : Call := .bytes [0x0F, 0x01, 0xD0]
def xsetbv : Call := .bytes [0x0F, 0x01, 0xD1]
def wbinvd : Call := .bytes [0x0F, 0x09]
def invd : Call := .bytes [0x0F, 0x08]
def clts : Call := .bytes [0x0F, 0x06]
def rdmsr : Call := .bytes [0x0F, 0x32]
def wrmsr : Call := .bytes [0x0F, 0x30]
def rdpmc : Call := .bytes [0x0F, 0x33]
def swapgs : Call := .bytes [0x0F, 0x01, 0xF8]
def sysret : Call := .bytes [0x48, 0x0F, 0x07]
def sysenter : Call := .bytes [0x0F, 0x34]
def sysexit : Call := .bytes [0x0F, 0x35]
def intImm (vec : Int) : Call := .bytes ([0xCD] ++ u8 vec)
def iretq : Call := .bytes [0x48, 0xCF]

/-! ### Register operands -/

def movzxRegReg (dst src : Reg) (size : Int) : Call :=
  .bytes (regReg [0x0F, if size = 8 then 0xB6 else 0xB7] dst src)
def movsxRegReg (dst src : Reg) (size : Int) : Call :=
  .bytes (regReg [0x0F, if size = 8 then 0xBE else 0xBF] dst src)
def movzxR64R8 (dst src : Reg) : Call := .bytes (regReg [0x0F, 0xB6] dst src)
def movzxR64R16 (dst src : Reg) : Call := .bytes (regReg [0x0F, 0xB7] dst src)
def movsxR64R8 (dst src : Reg) : Call := .bytes (regReg [0x0F, 0xBE] dst src)
def movsxR64R16 (dst src : Reg) : Call := .bytes (regReg [0x0F, 0xBF] dst src)
def movsxdRegReg (dst src : Reg) : Call := .bytes (regReg [0x63] dst src)
def xaddRegReg (dst src : Reg) : Call := .bytes (regReg [0x0F, 0xC1] src dst)
def cmpxchgRegReg (dst src : Reg) : Call := .bytes (regReg [0x0F, 0xB1] src dst)
def bsfRegReg (dst src : Reg) : Call := .bytes (regReg [0x0F, 0xBC] dst src)
def bsrRegReg (dst src : Reg) : Call := .bytes (regReg [0x0F, 0xBD] dst src)
def btRegReg (base offset : Reg) : Call := .bytes (regReg [0x0F, 0xA3] offset base)
def btsRegReg (base offset : Reg) : Call := .bytes (regReg [0x0F, 0xAB] offset base)
def btrRegReg (base offset : Reg) : Call := .bytes (regReg [0x0F, 0xB3] offset base)
def btcRegReg (base offset : Reg) : Call := .bytes (regReg [0x0F, 0xBB] offset base)
def shldRegReg (dst src : Reg) : Call := .bytes (regReg [0x0F, 0xA5] src dst)
def shrdRegReg (dst src : Reg) : Call := .bytes (regReg [0x0F, 0xAD] src dst)
def shldRegImm8 (dst src : Reg) (imm : Int) : Call := .bytes (regReg [0x0F, 0xA4] src dst ++ u8 imm)
def shrdRegImm8 (dst src : Reg) (imm : Int) : Call := .bytes (regReg [0x0F, 0xAC] src dst ++ u8 imm)
def imulRegImm (dst : Reg) (imm : Int) : Call := .bytes (regReg [0x69] dst dst ++ u32 imm)
def imulRegRegImm (dst src : Reg) (imm : Int) : Call := .bytes (regReg [0x69] dst src ++ u32 imm)
def popcntRegReg (dst src : Reg) : Call := .bytes ([0xF3] ++ regReg [0x0F, 0xB8] dst src)
def lzcntRegReg (dst src : Reg) : Call := .bytes ([0xF3] ++ regReg [0x0F, 0xBD] dst src)
def tzcntRegReg (dst src : Reg) : Call := .bytes ([0xF3] ++ regReg [0x0F, 0xBC] dst src)
def adcxRegReg (dst src : Reg) : Call := .bytes ([0x66] ++ regReg [0x0F, 0x38, 0xF6] dst src)
def adoxRegReg (dst src : Reg) : Call := .bytes ([0xF3] ++ regReg [0x0F, 0x38, 0xF6] dst src)
def crc32RegReg (dst src : Reg) : Call := .bytes ([0xF2] ++ regReg [0x0F, 0x38, 0xF1] dst src)
def movbeRegReg (dst src : Reg) : Call := .bytes (regReg [0x0F, 0x38, 0xF0] dst src)
def larRegReg (dst src : Reg) : Call := .bytes (regReg [0x0F, 0x02] dst src)
def lslRegReg (dst src : Reg) : Call := .bytes (regReg [0x0F, 0x03] dst src)

def testRegImm32 (dst : Reg) (imm : Int) : Call := .bytes (regExt [0xF7] 0 dst ++ u32 imm)
def btRegImm8 (base : Reg) (imm : Int) : Call := .bytes (regExt [0x0F, 0xBA] 4 base ++ u8 imm)
def btsRegImm8 (base : Reg) (imm : Int) : Call := .bytes (regExt [0x0F, 0xBA] 5 base ++ u8 imm)
def btrRegImm8 (base : Reg) (imm : Int) : Call := .bytes (regExt [0x0F, 0xBA] 6 base ++ u8 imm)
def btcRegImm8 (base : Reg) (imm : Int) : Call := .bytes (regExt [0x0F, 0xBA] 7 base ++ u8 imm)
def rdrandReg (dst : Reg) : Call := .bytes (regExt [0x0F, 0xC7] 6 dst)
def rdseedReg (dst : Reg) : Call := .bytes (regExt [0x0F, 0xC7] 7 dst)
def callReg (r : Reg) : Call := .bytes (regExt [0xFF] 2 r)
def wrfsbaseReg (src : Reg) : Call := .bytes ([0xF3] ++ regExt [0x0F, 0xAE] 2 src)
def wrgsbaseReg (src : Reg) : Call := .bytes ([0xF3] ++ regExt [0x0F, 0xAE] 3 src)
def rdfsbaseReg (dst : Reg) : Call := .bytes ([0xF3] ++ regExt [0x0F, 0xAE] 0 dst)
def rdgsbaseReg (dst : Reg) : Call := .bytes ([0xF3] ++ regExt [0x0F, 0xAE] 1 dst)
def bswapReg (r : Reg) : Call :=
  .bytes [rex 1 0 0 (r.num >>> 3), 0x0F, BitVec.ofNat 8 (0xC8 + (r.num &&& 7))]
def xchgRegRax (r : Reg) : Call := .bytes [rex 1 0 0 (r.num >>> 3), BitVec.ofNat 8 (0x90 + (r.num &&& 7))]

/-- The system-segment forms, without REX.W. -/
def segmentReg (opcode : Byte) (ext : Nat) (dst : Reg) : Call :=
  .bytes [rex 0 0 0 (dst.num >>> 3), 0x0F, opcode, modrm 3 ext (dst.num &&& 7)]

def strReg (dst : Reg) : Call := segmentReg 0x00 1 dst
def sldtReg (dst : Reg) : Call := segmentReg 0x00 0 dst
def smswReg (dst : Reg) : Call := segmentReg 0x01 4 dst

def movRegImm32Zext (dst : Reg) (imm : Int) : Call :=
  .bytes ((if dst.num < 8 then [] else [rex 0 0 0 1]) ++ [BitVec.ofNat 8 (0xB8 + (dst.num &&& 7))] ++ u32 imm)

/-! ### Memory operands with a one-byte displacement -/

/-- The ModRM byte and displacement of the emitters that use no SIB byte. -/
def memDisp8 (field : Nat) (base : Reg) (disp : Int) : List Byte :=
  if disp = 0 ∧ base.num &&& 7 ≠ 5 then [modrm 0 field (base.num &&& 7)]
  else [modrm 1 field (base.num &&& 7)] ++ u8 disp

def xchgMemReg (base : Reg) (disp : Int) (reg : Reg) : Call :=
  .bytes ([rex 1 (reg.num >>> 3) 0 (base.num >>> 3), 0x87] ++ memDisp8 (reg.num &&& 7) base disp)
def xchgRegMem (reg base : Reg) (disp : Int) : Call := xchgMemReg base disp reg
def cmpxchg16bMem (base : Reg) (disp : Int) : Call :=
  .bytes ([0xF0, rex 1 0 0 ((base.num >>> 3) &&& 1), 0x0F, 0xC7] ++ memDisp8 1 base disp)
def cmpxchg8bMem (base : Reg) (disp : Int) : Call :=
  .bytes ([rex 0 0 0 (base.num >>> 3), 0x0F, 0xC7] ++ memDisp8 1 base disp)
def prefetchw (base : Reg) (disp : Int) : Call := .bytes ([0x0F, 0x0D] ++ memDisp8 1 base disp)
def prefetchnta (base : Reg) (disp : Int) : Call := .bytes ([0x0F, 0x18] ++ memDisp8 0 base disp)
def clflush (base : Reg) (disp : Int) : Call := .bytes ([0x0F, 0xAE] ++ memDisp8 7 base disp)
def stmxcsrMem (base : Reg) (disp : Int) : Call := .bytes ([0x0F, 0xAE] ++ memDisp8 3 base disp)
def ldmxcsrMem (base : Reg) (disp : Int) : Call := .bytes ([0x0F, 0xAE] ++ memDisp8 2 base disp)
def fxsaveMem (base : Reg) (disp : Int) : Call := .bytes ([0x0F, 0xAE] ++ memDisp8 0 base disp)
def fxrstorMem (base : Reg) (disp : Int) : Call := .bytes ([0x0F, 0xAE] ++ memDisp8 1 base disp)
def invlpgMem (base : Reg) (disp : Int) : Call := .bytes ([0x0F, 0x01] ++ memDisp8 7 base disp)
def lidtMem (base : Reg) (disp : Int) : Call :=
  .bytes ([rex 1 0 0 (base.num >>> 3), 0x0F, 0x01] ++ memDisp8 3 base disp)
def lgdtMem (base : Reg) (disp : Int) : Call :=
  .bytes ([rex 1 0 0 (base.num >>> 3), 0x0F, 0x01] ++ memDisp8 2 base disp)

def cmovRegMem (cond : String) (dst base : Reg) (disp : Int) : Except PyErr Call :=
  match CMOV_OPCODE.get? cond with
  | none => .error (.valueError s!"bad cmov cond {cond}")
  | some op => .ok (.bytes ([rex 1 (dst.num >>> 3) 0 (base.num >>> 3), 0x0F, op] ++
      memDisp8 (dst.num &&& 7) base disp))

/-- Here RSP and R12 get their SIB byte. -/
def memSib8 (field : Nat) (base : Reg) (disp : Int) : List Byte :=
  if base.num &&& 7 = 4 then
    if disp ≠ 0 then [modrm 1 field 4, BitVec.ofNat 8 (4 <<< 3 ||| 4)] ++ u8 disp
    else [modrm 0 field 4, BitVec.ofNat 8 (4 <<< 3 ||| 4)]
  else memDisp8 field base disp

def lockCmpxchgMem (base : Reg) (disp : Int) (src : Reg) : Call :=
  .bytes ([0xF0, rex 1 (src.num >>> 3) 0 (base.num >>> 3), 0x0F, 0xB1] ++ memSib8 (src.num &&& 7) base disp)

def leaRegMem (dst base : Reg) (disp : Int) (index : Option Reg) (scale : Int) : Call :=
  match index with
  | some i =>
    let sc := match scaleBits scale with
      | .ok bits => bits
      | .error _ => 0
    let mod := if disp ≠ 0 ∨ base.num &&& 7 = 5 then 1 else 0
    .bytes ([rex 1 (dst.num >>> 3) (i.num >>> 3) (base.num >>> 3), 0x8D, modrm mod (dst.num &&& 7) 4,
      BitVec.ofNat 8 (sc <<< 6 ||| (i.num &&& 7) <<< 3 ||| (base.num &&& 7))] ++
      if mod = 1 then u8 disp else [])
  | none =>
    .bytes ([rex 1 (dst.num >>> 3) 0 (base.num >>> 3), 0x8D] ++ memSib8 (dst.num &&& 7) base disp)

/-! ### x87, SSE and AVX -/

def fpuMemOp (opcode : Byte) (digit : Nat) (base : Reg) (disp : Int) : Except PyErr Call := do
  let b := base.num
  let mod := if disp ≠ 0 ∨ b &&& 7 = 5 then 2 else 0
  let sib := if b &&& 7 = 4 then [BitVec.ofNat 8 (0b100 <<< 3 ||| (b &&& 7))] else []
  let tail ← if mod = 2 then s32 disp else .ok []
  .ok (.bytes ((if b ≥ 8 then [rex 0 0 0 1] else []) ++ [opcode, modrm mod digit (b &&& 7)] ++ sib ++ tail))

def fldM64 (base : Reg) (disp : Int) : Except PyErr Call := fpuMemOp 0xDD 0 base disp
def fstpM64 (base : Reg) (disp : Int) : Except PyErr Call := fpuMemOp 0xDD 3 base disp
def fildM64 (base : Reg) (disp : Int) : Except PyErr Call := fpuMemOp 0xDF 5 base disp
def fistpM64 (base : Reg) (disp : Int) : Except PyErr Call := fpuMemOp 0xDF 7 base disp

def XMM : Dict Nat :=
  [("xmm0", 0), ("xmm1", 1), ("xmm2", 2), ("xmm3", 3), ("xmm4", 4), ("xmm5", 5), ("xmm6", 6), ("xmm7", 7)]

def xmmNum (name : String) : Except PyErr Nat :=
  match XMM.get? (lower name) with
  | some n => .ok n
  | none => .error (.valueError s!"unknown/unsupported xmm register: {name}")

/-- `int` of the digits after a register prefix; one underscore may stand between two digits. -/
def parseInt (s : List Char) : Option Nat :=
  let digit (c : Char) : Option Nat := if '0' ≤ c ∧ c ≤ '9' then some (c.toNat - 48) else none
  let rec go (value : Nat) : List Char → Option Nat
    | [] => some value
    | '_' :: c :: rest => do go (value * 10 + (← digit c)) rest
    | c :: rest => do go (value * 10 + (← digit c)) rest
  match s with
  | [] => none
  | c :: rest => do go (← digit c) rest

def ymmNum (name : String) : Except PyErr Nat :=
  let n := (lower name).toList
  let rest := String.ofList (n.drop 3)
  if n.take 3 = ['y', 'm', 'm'] ∨ n.take 3 = ['x', 'm', 'm'] then
    match parseInt (n.drop 3) with
    | some v => .ok v
    | none => .error (.valueError s!"invalid literal for int() with base 10: '{rest}'")
  else .error (.valueError s!"not a vector reg: {name}")

def movupsOperand (x : Nat) (base : Reg) (disp : Int) : Except PyErr (List Byte) := do
  let b := base.num &&& 7
  let sib := if b = 4 then [0x24#8] else []
  if disp = 0 ∧ b ≠ 5 then .ok ([modrm 0 (x &&& 7) b] ++ sib)
  else if -128 ≤ disp ∧ disp ≤ 127 then .ok ([modrm 1 (x &&& 7) b] ++ sib ++ (← s8 disp))
  else .ok ([modrm 2 (x &&& 7) b] ++ sib ++ (← s32 disp))

def movups (opcode : Byte) (xmm : String) (base : Reg) (disp : Int) : Except PyErr Call := do
  let x ← xmmNum xmm
  let pfx := if base.num ≥ 8 then [rex 0 (x >>> 3) 0 1] else []
  .ok (.bytes (pfx ++ [0x0F, opcode] ++ (← movupsOperand x base disp)))

def movupsXmmMem (xmm : String) (base : Reg) (disp : Int) : Except PyErr Call := movups 0x10 xmm base disp
def movupsMemXmm (base : Reg) (xmm : String) (disp : Int) : Except PyErr Call := movups 0x11 xmm base disp

/-- The SSE operations on two XMM registers, with an immediate where there is one. -/
def sse (pfx opcode : List Byte) (dst src : String) (imm : List Byte) : Except PyErr Call := do
  let d ← xmmNum dst
  let s ← xmmNum src
  .ok (.bytes (pfx ++ opcode ++ [modrm 3 (d &&& 7) (s &&& 7)] ++ imm))

def addps (dst src : String) : Except PyErr Call := sse [] [0x0F, 0x58] dst src []
def subps (dst src : String) : Except PyErr Call := sse [] [0x0F, 0x5C] dst src []
def mulps (dst src : String) : Except PyErr Call := sse [] [0x0F, 0x59] dst src []
def divps (dst src : String) : Except PyErr Call := sse [] [0x0F, 0x5E] dst src []
def movapsXmmXmm (dst src : String) : Except PyErr Call := sse [] [0x0F, 0x28] dst src []
def addpd (dst src : String) : Except PyErr Call := sse [0x66] [0x0F, 0x58] dst src []
def subpd (dst src : String) : Except PyErr Call := sse [0x66] [0x0F, 0x5C] dst src []
def mulpd (dst src : String) : Except PyErr Call := sse [0x66] [0x0F, 0x59] dst src []
def divpd (dst src : String) : Except PyErr Call := sse [0x66] [0x0F, 0x5E] dst src []
def paddd (dst src : String) : Except PyErr Call := sse [0x66] [0x0F, 0xFE] dst src []
def psubd (dst src : String) : Except PyErr Call := sse [0x66] [0x0F, 0xFA] dst src []
def haddps (dst src : String) : Except PyErr Call := sse [0xF2] [0x0F, 0x7C] dst src []
def shufps (dst src : String) (imm8 : Int) : Except PyErr Call := sse [] [0x0F, 0xC6] dst src (u8 imm8)
def blendps (dst src : String) (imm8 : Int) : Except PyErr Call :=
  sse [0x66] [0x0F, 0x3A, 0x0C] dst src (u8 imm8)

/-- The three-byte VEX form; the register bits of the prefix are inverted. -/
def vex (map w vvvv l pp : Nat) (opcode : Byte) (extR : Bool) (field : Nat) (rm : Nat) : List Byte :=
  let r := if extR then 1 else 0
  let b := if rm < 8 then 1 else 0
  [0xC4, BitVec.ofNat 8 (r <<< 7 ||| 1 <<< 6 ||| b <<< 5 ||| map),
    BitVec.ofNat 8 (w <<< 7 ||| vvvv <<< 3 ||| l <<< 2 ||| pp), opcode, modrm 3 (field &&& 7) (rm &&& 7)]

/-- `(~n) & 0xF` -/
def inverted (n : Nat) : Nat := 15 - n % 16

/-- With two operands the destination is the first source. -/
def vexPs (opcode : Byte) (dst src1 : String) (src2 : Option String) : Except PyErr Call := do
  let (s1, s2) := match src2 with
    | some s => (src1, s)
    | none => (dst, src1)
  let d ← ymmNum dst
  let s1 ← ymmNum s1
  let s2 ← ymmNum s2
  .ok (.bytes (vex 1 0 (inverted s1) 1 0 opcode (d < 8) d s2))

def vaddps (dst src1 : String) (src2 : Option String) : Except PyErr Call := vexPs 0x58 dst src1 src2
def vsubps (dst src1 : String) (src2 : Option String) : Except PyErr Call := vexPs 0x5C dst src1 src2
def vmulps (dst src1 : String) (src2 : Option String) : Except PyErr Call := vexPs 0x59 dst src1 src2
def vdivps (dst src1 : String) (src2 : Option String) : Except PyErr Call := vexPs 0x5E dst src1 src2

def vshufps (dst src : String) (imm8 : Int) : Except PyErr Call := do
  let d ← ymmNum dst
  let s ← ymmNum src
  .ok (.bytes (vex 1 0 (inverted d) 1 0 0xC6 (d < 8) d s ++ u8 imm8))

def vbroadcastss (dst src : String) : Except PyErr Call := do
  let d ← ymmNum dst
  let s ← ymmNum src
  .ok (.bytes (vex 2 0 15 1 1 0x18 (d < 8) d s))

/-- The two-byte VEX prefix has no bit for the base register, and none is emitted. -/
def vmovups (opcode : Byte) (ymm : String) (base : Reg) (disp : Int) : Except PyErr Call := do
  let d ← ymmNum ymm
  let r := if d < 8 then 1 else 0
  let rm := base.num &&& 7
  let operand := if rm = 5 ∨ disp ≠ 0 then [modrm 1 (d &&& 7) rm] ++ u8 disp
    else if rm = 4 then [modrm 0 (d &&& 7) 4, BitVec.ofNat 8 (4 <<< 3 ||| rm)]
    else [modrm 0 (d &&& 7) rm]
  .ok (.bytes ([0xC5, BitVec.ofNat 8 (r <<< 7 ||| 0xF <<< 3 ||| 1 <<< 2), opcode] ++ operand))

def vmovupsLoad (dst : String) (base : Reg) (disp : Int) : Except PyErr Call := vmovups 0x10 dst base disp
def vmovupsStore (base : Reg) (src : String) (disp : Int) : Except PyErr Call := vmovups 0x11 src base disp

/-- The BMI operations on general registers. -/
def bmi (map pp : Nat) (vvvv : Nat) (opcode : Byte) (dst rm : Reg) : List Byte :=
  vex map 1 vvvv 0 pp opcode (dst.num < 8) dst.num rm.num

def andnRegReg (dst src1 src2 : Reg) : Call := .bytes (bmi 2 0 (inverted src1.num) 0xF2 dst src2)
def bzhiRegReg (dst src ctrl : Reg) : Call := .bytes (bmi 2 0 (inverted ctrl.num) 0xF5 dst src)
def shlxRegReg (dst src cnt : Reg) : Call := .bytes (bmi 2 1 (inverted cnt.num) 0xF7 dst src)
def shrxRegReg (dst src cnt : Reg) : Call := .bytes (bmi 2 3 (inverted cnt.num) 0xF7 dst src)
def sarxRegReg (dst src cnt : Reg) : Call := .bytes (bmi 2 2 (inverted cnt.num) 0xF7 dst src)
def bextrRegReg (dst src ctrl : Reg) : Call := .bytes (bmi 2 0 (inverted ctrl.num) 0xF7 dst src)
def pextRegReg (dst src mask : Reg) : Call := .bytes (bmi 2 3 (inverted src.num) 0xF5 dst mask)
def pdepRegReg (dst src mask : Reg) : Call := .bytes (bmi 2 2 (inverted src.num) 0xF5 dst mask)
def mulxRegReg (dstHi dstLo src : Reg) : Call := .bytes (bmi 2 3 (inverted dstLo.num) 0xF6 dstHi src)
def rorxRegImm (dst src : Reg) (imm : Int) : Call := .bytes (bmi 3 3 15 0xF0 dst src ++ u8 imm)

/-- BLSI, BLSR and BLSMSK name the destination in vvvv and extend the opcode in ModRM. -/
def bls (ext : Nat) (dst src : Reg) : Call :=
  .bytes (vex 2 1 (inverted dst.num) 0 0 0xF3 true ext src.num)

def blsiRegReg (dst src : Reg) : Call := bls 3 dst src
def blsrRegReg (dst src : Reg) : Call := bls 1 dst src
def blsmskRegReg (dst src : Reg) : Call := bls 2 dst src

/-! ### Emitters that always raise: `_u16` is not defined, and the table has no `overflow` -/

def retImm16 (_imm : Int) : Except PyErr Call := .error (.nameError "_u16")
def enterImm (_size _nesting : Int) : Except PyErr Call := .error (.nameError "_u16")
def setoReg (_dst : Reg) : Except PyErr Call := .error (.keyError "overflow")

end Aclm.Encoder
