import Aclm.Encoder.Call

/-! The syntax trees the parser hands to the code generator.
Register operands are names until the generator resolves them. -/

set_option autoImplicit false

namespace Aclm

open X64 (Byte)
open Encoder (Size)

inductive ExprOp where
  | add | sub | mul
  deriving DecidableEq, Repr

inductive Expr where
  | number (value : Int)
  | string (value : String)
  | reg (name : String)
  | ident (name : String)
  | structFieldRef (struct field : String)
  | binExpr (op : ExprOp) (left right : Expr)
  deriving DecidableEq, Repr

def Expr.typeName : Expr → String
  | number _ => "Number"
  | string _ => "String"
  | reg _ => "Reg"
  | ident _ => "Ident"
  | structFieldRef _ _ => "StructFieldRef"
  | binExpr _ _ _ => "BinExpr"

inductive CpuBinOp where
  | set | add | sub | mul | div | mod | and | or | xor | shl | shr | sar | sal | rol | ror | rcl | rcr
  deriving DecidableEq, Repr

inductive CpuUnaryOp where
  | not | neg | inc | dec
  deriving DecidableEq, Repr

/-- The one-word operations without operands. -/
inductive CpuFlag where
  | clc | stc | cmc | cld | std | pause | cqo | cdq | leave | cdqe | pushfq | popfq | rdtscp
  | lfence | sfence | mfence | endbr64 | cbw | cwde | cwd
  deriving DecidableEq, Repr

inductive CpuPriv where
  | sldt | str | smsw | swapgs | rdmsr | wrmsr | rdpmc | clts | wbinvd | sysret | sysenter | sysexit
  deriving DecidableEq, Repr

inductive FsGs where
  | rdfsbase | rdgsbase | wrfsbase | wrgsbase
  deriving DecidableEq, Repr

inductive BitOp where
  | bt | bts | btr | btc
  deriving DecidableEq, Repr

inductive SseOp where
  | addps | subps | mulps | divps
  deriving DecidableEq, Repr

inductive AvxOp where
  | vaddps | vsubps | vmulps | vdivps | vshufps | vbroadcastss
  deriving DecidableEq, Repr

/-- `data:alloc` takes a number of bytes or the name of a struct. -/
inductive AllocSize where
  | bytes (n : Int)
  | struct (name : String)
  deriving DecidableEq, Repr

inductive ConstValue where
  | number (value : Int)
  | string (value : String)
  deriving DecidableEq, Repr

inductive SysNum where
  | number (value : Int)
  | name (name : String)
  deriving DecidableEq, Repr

inductive AssertOp where
  | le | eq
  deriving DecidableEq, Repr

/-- The statements other than function definitions. -/
inductive Op where
  | label (name : String)
  | goto (label : String)
  | jumpIf (cond label : String)
  | cmp (left right : Expr)
  | cpuBin (op : CpuBinOp) (dest : String) (value : Expr)
  | cpuUnary (op : CpuUnaryOp) (dest : String)
  | dataAlloc (name : String) (size : AllocSize)
  | dataConst (name : String) (value : ConstValue)
  | dataBytes (name : String) (values : List Byte)
  | dataAlign (align : Int)
  | memLoad (dest : String) (base offset : Expr) (size : Size) (index : Option Expr) (scale : Int)
  | memStore (base offset value : Expr) (size : Size) (index : Option Expr) (scale : Int)
  | sysCall (num : SysNum) (args : List Expr)
  | call (label : String) (args : List Expr)
  | ret
  | retVal (value : Option Expr)
  | stackPush (value : Expr)
  | stackPop (dest : String)
  | blastFill (dest : String) (byteVal length : Expr)
  | blastCopy (dest : String) (src length : Expr)
  | blastRepFill (dest : String) (byteVal length : Expr)
  | blastRepCopy (dest : String) (src length : Expr)
  | wireLen (dest : String) (src : Expr)
  | wireCmp (dest : String) (left right : Expr)
  | wireCopy (dest src : Expr)
  | wireEmit (src : Expr) (length : Option Expr)
  | trapNeg (label : String)
  | cellMap (dest : String) (size : Expr) (prot flags : Option Expr)
  | cellMapFile (dest : String) (size fd : Expr) (offset prot : Option Expr)
  | cellFree (ptr size : Expr)
  | cellProtect (ptr size prot : Expr)
  | sigAction (signo : Expr) (handler : String)
  | sigReturn
  | gateCas (addr expected desired : String)
  | gateSpin (addr : String)
  | gateFence (kind : String)
  | pulseSleep (ns : Expr)
  | pulseNow (dest : String)
  | flagSetcc (dest cond : String)
  | flagsClear
  | flagsSetDF
  | chipTicks (dest : String)
  | chipId (leaf : Expr) (destA destB destC destD : String)
  | chipCli
  | chipSti
  | chipHalt
  | chipSerialInit
  | chipSerialPutc (value : Expr)
  | chipLidt (base : String)
  | chipLgdt (base : String)
  | chipKbdPoll (dest : String)
  | chipInt (vec : Int)
  | chipPitInit (divisor : Int)
  | chipPicRemap
  | portOut (port value : Expr)
  | portIn (dest : String) (port : Expr)
  | vecLoad (xmm : String) (base : Expr) (offset : Int)
  | vecStore (base : Expr) (offset : Int) (xmm : String)
  | vecBin (op : SseOp) (dst src : String)
  | vecVBin (op : AvxOp) (dst src : String) (imm : Int)
  | vecVLoad (ymm : String) (base : Expr) (offset : Int)
  | vecVStore (base : Expr) (offset : Int) (ymm : String)
  | cpuLea (dest : String) (base : Expr) (index : Option Expr) (scale offset : Int)
  | cpuLeaRip (dest label : String)
  | cpuLeaAbs (dest : String) (addr : Int)
  | cpuTest (left right : Expr)
  | cpuTestImm (dest : String) (imm : Int)
  | cpuCmov (dest : String) (src : Expr) (cond : String)
  | cpuCmovMem (dest : String) (base : Expr) (offset : Int) (cond : String)
  | cpuMovExt (signed : Bool) (dest : String) (src : Expr) (size : Int)
  | cpuMovzx (dest src : String) (width : Int)
  | cpuMovsx (dest src : String) (width : Int)
  | cpuMovsxd (dest src : String)
  | cpuXchg (a b : String)
  | cpuXadd (dest src : String)
  | cpuCmpxchg (dest src : String)
  | cpuCmpxchg16b (base : Expr) (offset : Int)
  | cpuBitScan (reverse : Bool) (dest : String) (src : Expr)
  | cpuBt (base : String) (offset : Expr)
  | cpuBitOp (op : BitOp) (base offset : String)
  | cpuBitImm (op : BitOp) (base : String) (imm : Int)
  | cpuShld (dest src : String)
  | cpuShrd (dest src : String)
  | cpuShldImm (dest src : String) (imm : Int)
  | cpuShrdImm (dest src : String) (imm : Int)
  | cpuImulImm (dest : String) (imm : Int)
  | cpuImul3 (dest src : String) (imm : Int)
  | cpuMulDiv1 (divide : Bool) (src : String)
  | cpuAdc (dest src : String)
  | cpuSbb (dest src : String)
  | cpuBswap (dest : String)
  | cpuPopcnt (dest src : String)
  | cpuLzcnt (dest src : String)
  | cpuTzcnt (dest src : String)
  | cpuAndn (dest src1 src2 : String)
  | cpuBzhi (dest src ctrl : String)
  | cpuShlx (dest src cnt : String)
  | cpuShrx (dest src cnt : String)
  | cpuSarx (dest src cnt : String)
  | cpuRorx (dest src : String) (imm : Int)
  | cpuBextr (dest src ctrl : String)
  | cpuBlsi (dest src : String)
  | cpuBlsr (dest src : String)
  | cpuBlsmsk (dest src : String)
  | cpuAdcx (dest src : String)
  | cpuAdox (dest src : String)
  | cpuCrc32 (dest src : String)
  | cpuRdrand (dest : String)
  | cpuRdseed (dest : String)
  | cpuPext (dest src mask : String)
  | cpuPdep (dest src mask : String)
  | cpuMulx (destHi destLo src : String)
  | cpuPrefetch (write : Bool) (base : String)
  | cpuClflush (base : String)
  | cpuNopLong
  | cpuEnter (size nesting : Int)
  | cpuMxcsr (load : Bool) (base : String)
  | cpuFx (save : Bool) (base : String)
  | cpuXgetbv
  | cpuFsGs (op : FsGs) (reg : String)
  | cpuPrivOp (op : CpuPriv) (reg : String)
  | cpuFlagOp (op : CpuFlag)
  | prefixedOp (pfx : String)
  | rawBytes (hexParts : List Byte)
  | threadSpawn (dest label : String)
  | threadJoin (tid : Option Expr)
  | threadJoinAll
  | threadExit (code : Option Expr)
  | errStatus (dest : String)
  | netSocket (dest : String) (domain type protocol : Expr)
  | netConnect (sock addr addrlen : Expr)
  | netSend (sock buf length : Expr)
  | netRecv (sock buf length : Expr)
  | netClose (sock : Expr)
  | netPoll (fds nfds timeout : Expr)
  | netEpollCreate (dest : String) (flags : Option Expr)
  | netEpollCtl (epfd op fd eventPtr : Expr)
  | netEpollWait (dest : String) (epfd events maxevents timeout : Expr)
  | targetBaremetal
  | structDef (name : String) (fields : List (String × Int))
  | localDecl (name : String) (size : Int)
  | metalRegs
  | metalDeterministic
  | sectionAt (name : String) (addr : Int)
  | assertBytes (name : String) (limit : Int) (op : AssertOp)
  | assertSize (what : String) (limit : Int)
  | includeFile (path : String)
  | kernelHeapInit (size : Int)
  | kernelHeapAlloc (dest : String) (size : Expr)
  | kernelCtxSave (dest : String)
  | kernelCtxLoad (src : String)
  | kernelIdtInstall
  | kernelCoopSwitch (save load : String)
  | kernelPrintkStr (src : Expr)
  | kernelPanic
  | kernelTickInstall
  | kernelTickRead (dest : String)
  | kernelRamfsInit
  | kernelRamfsPut (name data length : Expr)
  | kernelRamfsGet (dest : String) (name : Expr)
  | kernelNetInit
  | kernelNetPoll (dest : String)
  | kernelCsRing (dest : String)
  | kernelEnterUser (entry stack : Expr)
  | kernelPfInstall
  | kernelNetAllowPort (port : Int)
  | kernelNetCheckPort (dest : String) (port : Expr)
  | kernelPreemptArm (ctx : String)
  | kernelSyscallInit
  | kernelSysret
  | kernelNicBar (addr : Expr)
  | kernelNicRegRead (dest : String) (offset : Expr)
  | kernelNicRegWrite (offset value : Expr)
  | kernelIrqFullSave
  | kernelSyscallTableInit
  | kernelSyscallRegister (nr : Int) (handler : String)
  | kernelNmiInstall
  | kernelDmaRingInit (slots : Int)
  | kernelDmaRingPush (addr length : Expr)
  | kernelDmaRingPop (destAddr destLen : String)

inductive Stmt where
  | op (line : Int) (op : Op)
  | fnDef (line : Int) (name : String) (args : List String) (body : List Stmt) (locals : List (String × Int))

structure Program where
  statements : List Stmt

mutual

/-- The operations of a statement, those in the body of a function as well. -/
def Stmt.ops : Stmt → List Op
  | .op _ op => [op]
  | .fnDef _ _ _ body _ => opsOf body

def opsOf : List Stmt → List Op
  | [] => []
  | s :: rest => s.ops ++ opsOf rest

end

def Program.ops (p : Program) : List Op := opsOf p.statements

theorem mem_opsOf {op : Op} {stmts : List Stmt} : op ∈ opsOf stmts ↔ ∃ s ∈ stmts, op ∈ s.ops := by
  induction stmts with
  | nil => simp [opsOf]
  | cons s rest ih => simp [opsOf, ih]

end Aclm
