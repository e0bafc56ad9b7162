import Aclm.Codegen.Linux
import Aclm.Codegen.Kernel

/-! One statement: the choice of the emitter, and function definitions with their frames. -/

set_option autoImplicit false

namespace Aclm.Codegen

open X64 (Reg)
open Encoder

/-! ### Functions -/

def CALLEE_SAVED : List Reg := [.rbx, .r12, .r13, .r14]

/-- The registers of the arguments, by position. -/
def bindArgs (args : List String) : Dict Reg :=
  (args.zip CALL_ARGS).foldl (fun d a => d.set a.1 a.2) []

/-- `(size + n - 1) & ~(n - 1)` for a power of two. -/
def roundUp (n : Int) (size : Int) : Int := (size + (n - 1)) / n * n

/-- The offsets of the locals, below the saved registers, and the bytes they take. -/
def placeLocals : List (String × Int) → Dict Int × Int → Dict Int × Int
  | [], placed => placed
  | (name, size) :: rest, (slots, total) =>
    let total := total + roundUp 8 size
    placeLocals rest (slots.set name (-(32 + total)), total)

/-- Room for the locals. -/
def frameCalls (total : Int) : List Call :=
  let total := roundUp 16 total
  if total = 0 then [] else [subRegImm .rsp total]

/-- `_fn_epilogue` -/
def fnEpilogue : List Call :=
  [.movRegReg .rsp .rbp, subRegImm .rsp 32] ++ CALLEE_SAVED.reverse.map .popReg ++ [.popReg .rbp, .ret]

/-- A return from a function or, outside one, the bare instruction. -/
def emitReturn : Gen Unit := do asm (if (← get).inFn then fnEpilogue else [.ret])

/-- What `_emit_fn` does before the body. -/
def enterFn (name : String) (args : List String) (locals : List (String × Int)) : Gen Unit := do
  let (slots, total) := placeLocals locals ([], 0)
  asm [.label (lbl name), .pushReg .rbp, .movRegReg .rbp .rsp]
  asm (pushes CALLEE_SAVED)
  asm (frameCalls total)
  modify fun g => { g with fnLocals := slots, inFn := true, fnArgs := bindArgs args }

/-- What `_emit_fn` does after the body. -/
def leaveFn : Gen Unit := do
  modify fun g => { g with inFn := false, fnLocals := [], fnArgs := [] }
  asm fnEpilogue

/-! ### Single instructions -/

def sseCall : SseOp → String → String → Except PyErr Call
  | .addps => addps
  | .subps => subps
  | .mulps => mulps
  | .divps => divps

def avxCall (op : AvxOp) (dst src : String) (imm : Int) : Except PyErr Call :=
  match op with
  | .vaddps => vaddps dst src none
  | .vsubps => vsubps dst src none
  | .vmulps => vmulps dst src none
  | .vdivps => vdivps dst src none
  | .vshufps => vshufps dst src imm
  | .vbroadcastss => vbroadcastss dst src

def flagCall : CpuFlag → Call
  | .clc => clc
  | .stc => stc
  | .cmc => cmc
  | .cld => cld
  | .std => std
  | .pause => pause
  | .cqo => .cqo
  | .cdq => cdq
  | .leave => leave
  | .cdqe => cdqe
  | .pushfq => pushfq
  | .popfq => popfq
  | .rdtscp => rdtscp
  | .lfence => lfence
  | .sfence => sfence
  | .mfence => mfence
  | .endbr64 => endbr64
  | .cbw => cbw
  | .cwde => cwde
  | .cwd => cwd

/-- Three of the privileged operations take a register. -/
def privCall (op : CpuPriv) (name : String) : Gen Call :=
  match op with
  | .sldt => return sldtReg (← reg name)
  | .str => return strReg (← reg name)
  | .smsw => return smswReg (← reg name)
  | .swapgs => return swapgs
  | .rdmsr => return rdmsr
  | .wrmsr => return wrmsr
  | .rdpmc => return rdpmc
  | .clts => return clts
  | .wbinvd => return wbinvd
  | .sysret => return sysret
  | .sysenter => return sysenter
  | .sysexit => return sysexit

def fsGsCall : FsGs → Reg → Call
  | .rdfsbase => rdfsbaseReg
  | .rdgsbase => rdgsbaseReg
  | .wrfsbase => wrfsbaseReg
  | .wrgsbase => wrgsbaseReg

def bitCall : BitOp → Reg → Reg → Call
  | .bt => btRegReg
  | .bts => btsRegReg
  | .btr => btrRegReg
  | .btc => btcRegReg

def bitImmCall : BitOp → Reg → Int → Call
  | .bt => btRegImm8
  | .bts => btsRegImm8
  | .btr => btrRegImm8
  | .btc => btcRegImm8

def one (call : Reg → Call) (a : String) : Gen Unit := do asm [call (← reg a)]

def two (call : Reg → Reg → Call) (a b : String) : Gen Unit := do
  let a ← reg a
  let b ← reg b
  asm [call a b]

def three (call : Reg → Reg → Reg → Call) (a b c : String) : Gen Unit := do
  let a ← reg a
  let b ← reg b
  let c ← reg c
  asm [call a b c]

def chipTicks (dest : String) : Gen Unit := do
  asm [rdtsc]
  let dst ← reg dest
  asm (copyTo dst .rax)
  asm [.movRegImm64 SCRATCH 0xFFFFFFFF, andRegReg dst SCRATCH]

def chipId (leaf : Expr) (destA destB destC destD : String) : Gen Unit := do
  eval leaf .rax
  asm [xorRegReg .rcx .rcx, cpuid, .pushReg .rdx, .pushReg .rcx, .pushReg .rbx, .pushReg .rax]
  asm [.popReg (← reg destA)]
  asm [.popReg (← reg destB)]
  asm [.popReg (← reg destC)]
  asm [.popReg (← reg destD)]

/-! ### Statements -/

/-- `_emit`, but for function definitions. -/
def emitOp : Op → Gen Unit
  | .label name => asm [.label (lbl name)]
  | .goto label => asm [.jmp (lbl label)]
  | .jumpIf cond label => asm [.jcc cond (lbl label)]
  | .cmp left right => emitCmp left right
  | .cpuBin op dest value => cpuBin op dest value
  | .cpuUnary op dest => cpuUnary op dest
  | .dataAlloc .. | .dataConst .. | .dataBytes .. | .dataAlign .. | .metalRegs | .metalDeterministic
  | .sectionAt .. | .includeFile .. | .structDef .. | .localDecl .. => return
  | .memLoad dest base offset width index scale => memLoad dest base offset width index scale
  | .memStore base offset value width index scale => memStore base offset value width index scale
  | .sysCall num args => emitSyscall num args
  | .call label args => emitCall label args
  | .ret => emitReturn
  | .retVal value => do
    evalOr value .rax []
    emitReturn
  | .stackPush value => do
    eval value .r11
    asm [.pushReg .r11]
  | .stackPop dest => one .popReg dest
  | .blastFill dest byteVal length => blastFill dest byteVal length
  | .blastCopy dest src length => blastCopy dest src length
  | .blastRepFill dest byteVal length => blastRepFill dest byteVal length
  | .blastRepCopy dest src length => blastRepCopy dest src length
  | .wireLen dest src => wireLen dest src
  | .wireCmp dest left right => wireCmp dest left right
  | .wireCopy dest src => wireCopy dest src
  | .wireEmit src length => wireEmit src length
  | .trapNeg label => asm [testRegReg .rax .rax, .jcc "lt" (lbl label)]
  | .cellMap dest size prot flags => cellMap dest size prot flags
  | .cellMapFile dest size fd offset prot => cellMapfile dest size fd offset prot
  | .cellFree ptr size => cellFree ptr size
  | .cellProtect ptr size prot => cellProtect ptr size prot
  | .sigAction signo handler => sigAction signo handler
  | .sigReturn => asm [.movRegImm64 .rax 15, .syscall]
  | .gateCas addr expected desired => gateCas addr expected desired
  | .gateSpin addr => gateSpin addr
  | .gateFence kind => gateFence kind
  | .pulseSleep ns => pulseSleep ns
  | .pulseNow dest => pulseNow dest
  | .flagSetcc dest cond => one (.setccReg cond) dest
  | .flagsClear => asm [cld]
  | .flagsSetDF => asm [std]
  | .chipTicks dest => chipTicks dest
  | .chipId leaf destA destB destC destD => chipId leaf destA destB destC destD
  | .chipCli => asm [cli]
  | .chipSti => asm [sti]
  | .chipHalt => asm [.hlt]
  | .chipSerialInit => serialInit
  | .chipSerialPutc value => serialPutc value
  | .chipLidt base => one (lidtMem · 0) base
  | .chipLgdt base => one (lgdtMem · 0) base
  | .chipKbdPoll dest => kbdPoll dest
  | .chipInt vec => asm [intImm vec]
  | .chipPitInit divisor => pitInit divisor
  | .chipPicRemap => picRemap
  | .portOut port value => portOut port value
  | .portIn dest port => portIn dest port
  | .vecLoad xmm base offset => do
    let base ← basePhys base
    asm [← ofExcept (movupsXmmMem xmm base offset)]
  | .vecStore base offset xmm => do
    let base ← basePhys base
    asm [← ofExcept (movupsMemXmm base xmm offset)]
  | .vecBin op dst src => do asm [← ofExcept (sseCall op dst src)]
  | .vecVBin op dst src imm => do asm [← ofExcept (avxCall op dst src imm)]
  | .vecVLoad ymm base offset => do
    let base ← basePhys base
    asm [← ofExcept (vmovupsLoad ymm base offset)]
  | .vecVStore base offset ymm => do
    let base ← basePhys base
    asm [← ofExcept (vmovupsStore base ymm offset)]
  | .cpuLea dest base index scale offset => cpuLea dest base index scale offset
  | .cpuLeaRip dest label => one (.leaRegLabel · (data label)) dest
  | .cpuLeaAbs dest addr => one (.movRegImm64 · addr) dest
  | .cpuTest left right => cpuTest left right
  | .cpuTestImm dest imm => one (testRegImm32 · imm) dest
  | .cpuCmov dest src cond => do
    eval src SCRATCH
    asm [.cmovRegReg cond (← reg dest) SCRATCH]
  | .cpuCmovMem dest base offset cond => do
    let base ← baseReg base
    let dst ← reg dest
    asm [← ofExcept (cmovRegMem cond dst base offset)]
  | .cpuMovExt signed dest src size => cpuMovExt signed dest src size
  | .cpuMovzx dest src width => two (if width = 16 then movzxR64R16 else movzxR64R8) dest src
  | .cpuMovsx dest src width => two (if width = 16 then movsxR64R16 else movsxR64R8) dest src
  | .cpuMovsxd dest src => two movsxdRegReg dest src
  | .cpuXchg a b => two .xchgRegReg a b
  | .cpuXadd dest src => two xaddRegReg dest src
  | .cpuCmpxchg dest src => two cmpxchgRegReg dest src
  | .cpuCmpxchg16b base offset => do asm [cmpxchg16bMem (← baseReg base) offset]
  | .cpuBitScan reverse dest src => do
    eval src SCRATCH
    one (if reverse then (bsrRegReg · SCRATCH) else (bsfRegReg · SCRATCH)) dest
  | .cpuBt base offset => do
    eval offset SCRATCH
    one (btRegReg · SCRATCH) base
  | .cpuBitOp op base offset => two (bitCall op) base offset
  | .cpuBitImm op base imm => one (bitImmCall op · imm) base
  | .cpuShld dest src => two shldRegReg dest src
  | .cpuShrd dest src => two shrdRegReg dest src
  | .cpuShldImm dest src imm => two (shldRegImm8 · · imm) dest src
  | .cpuShrdImm dest src imm => two (shrdRegImm8 · · imm) dest src
  | .cpuImulImm dest imm => one (imulRegImm · imm) dest
  | .cpuImul3 dest src imm => two (imulRegRegImm · · imm) dest src
  | .cpuMulDiv1 divide src => one (if divide then divReg else mulReg) src
  | .cpuAdc dest src => two adcRegReg dest src
  | .cpuSbb dest src => two sbbRegReg dest src
  | .cpuBswap dest => one bswapReg dest
  | .cpuPopcnt dest src => two popcntRegReg dest src
  | .cpuLzcnt dest src => two lzcntRegReg dest src
  | .cpuTzcnt dest src => two tzcntRegReg dest src
  | .cpuAndn dest src1 src2 => three andnRegReg dest src1 src2
  | .cpuBzhi dest src ctrl => three bzhiRegReg dest src ctrl
  | .cpuShlx dest src cnt => three shlxRegReg dest src cnt
  | .cpuShrx dest src cnt => three shrxRegReg dest src cnt
  | .cpuSarx dest src cnt => three sarxRegReg dest src cnt
  | .cpuRorx dest src imm => two (rorxRegImm · · imm) dest src
  | .cpuBextr dest src ctrl => three bextrRegReg dest src ctrl
  | .cpuBlsi dest src => two blsiRegReg dest src
  | .cpuBlsr dest src => two blsrRegReg dest src
  | .cpuBlsmsk dest src => two blsmskRegReg dest src
  | .cpuAdcx dest src => two adcxRegReg dest src
  | .cpuAdox dest src => two adoxRegReg dest src
  | .cpuCrc32 dest src => two crc32RegReg dest src
  | .cpuRdrand dest => one rdrandReg dest
  | .cpuRdseed dest => one rdseedReg dest
  | .cpuPext dest src mask => three pextRegReg dest src mask
  | .cpuPdep dest src mask => three pdepRegReg dest src mask
  | .cpuMulx destHi destLo src => three mulxRegReg destHi destLo src
  | .cpuPrefetch write base => one (if write then (prefetchw · 0) else (prefetchnta · 0)) base
  | .cpuClflush base => one (clflush · 0) base
  | .cpuNopLong => asm [nopLong]
  | .cpuEnter size nesting => do asm [← ofExcept (enterImm size nesting)]
  | .cpuMxcsr load base => one (if load then (ldmxcsrMem · 0) else (stmxcsrMem · 0)) base
  | .cpuFx save base => one (if save then (fxsaveMem · 0) else (fxrstorMem · 0)) base
  | .cpuXgetbv => asm [xgetbv]
  | .cpuFsGs op name => one (fsGsCall op) name
  | .cpuPrivOp op name => do asm [← privCall op name]
  | .cpuFlagOp op => asm [flagCall op]
  | .prefixedOp pfx => asm (if pfx = "lock" then [lockPrefix] else if pfx = "rep" then [repPrefix] else [])
  | .rawBytes hexParts => asm [rawBytes hexParts]
  | .threadSpawn dest label => threadSpawn dest label
  | .threadJoin _ => threadJoin
  | .threadJoinAll => threadJoinAll
  | .threadExit code => threadExit code
  | .errStatus dest => result dest
  | .netSocket dest domain type protocol => netSocket dest domain type protocol
  | .netConnect sock addr addrlen => netConnect sock addr addrlen
  | .netSend sock buf length => netSend sock buf length
  | .netRecv sock buf length => netRecv sock buf length
  | .netClose sock => netClose sock
  | .netPoll fds nfds timeout => netPoll fds nfds timeout
  | .netEpollCreate dest flags => netEpollCreate dest flags
  | .netEpollCtl epfd op fd eventPtr => netEpollCtl epfd op fd eventPtr
  | .netEpollWait dest epfd events maxevents timeout => netEpollWait dest epfd events maxevents timeout
  | .targetBaremetal => modify fun g => { g with baremetal := true }
  | .assertBytes name limit op =>
    modify fun g => { g with assertBytes := g.assertBytes ++ [⟨name, limit, op, g.codeLength⟩] }
  | .assertSize what limit => modify fun g => { g with assertSizes := g.assertSizes ++ [(what, limit)] }
  | .kernelHeapInit size => kernelHeapInit size
  | .kernelHeapAlloc dest size => kernelHeapAlloc dest size
  | .kernelCtxSave dest => kernelCtxSave dest
  | .kernelCtxLoad src => kernelCtxLoad src
  | .kernelIdtInstall => kernelIdtInstall
  | .kernelCoopSwitch save load => kernelCoopSwitch save load
  | .kernelPrintkStr src => kernelPrintkStr src
  | .kernelPanic => kernelPanic
  | .kernelTickInstall => kernelTickInstall
  | .kernelTickRead dest => kernelTickRead dest
  | .kernelRamfsInit => kernelRamfsInit
  | .kernelRamfsPut name fileData length => kernelRamfsPut name fileData length
  | .kernelRamfsGet dest name => kernelRamfsGet dest name
  | .kernelNetInit => kernelNetInit
  | .kernelNetPoll dest => kernelNetPoll dest
  | .kernelCsRing dest => kernelCsRing dest
  | .kernelEnterUser entry stack => kernelEnterUser entry stack
  | .kernelPfInstall => kernelPfInstall
  | .kernelNetAllowPort port => kernelNetAllow port
  | .kernelNetCheckPort dest port => kernelNetCheck dest port
  | .kernelPreemptArm ctx => kernelPreemptArm ctx
  | .kernelSyscallInit => kernelSyscallInit
  | .kernelSysret => asm [sysret]
  | .kernelNicBar addr => kernelNicBar addr
  | .kernelNicRegRead dest offset => kernelNicRead dest offset
  | .kernelNicRegWrite offset value => kernelNicWrite offset value
  | .kernelIrqFullSave => kernelIrqFullSaveOn
  | .kernelSyscallTableInit => kernelSyscallTableInit
  | .kernelSyscallRegister nr handler => kernelSyscallRegister nr handler
  | .kernelNmiInstall => kernelNmiInstall
  | .kernelDmaRingInit slots => kernelDmaRingInit slots
  | .kernelDmaRingPush addr length => kernelDmaRingPush addr length
  | .kernelDmaRingPop destAddr destLen => kernelDmaRingPop destAddr destLen

/-- The entry of a statement in the teaching map. -/
def note (line : Int) : Gen Unit := do
  if (← get).listing then modify fun g => { g with teachMap := g.teachMap ++ [(line, g.codeLength)] }

mutual

/-- `_emit` and, for a function definition, `_emit_fn`. -/
def emit : Stmt → Gen Unit
  | .op line op => do
    note line
    emitOp op
  | .fnDef line name args body locals => do
    note line
    enterFn name args locals
    emitAll body
    leaveFn

def emitAll : List Stmt → Gen Unit
  | [] => return
  | s :: rest => do
    emit s
    emitAll rest

end

end Aclm.Codegen
