import Aclm.Codegen.Operand

/-! The emitters of the core language: comparisons, arithmetic, memory, calls and system calls. -/

set_option autoImplicit false

namespace Aclm.Codegen

open X64 (Reg)
open Encoder

def emitCmp (left right : Expr) : Gen Unit := do
  asm [.pushReg .r11]
  eval left SCRATCH
  asm [.movRegReg .r11 SCRATCH, .pushReg .r11]
  eval right SCRATCH
  asm [.popReg .r11, cmpRegReg .r11 SCRATCH, .popReg .r11]

/-! ### Arithmetic -/

/-- The shift encoder that `op` names; `sal` has its own name but the bytes of `shl`. -/
def shiftOp : CpuBinOp → Option ShiftOp
  | .shl | .sal => some .shl
  | .shr => some .shr
  | .sar => some .sar
  | .rol => some .rol
  | .ror => some .ror
  | .rcl => some .rcl
  | .rcr => some .rcr
  | _ => none

/-- The operations that combine two registers in one instruction. -/
def plainOp (dst val : Reg) : CpuBinOp → Option Call
  | .add => some (addRegReg dst val)
  | .sub => some (subRegReg dst val)
  | .and => some (andRegReg dst val)
  | .or => some (orRegReg dst val)
  | .xor => some (xorRegReg dst val)
  | .mul => some (.imulRegReg dst val)
  | _ => none

def shiftCalls (op : ShiftOp) (value : Expr) (dst val : Reg) : List Call :=
  match value with
  | .number n => [.shiftRegImm8 op dst (n % 64)]
  | _ =>
    if dst = .rcx then
      [.pushReg .rax, .movRegReg .rax .rcx, .movRegReg .rcx val, .shiftRegCl op .rax, .movRegReg .rcx .rax,
        .popReg .rax]
    else [.pushReg .rcx, .movRegReg .rcx val, .shiftRegCl op dst, .popReg .rcx]

def divCalls (result dst val : Reg) : List Call :=
  [.pushReg .rax, .pushReg .rdx, .movRegReg .rax dst, .cqo, idivReg val, .movRegReg val result, .popReg .rdx,
    .popReg .rax, .movRegReg dst val]

/-- What `_cpu_bin` appends once the value is in `val`. -/
def cpuBinCalls (op : CpuBinOp) (value : Expr) (dst val : Reg) : List Call :=
  match plainOp dst val op, shiftOp op with
  | some call, _ => [call]
  | none, some shift => shiftCalls shift value dst val
  | none, none => divCalls (if op = .mod then .rdx else .rax) dst val

/-- `_cpu_bin` -/
def cpuBin (op : CpuBinOp) (dest : String) (value : Expr) : Gen Unit := do
  match (← get).fnLocals.get? dest with
  | some off =>
    if op = .set then
      eval value .r11
    else
      asm [movRegMem .r11 .rbp off none 1]
      eval value .r12
      asm (cpuBinCalls op value .r11 .r12)
    asm [movMemReg .rbp off .r11 none 1]
  | none =>
    let dst ← reg dest
    if op = .set then
      eval value dst
    else
      eval value SCRATCH
      asm (cpuBinCalls op value dst SCRATCH)

def unaryCall (r : Reg) : CpuUnaryOp → Call
  | .not => notReg r
  | .neg => negReg r
  | .inc => incReg r
  | .dec => decReg r

/-- `_cpu_unary` -/
def cpuUnary (op : CpuUnaryOp) (dest : String) : Gen Unit := do
  match (← get).fnLocals.get? dest with
  | some off => asm [movRegMem .r11 .rbp off none 1, unaryCall .r11 op, movMemReg .rbp off .r11 none 1]
  | none => asm [unaryCall (← reg dest) op]

/-! ### Memory -/

/-- `getattr(s, "scale", 1) or 1` -/
def orOne (scale : Int) : Int := if scale = 0 then 1 else scale

def storeLocal (off : Option Int) (src : Reg) : List Call :=
  match off with
  | some off => [movMemReg .rbp off src none 1]
  | none => []

/-- The register a load goes to: a local is loaded into R12 and stored from there. -/
def loadReg (off : Option Int) (dest : String) : Gen Reg :=
  match off with
  | some _ => return .r12
  | none => reg dest

/-- `_mem_load` -/
def memLoad (dest : String) (base offset : Expr) (width : Size) (index : Option Expr) (scale : Int) : Gen Unit := do
  let base ← baseReg base
  let off ← ofExcept ((← get).resolveOffset offset)
  let slot := (← get).fnLocals.get? dest
  let dst ← loadReg slot dest
  let idx ← indexReg index
  asm [.load width dst ⟨base, off, idx, orOne scale⟩]
  asm (storeLocal slot dst)

/-- `_mem_store` -/
def memStore (base offset value : Expr) (width : Size) (index : Option Expr) (scale : Int) : Gen Unit := do
  asm [.pushReg .r12]
  eval value .r12
  let base ← baseReg base
  let off ← ofExcept ((← get).resolveOffset offset)
  let idx ← indexReg index
  asm [.store width ⟨base, off, idx, orOne scale⟩ .r12, .popReg .r12]

/-- `_cpu_lea` -/
def cpuLea (dest : String) (base : Expr) (index : Option Expr) (scale offset : Int) : Gen Unit := do
  let dst ← reg dest
  match base, index with
  | .ident name, none =>
    if offset = 0 then asm [.leaRegLabel dst (data name)]
    else
      let base ← basePhys base
      asm [leaRegMem dst base offset none scale]
  | base, index =>
    let base ← basePhys base
    let idx ← indexReg index
    asm [leaRegMem dst base offset idx scale]

/-! ### Calls and system calls -/

/-- Each argument goes through `via` onto the stack. -/
def pushArgs (via : Reg) : List Expr → Gen Unit
  | [] => return
  | arg :: args => do
    eval arg via
    asm [.pushReg via]
    pushArgs via args

/-- The arguments, last first, into their registers. -/
def popArgs (n : Nat) (regs : List Reg) : List Call := (regs.take n).reverse.map .popReg

def CALL_ARGS : List Reg := [.rdi, .rsi, .rdx, .rcx, .r8, .r9]

def emitCall (label : String) (args : List Expr) : Gen Unit := do
  let args := args.take 6
  pushArgs .r11 args
  asm (popArgs args.length CALL_ARGS)
  asm [.call (lbl label)]

def NAMED_SYSCALLS : Dict Int :=
  [("read", 0), ("write", 1), ("open", 2), ("close", 3), ("lseek", 8), ("seek", 8), ("mmap", 9),
   ("mprotect", 10), ("munmap", 11), ("exit", 60), ("exit_group", 231), ("getpid", 39), ("fork", 57),
   ("wait4", 61), ("nanosleep", 35), ("clock_gettime", 228), ("socket", 41), ("connect", 42), ("sendto", 44),
   ("recvfrom", 45), ("bind", 49), ("listen", 50), ("ioctl", 16), ("brk", 12)]

def syscallNumber : SysNum → Except PyErr Int
  | .number n => .ok n
  | .name name => match NAMED_SYSCALLS.get? (lower name) with
    | some n => .ok n
    | none => .error (.codegenError s!"unknown syscall '{lower name}'")

/-- `_syscall` -/
def emitSyscall (num : SysNum) (args : List Expr) : Gen Unit := do
  if (← get).baremetal then
    codegenError ("sys:call is Linux-userland only; not valid in target:baremetal / freestanding kernel. " ++
      "Use chip:halt, chip:cli, port:in/out, or raw: sequences.")
  let num ← ofExcept (syscallNumber num)
  let args := args.take 6
  pushArgs SCRATCH args
  asm (popArgs args.length SYSCALL_ARGS)
  asm [.movRegImm64 .rax num, .pushReg .rcx, .pushReg .r11, .syscall, .popReg .r11, .popReg .rcx]

/-! ### Flags -/

/-- `_cpu_test` -/
def cpuTest (left right : Expr) : Gen Unit := do
  eval left .r11
  eval right .r12
  asm [testRegReg .r11 .r12]

/-- `_cpu_movext` -/
def cpuMovExt (signed : Bool) (dest : String) (src : Expr) (width : Int) : Gen Unit := do
  let dst ← reg dest
  let extend (src : Reg) : Call := if signed then movsxRegReg dst src width else movzxRegReg dst src width
  match src with
  | .reg name => asm [extend (← reg name)]
  | src =>
    eval src .r12
    asm [extend .r12]

end Aclm.Codegen
