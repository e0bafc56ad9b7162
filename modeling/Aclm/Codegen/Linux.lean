import Aclm.Codegen.Core

/-! The emitters of the Linux statements: strings, memory maps, sockets, threads and signals. -/

set_option autoImplicit false

namespace Aclm.Codegen

open X64 (Reg)
open Encoder

def pops (rs : List Reg) : List Call := rs.map .popReg

/-- The statements that keep R11, R12 and R13 around their loops. -/
def TEMPS : List Reg := [.r11, .r12, .r13]

/-! ### Filling and copying -/

/-- `_blast_fill` -/
def blastFill (dest : String) (byteVal length : Expr) : Gen Unit := do
  let dest ← reg dest
  asm (pushes TEMPS)
  asm [.movRegReg .r11 dest]
  eval byteVal SCRATCH
  asm [.movRegReg .r12 SCRATCH]
  eval length SCRATCH
  asm [.movRegReg .r13 SCRATCH]
  let loop ← newLabel "fill"
  let done ← newLabel "filld"
  asm [.label loop, testRegReg .r13 .r13, .jcc "eq" done, mov8MemReg .r11 0 .r12 none 1, addRegImm .r11 1,
    subRegImm .r13 1, .jmp loop, .label done]
  asm (pops TEMPS.reverse)

/-- `_blast_copy` -/
def blastCopy (dest : String) (src length : Expr) : Gen Unit := do
  let dest ← reg dest
  asm (pushes TEMPS)
  asm [.movRegReg .r11 dest]
  eval src SCRATCH
  asm [.movRegReg .r12 SCRATCH]
  eval length SCRATCH
  asm [.movRegReg .r13 SCRATCH]
  let loop ← newLabel "copy"
  let done ← newLabel "copyd"
  asm [.label loop, testRegReg .r13 .r13, .jcc "eq" done, mov8RegMem SCRATCH .r12 0 none 1,
    mov8MemReg .r11 0 SCRATCH none 1, addRegImm .r11 1, addRegImm .r12 1, subRegImm .r13 1, .jmp loop, .label done]
  asm (pops TEMPS.reverse)

/-- `_blast_rep_fill` -/
def blastRepFill (dest : String) (byteVal length : Expr) : Gen Unit := do
  let dest ← reg dest
  asm (pushes TEMPS)
  asm [.movRegReg .r11 dest]
  eval byteVal SCRATCH
  asm [.movRegReg .r12 SCRATCH]
  eval length SCRATCH
  asm [.movRegReg .r13 SCRATCH, .movRegReg .rdi .r11, .movRegReg .rax .r12, .movRegReg .rcx .r13, repStosb]
  asm (copyTo dest .r11)
  asm (pops TEMPS.reverse)

/-- `_blast_rep_copy` -/
def blastRepCopy (dest : String) (src length : Expr) : Gen Unit := do
  let dest ← reg dest
  asm (pushes TEMPS)
  asm [.movRegReg .r11 dest]
  eval src SCRATCH
  asm [.movRegReg .r12 SCRATCH]
  eval length SCRATCH
  asm [.movRegReg .r13 SCRATCH, .movRegReg .rdi .r11, .movRegReg .rsi .r12, .movRegReg .rcx .r13, repMovsb]
  asm (copyTo dest .r11)
  asm (pops TEMPS.reverse)

/-! ### Strings -/

/-- `_wire_len` -/
def wireLen (dest : String) (src : Expr) : Gen Unit := do
  let dest ← reg dest
  asm [.pushReg .r11]
  eval src SCRATCH
  asm [.movRegReg .r11 SCRATCH, xorRegReg dest dest]
  let loop ← newLabel "wlen"
  let done ← newLabel "wlend"
  asm [.label loop, mov8RegMem SCRATCH .r11 0 none 1, testRegReg SCRATCH SCRATCH, .jcc "eq" done, incReg dest,
    addRegImm .r11 1, .jmp loop, .label done, .popReg .r11]

/-- `_wire_cmp` -/
def wireCmp (dest : String) (left right : Expr) : Gen Unit := do
  let dest ← reg dest
  asm [.pushReg .r11, .pushReg .r12, .pushReg .r13]
  eval left SCRATCH
  asm [.movRegReg .r11 SCRATCH]
  eval right SCRATCH
  asm [.movRegReg .r12 SCRATCH]
  let loop ← newLabel "wcmp"
  let eq ← newLabel "wcmpeq"
  let ne ← newLabel "wcmpne"
  let done ← newLabel "wcmpd"
  asm [.label loop, mov8RegMem .r13 .r11 0 none 1, mov8RegMem SCRATCH .r12 0 none 1, cmpRegReg .r13 SCRATCH,
    .jcc "neq" ne, testRegReg .r13 .r13, .jcc "eq" eq, addRegImm .r11 1, addRegImm .r12 1, .jmp loop,
    .label eq, xorRegReg dest dest, .jmp done, .label ne, .movRegImm64 dest 1, .label done,
    .popReg .r13, .popReg .r12, .popReg .r11]

/-- `_wire_copy` -/
def wireCopy (dest src : Expr) : Gen Unit := do
  asm [.pushReg .r11, .pushReg .r12]
  eval dest SCRATCH
  asm [.movRegReg .r11 SCRATCH]
  eval src SCRATCH
  asm [.movRegReg .r12 SCRATCH]
  let loop ← newLabel "wcpy"
  let done ← newLabel "wcpyd"
  asm [.label loop, mov8RegMem SCRATCH .r12 0 none 1, mov8MemReg .r11 0 SCRATCH none 1,
    testRegReg SCRATCH SCRATCH, .jcc "eq" done, addRegImm .r11 1, addRegImm .r12 1, .jmp loop, .label done,
    .popReg .r12, .popReg .r11]

/-- The length of `wire:emit`; without one the string is measured and its start evaluated again. -/
def wireEmitLength (src : Expr) : Option Expr → Gen Unit
  | some length => do
    eval length SCRATCH
    asm [.movRegReg .rdx SCRATCH]
  | none => do
    asm [xorRegReg .rdx .rdx]
    let loop ← newLabel "weml"
    let done ← newLabel "wemld"
    asm [.label loop, mov8RegMem SCRATCH .r11 0 none 1, testRegReg SCRATCH SCRATCH, .jcc "eq" done, incReg .rdx,
      addRegImm .r11 1, .jmp loop, .label done]
    eval src SCRATCH
    asm [.movRegReg .r11 SCRATCH]

/-- `_wire_emit` -/
def wireEmit (src : Expr) (length : Option Expr) : Gen Unit := do
  asm [.pushReg .r11]
  eval src SCRATCH
  asm [.movRegReg .r11 SCRATCH]
  wireEmitLength src length
  asm [.movRegImm64 .rax 1, .movRegImm64 .rdi 1, .movRegReg .rsi .r11, .syscall, .popReg .r11]

/-! ### Memory maps -/

/-- `_cell_map` -/
def cellMap (dest : String) (size : Expr) (prot flags : Option Expr) : Gen Unit := do
  asm (pushes [.r12, .r13, .r14])
  eval size .r12
  evalOr prot .r13 [.movRegImm64 .r13 3]
  evalOr flags .r14 [.movRegImm64 .r14 0x22]
  asm [xorRegReg .rdi .rdi, .movRegReg .rsi .r12, .movRegReg .rdx .r13, .movRegReg .r10 .r14,
    .movRegImm64 .r8 0xFFFFFFFFFFFFFFFF, xorRegReg .r9 .r9, .movRegImm64 .rax 9, .syscall]
  let dst ← reg dest
  asm (copyTo dst .rax)
  asm [.popReg .r14, .popReg .r13, .popReg .r12]

/-- `_cell_mapfile` -/
def cellMapfile (dest : String) (size fd : Expr) (offset prot : Option Expr) : Gen Unit := do
  asm (pushes [.r12, .r13, .r14, .rbx])
  eval size .r12
  eval fd .r13
  evalOr offset .r14 [xorRegReg .r14 .r14]
  evalOr prot .rbx [.movRegImm64 .rbx 3]
  asm [xorRegReg .rdi .rdi, .movRegReg .rsi .r12, .movRegReg .rdx .rbx, .movRegImm64 .r10 2, .movRegReg .r8 .r13,
    .movRegReg .r9 .r14, .movRegImm64 .rax 9, .syscall]
  let dst ← reg dest
  asm (copyTo dst .rax)
  asm [.popReg .rbx, .popReg .r14, .popReg .r13, .popReg .r12]

/-- `_cell_free` -/
def cellFree (ptr size : Expr) : Gen Unit := do
  eval ptr SCRATCH
  asm [.pushReg SCRATCH]
  eval size SCRATCH
  asm [.movRegReg .rsi SCRATCH, .popReg .rdi, .movRegImm64 .rax 11, .syscall]

/-- `_cell_protect` -/
def cellProtect (ptr size prot : Expr) : Gen Unit := do
  asm (pushes [.r12, .r13, .r14])
  eval ptr .r12
  eval size .r13
  eval prot .r14
  asm [.movRegReg .rdi .r12, .movRegReg .rsi .r13, .movRegReg .rdx .r14, .movRegImm64 .rax 10, .syscall,
    .popReg .r14, .popReg .r13, .popReg .r12]

/-! ### Atomic cells -/

/-- `_gate_cas` -/
def gateCas (addr expected desired : String) : Gen Unit := do
  let addr ← reg addr
  let exp ← reg expected
  let des ← reg desired
  let saveRax : Bool := addr ≠ .rax ∧ exp ≠ .rax
  let moveDes : Bool := des ∈ [Reg.rax, .r11, .r13]
  let desR := if moveDes then .r12 else des
  asm [.movRegReg .r11 addr]
  asm (if saveRax then [.movRegReg .r13 .rax] else [])
  asm (if moveDes then [.movRegReg .r12 des] else [])
  asm (if exp ≠ .rax then [.movRegReg .rax exp] else [])
  asm [lockCmpxchgMem .r11 0 desR]
  asm (if exp ≠ .rax then [.movRegReg exp .rax] else [])
  asm (if addr = .rax then [.movRegReg .rax .r11] else if saveRax then [.movRegReg .rax .r13] else [])

/-- `_gate_spin` -/
def gateSpin (addr : String) : Gen Unit := do
  let addr ← reg addr
  asm [.movRegReg .r11 addr]
  asm (if addr ≠ .rax then [.movRegReg .r13 .rax] else [])
  let loop ← newLabel "spin"
  asm [.label loop, xorRegReg .rax .rax, .movRegImm64 .r12 1, lockCmpxchgMem .r11 0 .r12, .jcc "neq" loop]
  asm (if addr = .rax then [.movRegReg .rax .r11] else [.movRegReg .rax .r13])

def gateFence (kind : String) : Gen Unit :=
  let k := lower (if kind = "" then "mfence" else kind)
  asm [if k = "lfence" then lfence else if k = "sfence" then sfence else mfence]

/-! ### Time -/

/-- `_pulse_sleep` -/
def pulseSleep (ns : Expr) : Gen Unit := do
  asm [.leaRegLabel .rdi (data "__timespec"), xorRegReg .rax .rax, movMemReg .rdi 0 .rax none 1]
  eval ns .rax
  asm [movMemReg .rdi 8 .rax none 1, xorRegReg .rsi .rsi, .movRegImm64 .rax 35, .syscall]

/-- `_pulse_now` -/
def pulseNow (dest : String) : Gen Unit := do
  asm [.movRegImm64 .rdi 1, .leaRegLabel .rsi (data "__timespec"), .movRegImm64 .rax 228, .syscall,
    .leaRegLabel .r11 (data "__timespec")]
  asm [movRegMem (← reg dest) .r11 0 none 1]

/-! ### Threads -/

def threadFutex : String := data "__thr_futex"

/-- One more in the cell at `off` of the thread counters, RDI pointing at them. -/
def countUp (off : Int) : List Call :=
  [movRegMem .rax .rdi off none 1, addRegImm .rax 1, movMemReg .rdi off .rax none 1]

/-- A thread tells that it is done, and wakes one that waits. -/
def signalDone : List Call :=
  [.leaRegLabel .rdi threadFutex] ++ countUp 0 ++
    [.movRegImm64 .rsi 1, .movRegImm64 .rdx 1, .movRegImm64 .rax 202, .syscall]

/-- `_thread_spawn` -/
def threadSpawn (dest label : String) : Gen Unit := do
  asm [xorRegReg .rdi .rdi, .movRegImm64 .rsi (2 ^ 20), .movRegImm64 .rdx 3, .movRegImm64 .r10 0x22,
    .movRegImm64 .r8 0xFFFFFFFFFFFFFFFF, xorRegReg .r9 .r9, .movRegImm64 .rax 9, .syscall, .movRegReg .r12 .rax,
    addRegImm .r12 (2 ^ 20 - 16), .movRegImm64 .rdi 0x00000F00, .movRegReg .rsi .r12, xorRegReg .rdx .rdx,
    xorRegReg .r10 .r10, xorRegReg .r8 .r8, .movRegImm64 .rax 56, .syscall]
  let child ← newLabel "thr_c"
  let parent ← newLabel "thr_p"
  asm [testRegReg .rax .rax, .jcc "eq" child]
  let dst ← reg dest
  asm (copyTo dst .rax)
  asm ([.pushReg .rax, .leaRegLabel .rdi threadFutex] ++ countUp 16 ++ [.popReg .rax, .jmp parent, .label child,
    .call (lbl label)])
  asm (signalDone ++ [xorRegReg .rdi .rdi, .movRegImm64 .rax 60, .syscall, .label parent])

/-- `_thread_join` -/
def threadJoin : Gen Unit := do
  let loop ← newLabel "jw"
  let done ← newLabel "jd"
  asm [.movRegImm64 .r14 200000, .label loop, .leaRegLabel .rdi threadFutex, movRegMem .rax .rdi 0 none 1,
    movRegMem .rcx .rdi 8 none 1, cmpRegReg .rax .rcx, .jcc "gt" done, cmpRegReg .rcx .rax, .jcc "below" done,
    .leaRegLabel .rdi threadFutex, xorRegReg .rsi .rsi, movRegMem .rdx .rdi 0 none 1, xorRegReg .r10 .r10,
    .movRegImm64 .rax 202, .syscall, decReg .r14, testRegReg .r14 .r14, .jcc "eq" done, .jmp loop, .label done]
  asm ([.leaRegLabel .rdi threadFutex] ++ countUp 8)

/-- `_thread_join_all` -/
def threadJoinAll : Gen Unit := do
  let loop ← newLabel "ja_w"
  let done ← newLabel "ja_d"
  asm [.movRegImm64 .r14 500000, .label loop, .leaRegLabel .rdi threadFutex, movRegMem .rax .rdi 0 none 1,
    movRegMem .rcx .rdi 16 none 1, cmpRegReg .rax .rcx, .jcc "abe" done, xorRegReg .rsi .rsi,
    movRegMem .rdx .rdi 0 none 1, xorRegReg .r10 .r10, .movRegImm64 .rax 202, .syscall, decReg .r14,
    testRegReg .r14 .r14, .jcc "eq" done, .jmp loop, .label done]

/-- `_thread_exit` -/
def threadExit (code : Option Expr) : Gen Unit := do
  asm signalDone
  evalOr code .rdi [xorRegReg .rdi .rdi]
  asm [.movRegImm64 .rax 60, .syscall]

/-! ### Sockets -/

/-- The result of a system call, in RAX, goes to the destination. -/
def result (dest : String) : Gen Unit := do asm (copyTo (← reg dest) .rax)

/-- `_net_socket` -/
def netSocket (dest : String) (domain type protocol : Expr) : Gen Unit := do
  eval domain .rdi
  eval type .rsi
  eval protocol .rdx
  asm [.movRegImm64 .rax 41, .syscall]
  result dest

/-- `_net_connect` -/
def netConnect (sock addr addrlen : Expr) : Gen Unit := do
  eval sock .rdi
  eval addr .rsi
  eval addrlen .rdx
  asm [.movRegImm64 .rax 42, .syscall]

/-- `_net_send` -/
def netSend (sock buf length : Expr) : Gen Unit := do
  eval sock .rdi
  eval buf .rsi
  eval length .rdx
  asm [xorRegReg .r10 .r10, .movRegImm64 .rax 44, .syscall]

/-- `_net_recv` -/
def netRecv (sock buf length : Expr) : Gen Unit := do
  eval sock .rdi
  eval buf .rsi
  eval length .rdx
  asm [xorRegReg .r10 .r10, .movRegImm64 .rax 45, .syscall]

/-- `_net_close` -/
def netClose (sock : Expr) : Gen Unit := do
  eval sock .rdi
  asm [.movRegImm64 .rax 3, .syscall]

/-- `_net_poll` -/
def netPoll (fds nfds timeout : Expr) : Gen Unit := do
  asm (pushes [.r12, .r13, .r14])
  eval fds .r12
  eval nfds .r13
  eval timeout .r14
  asm [.movRegReg .rdi .r12, .movRegReg .rsi .r13, .movRegReg .rdx .r14, .movRegImm64 .rax 7, .syscall,
    .popReg .r14, .popReg .r13, .popReg .r12]

/-- `_net_epoll_create` -/
def netEpollCreate (dest : String) (flags : Option Expr) : Gen Unit := do
  evalOr flags .rdi [xorRegReg .rdi .rdi]
  asm [.movRegImm64 .rax 291, .syscall]
  result dest

/-- `_net_epoll_ctl` -/
def netEpollCtl (epfd op fd eventPtr : Expr) : Gen Unit := do
  asm (pushes [.r12, .r13, .r14, .rbx])
  eval epfd .r12
  eval op .r13
  eval fd .r14
  eval eventPtr .rbx
  asm [.movRegReg .rdi .r12, .movRegReg .rsi .r13, .movRegReg .rdx .r14, .movRegReg .r10 .rbx,
    .movRegImm64 .rax 233, .syscall, .popReg .rbx, .popReg .r14, .popReg .r13, .popReg .r12]

/-- `_net_epoll_wait` -/
def netEpollWait (dest : String) (epfd events maxevents timeout : Expr) : Gen Unit := do
  asm (pushes [.r12, .r13, .r14, .rbx])
  eval epfd .r12
  eval events .r13
  eval maxevents .r14
  eval timeout .rbx
  asm [.movRegReg .rdi .r12, .movRegReg .rsi .r13, .movRegReg .rdx .r14, .movRegReg .r10 .rbx,
    .movRegImm64 .rax 232, .syscall]
  let dst ← reg dest
  asm (copyTo dst .rax)
  asm [.popReg .rbx, .popReg .r14, .popReg .r13, .popReg .r12]

/-! ### Signals -/

def isDigit (c : Char) : Bool := '0' ≤ c && c ≤ '9'

/-- `s.lstrip('-').isdigit()`, up to digits that are not ASCII. -/
def isNumeral (s : String) : Bool :=
  let digits := s.toList.dropWhile (· = '-')
  digits ≠ [] && digits.all isDigit

/-- `int(s, 0)` of a numeral, or zero where that raises: at most one sign, and no leading zeros. -/
def handlerValue (s : String) : Int :=
  let (sign, digits) : Int × List Char := match s.toList with
    | '-' :: digits => (-1, digits)
    | digits => (1, digits)
  match digits with
  | '0' :: _ => 0
  | digits => if digits.all isDigit then sign * (parseInt digits).getD 0 else 0

def handlerCall (handler : String) : Call :=
  if handler ≠ "" ∧ ¬ isNumeral handler then .leaRegLabel .r13 (lbl handler)
  else .movRegImm64 .r13 (handlerValue handler)

/-- `_sig_action` -/
def sigAction (signo : Expr) (handler : String) : Gen Unit := do
  eval signo .r12
  asm [handlerCall handler]
  asm [subRegImm .rsp 32, movMemReg .rsp 0 .r13 none 1, xorRegReg .rax .rax, movMemReg .rsp 8 .rax none 1,
    movMemReg .rsp 16 .rax none 1, movMemReg .rsp 24 .rax none 1, .movRegReg .rdi .r12, .movRegReg .rsi .rsp,
    xorRegReg .rdx .rdx, .movRegImm64 .r10 8, .movRegImm64 .rax 13, .syscall, addRegImm .rsp 32]

end Aclm.Codegen
