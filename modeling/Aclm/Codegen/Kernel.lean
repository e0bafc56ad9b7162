import Aclm.Codegen.Core

/-! The emitters of the freestanding statements: ports, interrupts, and the kernel's small services. -/

set_option autoImplicit false

namespace Aclm.Codegen

open X64 (Byte Reg)
open Encoder

/-- Eight bytes at `[base + disp]`, and the other widths. -/
def load64 (dst base : Reg) (disp : Int) : Call := movRegMem dst base disp none 1
def store64 (base : Reg) (disp : Int) (src : Reg) : Call := movMemReg base disp src none 1
def load32 (dst base : Reg) (disp : Int) : Call := mov32RegMem dst base disp none 1
def store32 (base : Reg) (disp : Int) (src : Reg) : Call := mov32MemReg base disp src none 1
def store16 (base : Reg) (disp : Int) (src : Reg) : Call := mov16MemReg base disp src none 1
def load8 (dst base : Reg) (disp : Int) : Call := mov8RegMem dst base disp none 1
def store8 (base : Reg) (disp : Int) (src : Reg) : Call := mov8MemReg base disp src none 1

/-! ### Ports -/

/-- `out` of a constant to a constant port. -/
def outPort (port val : Int) : List Call := [.movRegImm64 .rdx port, .movRegImm64 .rax val, outDxAl]

def portOut (port value : Expr) : Gen Unit := do
  eval port .rdx
  eval value .rax
  asm [outDxAl]

def portIn (dest : String) (port : Expr) : Gen Unit := do
  eval port .rdx
  asm [.inAlDx]
  let dst ← reg dest
  asm (copyTo dst .rax)
  asm [.movRegImm64 SCRATCH 0xFF, andRegReg dst SCRATCH]

/-- `_serial_init` -/
def serialInit : Gen Unit :=
  asm ([.pushReg .rax, .pushReg .rdx, .movRegImm64 .rdx 0x3F9, xorRegReg .rax .rax, outDxAl] ++
    outPort 0x3FB 0x80 ++ outPort 0x3F8 0x01 ++ [.movRegImm64 .rdx 0x3F9, xorRegReg .rax .rax, outDxAl] ++
    outPort 0x3FB 0x03 ++ outPort 0x3FA 0xC7 ++ outPort 0x3FC 0x0B ++ [.popReg .rdx, .popReg .rax])

/-- `_serial_putc` -/
def serialPutc (value : Expr) : Gen Unit := do
  asm [.pushReg .rax, .pushReg .rdx]
  eval value .rax
  asm [.pushReg .rax]
  let loop ← newLabel "ser"
  asm [.label loop, .movRegImm64 .rdx 0x3FD, .inAlDx, andRegImm .rax 0x20, testRegReg .rax .rax, .jcc "eq" loop,
    .popReg .rax, .movRegImm64 .rdx 0x3F8, outDxAl, .popReg .rdx, .popReg .rax]

/-- `_kbd_poll` -/
def kbdPoll (dest : String) : Gen Unit := do
  let dest ← reg dest
  asm [.pushReg .rdx, .movRegImm64 .rdx 0x64, .inAlDx, andRegImm .rax 1, testRegReg .rax .rax]
  let ok ← newLabel "kbdok"
  let done ← newLabel "kbdd"
  asm [.jcc "neq" ok, xorRegReg dest dest, .jmp done, .label ok, .movRegImm64 .rdx 0x60, .inAlDx]
  asm (copyTo dest .rax)
  asm [.label done, .popReg .rdx]

/-- `_pit_init` -/
def pitInit (divisor : Int) : Gen Unit :=
  let d := divisor % 0x10000
  asm ([.pushReg .rax, .pushReg .rdx] ++ outPort 0x43 0x36 ++ outPort 0x40 (d % 0x100) ++
    [.movRegImm64 .rax (d / 0x100 % 0x100), outDxAl, .popReg .rdx, .popReg .rax])

/-- `_pic_remap` -/
def picRemap : Gen Unit :=
  asm ([.pushReg .rax, .pushReg .rdx] ++ outPort 0x20 0x11 ++ outPort 0xA0 0x11 ++ outPort 0x21 0x20 ++
    outPort 0xA1 0x28 ++ outPort 0x21 0x04 ++ outPort 0xA1 0x02 ++ outPort 0x21 0x01 ++ outPort 0xA1 0x01 ++
    outPort 0x21 0x00 ++ outPort 0xA1 0x00 ++ [.popReg .rdx, .popReg .rax])

/-! ### The heap -/

/-- `_kernel_heap_init` -/
def kernelHeapInit (size : Int) : Gen Unit := do
  reserve "__kheap" (zeroBytes size)
  reserve "__kheap_ptr" (zeroBytes 8)
  asm [.leaRegLabel SCRATCH (data "__kheap"), .leaRegLabel .r12 (data "__kheap_ptr"), store64 .r12 0 SCRATCH]

/-- `_kernel_heap_alloc` -/
def kernelHeapAlloc (dest : String) (size : Expr) : Gen Unit := do
  let dest ← reg dest
  asm [.pushReg .r12, .leaRegLabel .r12 (data "__kheap_ptr"), load64 SCRATCH .r12 0, .movRegReg dest SCRATCH]
  eval size .r11
  asm [addRegReg SCRATCH .r11, store64 .r12 0 SCRATCH, .popReg .r12]

/-! ### Contexts -/

/-- The order of the registers in a context block. -/
def CONTEXT : List Reg :=
  [.rax, .rbx, .rcx, .rdx, .rsi, .rdi, .r8, .r9, .r10, .r11, .r12, .r13, .r14, .r15]

def contextStores (regs : List Reg) (i : Nat) : List Call :=
  match regs with
  | [] => []
  | r :: rest => store64 SCRATCH (i * 8) r :: contextStores rest (i + 1)

def contextLoads (regs : List Reg) (i : Nat) : List Call :=
  match regs with
  | [] => []
  | r :: rest => load64 r SCRATCH (i * 8) :: contextLoads rest (i + 1)

def ctxSaveCalls (base : Reg) : List Call :=
  [.pushReg base, .movRegReg SCRATCH base] ++ contextStores (CONTEXT ++ [.rbp]) 0 ++
    [load64 .r11 .rsp 0, store64 SCRATCH (15 * 8) .rsp, .popReg base]

def ctxLoadCalls (base : Reg) : List Call :=
  [.movRegReg SCRATCH base] ++ contextLoads CONTEXT 0 ++ [load64 .rbp SCRATCH (14 * 8)]

/-- `_kernel_ctx_save` -/
def kernelCtxSave (dest : String) : Gen Unit := do asm (ctxSaveCalls (← reg dest))

/-- `_kernel_ctx_load` -/
def kernelCtxLoad (src : String) : Gen Unit := do asm (ctxLoadCalls (← reg src))

/-- `_kernel_coop_switch` -/
def kernelCoopSwitch (save load : String) : Gen Unit := do
  kernelCtxSave save
  kernelCtxLoad load

/-! ### Interrupts -/

/-- A gate for the handler in RSI at `[rdi]`. -/
def gateStores : List Call :=
  [store16 .rdi 0 .rsi, .movRegImm64 .rax 0x08, store16 .rdi 2 .rax, .movRegImm64 .rax 0x8E00, store16 .rdi 4 .rax,
    .movRegReg .rax .rsi, shrRegImm8 .rax 16, store16 .rdi 6 .rax, .movRegReg .rax .rsi, shrRegImm8 .rax 32,
    store32 .rdi 8 .rax, xorRegReg .rax .rax, store32 .rdi 12 .rax]

/-- The gate of one vector, if there is a table. -/
def patchGate (stub : String) (vector : Int) : Gen Unit := do
  if (← get).dataLayout.contains "__idt" then
    asm ([.pushReg .rax, .pushReg .rdi, .pushReg .rsi, .leaRegLabel .rsi stub, .leaRegLabel .rdi (data "__idt"),
      addRegImm .rdi (vector * 16)] ++ gateStores ++ [.popReg .rsi, .popReg .rdi, .popReg .rax])

/-- A handler that stops the processor, with the jump around it. -/
def stopStub (stub after : String) : List Call := [.jmp after, .label stub, cli, .hlt, .jmp stub, .label after]

/-- `_kernel_idt_install` -/
def kernelIdtInstall : Gen Unit := do
  once .idtHandler (stopStub "__isr_default" "__idt_after_handler")
  reserve "__idt" (zeroBytes (256 * 16))
  reserve "__idtr" (zeroBytes 10)
  asm [.pushReg .rax, .pushReg .rcx, .pushReg .rdx, .pushReg .rdi, .pushReg .rsi, .leaRegLabel .rsi "__isr_default",
    .leaRegLabel .rdi (data "__idt"), .movRegImm64 .rcx 256]
  let loop ← newLabel "idtf"
  asm ([.label loop, .movRegReg .rax .rsi, store64 .rdi 0 .rax] ++ gateStores ++
    [addRegImm .rdi 16, subRegImm .rcx 1, testRegReg .rcx .rcx, .jcc "neq" loop])
  asm [.leaRegLabel .rax (data "__idt"), .leaRegLabel .rdi (data "__idtr"), .movRegImm64 .rcx (256 * 16 - 1),
    store16 .rdi 0 .rcx, store64 .rdi 2 .rax, lidtMem .rdi 0, .popReg .rsi, .popReg .rdi, .popReg .rdx, .popReg .rcx,
    .popReg .rax]

/-- `_kernel_tick_install` -/
def kernelTickInstall : Gen Unit := do
  reserve "__tick" (zeroBytes 8)
  once .irq0 ([.jmp "__after_irq0", .label "__irq0_stub", .pushReg .rax, .pushReg .rdx,
    .leaRegLabel .rax (data "__tick"), load64 .rdx .rax 0, addRegImm .rdx 1, store64 .rax 0 .rdx] ++
    outPort 0x20 0x20 ++ [.popReg .rdx, .popReg .rax, iretq, .label "__after_irq0"])
  patchGate "__irq0_stub" 32

/-- `_kernel_tick_read` -/
def kernelTickRead (dest : String) : Gen Unit := do
  let dest ← reg dest
  reserve "__tick" (zeroBytes 8)
  asm [.leaRegLabel SCRATCH (data "__tick"), load64 dest SCRATCH 0]

/-- `_kernel_pf_install` -/
def kernelPfInstall : Gen Unit := do
  once .pf (stopStub "__pf_stub" "__after_pf")
  patchGate "__pf_stub" 14

/-- `_kernel_nmi_install` -/
def kernelNmiInstall : Gen Unit := do
  once .nmi (stopStub "__nmi_stub" "__after_nmi")
  patchGate "__nmi_stub" 2

/-- The registers of the full IRQ0 frame, in the order they are stored. -/
def IRQ_GPRS : List Reg := [.rax, .rbx, .rcx, .rdx, .rsi, .rdi, .r8, .r9, .r10, .r11, .r12, .r13, .r14]

/-- `_kernel_irq_full_save_on` -/
def kernelIrqFullSaveOn : Gen Unit := do
  reserve "__irq_gprs" (zeroBytes 128)
  reserve "__tick" (zeroBytes 8)
  once .irq0Full ([.jmp "__after_irq0_full", .label "__irq0_full", .pushReg .r15,
    .leaRegLabel .r15 (data "__irq_gprs")] ++ contextStores IRQ_GPRS 0 ++
    [load64 .rax .rsp 0, store64 .r15 104 .rax, .leaRegLabel .rax (data "__tick"), load64 .rdx .rax 0,
      addRegImm .rdx 1, store64 .rax 0 .rdx] ++ outPort 0x20 0x20 ++ [.leaRegLabel .r15 (data "__irq_gprs")] ++
    contextLoads IRQ_GPRS 0 ++ [.popReg .r15, iretq, .label "__after_irq0_full"])
  patchGate "__irq0_full" 32

/-! ### Messages -/

/-- `_kernel_printk_str` -/
def kernelPrintkStr (src : Expr) : Gen Unit := do
  asm [.pushReg .r12]
  eval src .r12
  let loop ← newLabel "pks"
  let done ← newLabel "pkd"
  asm [.label loop, load8 SCRATCH .r12 0, testRegReg SCRATCH SCRATCH, .jcc "eq" done, .pushReg .rax, .pushReg .rdx,
    .movRegReg .rax SCRATCH, .pushReg .rax]
  let wait ← newLabel "pkw"
  asm [.label wait, .movRegImm64 .rdx 0x3FD, .inAlDx, andRegImm .rax 0x20, testRegReg .rax .rax, .jcc "eq" wait,
    .popReg .rax, .movRegImm64 .rdx 0x3F8, outDxAl, .popReg .rdx, .popReg .rax, addRegImm .r12 1, .jmp loop,
    .label done, .popReg .r12]

/-- `_kernel_panic`; `ord("P")` is 80. -/
def kernelPanic : Gen Unit := do
  asm [cli, .movRegImm64 .rax 80, .pushReg .rax, .movRegImm64 .rdx 0x3F8, .popReg .rax, outDxAl, .hlt]
  let panic ← newLabel "pan"
  asm [.label panic, .hlt, .jmp panic]

/-! ### The file table -/

/-- `_kernel_ramfs_init` -/
def kernelRamfsInit : Gen Unit := do
  reserve "__ramfs" (zeroBytes 256)
  asm [.pushReg .rdi, .pushReg .rcx, .leaRegLabel .rdi (data "__ramfs"), .movRegImm64 .rcx 256, xorRegReg .rax .rax]
  let z ← newLabel "rfz"
  asm [.label z, store8 .rdi 0 .rax, addRegImm .rdi 1, subRegImm .rcx 1, testRegReg .rcx .rcx, .jcc "neq" z,
    .popReg .rcx, .popReg .rdi]

/-- `_kernel_ramfs_put` -/
def kernelRamfsPut (name fileData length : Expr) : Gen Unit := do
  reserve "__ramfs" (zeroBytes 256)
  asm [.pushReg .r12, .pushReg .r13, .pushReg .r14]
  eval name .r12
  eval fileData .r13
  eval length .r14
  asm [.leaRegLabel SCRATCH (data "__ramfs"), .movRegImm64 .rcx 8]
  let fs ← newLabel "rfs"
  let found ← newLabel "rff"
  let done ← newLabel "rfd"
  asm [.label fs, load8 .rax SCRATCH 0, testRegReg .rax .rax, .jcc "eq" found, addRegImm SCRATCH 32, subRegImm .rcx 1,
    testRegReg .rcx .rcx, .jcc "neq" fs, .jmp done, .label found, .movRegReg .rdi SCRATCH, .movRegReg .rsi .r12,
    .movRegImm64 .rcx 15]
  let cn ← newLabel "rfc"
  asm [.label cn, load8 .rax .rsi 0, store8 .rdi 0 .rax, testRegReg .rax .rax, .jcc "eq" done, addRegImm .rsi 1,
    addRegImm .rdi 1, subRegImm .rcx 1, testRegReg .rcx .rcx, .jcc "neq" cn, xorRegReg .rax .rax, store8 .rdi 0 .rax,
    .label done, store64 SCRATCH 16 .r13, store64 SCRATCH 24 .r14, .popReg .r14, .popReg .r13, .popReg .r12]

/-- `_kernel_ramfs_get` -/
def kernelRamfsGet (dest : String) (name : Expr) : Gen Unit := do
  let dest ← reg dest
  reserve "__ramfs" (zeroBytes 256)
  asm [.pushReg .r12, .pushReg .r13, .pushReg .r14]
  eval name .r12
  asm [.leaRegLabel .r13 (data "__ramfs"), .movRegImm64 .rcx 8]
  let loop ← newLabel "rfgl"
  let fail ← newLabel "rfgf"
  let ok ← newLabel "rfgok"
  let done ← newLabel "rfgd"
  asm [.label loop, .movRegReg .rsi .r13, .movRegReg .rdi .r12, .movRegImm64 .r14 16]
  let cmpl ← newLabel "rfgc"
  asm [.label cmpl, load8 .rax .rsi 0, load8 .rdx .rdi 0, cmpRegReg .rax .rdx]
  let ne ← newLabel "rfgne"
  asm [.jcc "neq" ne, testRegReg .rax .rax, .jcc "eq" ok, addRegImm .rsi 1, addRegImm .rdi 1, subRegImm .r14 1,
    testRegReg .r14 .r14, .jcc "neq" cmpl, .jmp ok, .label ne, addRegImm .r13 32, subRegImm .rcx 1,
    testRegReg .rcx .rcx, .jcc "neq" loop, .jmp fail, .label ok, load64 dest .r13 16, .jmp done, .label fail,
    xorRegReg dest dest, .label done, .popReg .r14, .popReg .r13, .popReg .r12]

/-! ### The network policy and the NIC -/

/-- `_kernel_net_init` -/
def kernelNetInit : Gen Unit := reserve "__net" (1 :: zeroBytes 7)

/-- `_kernel_net_poll` -/
def kernelNetPoll (dest : String) : Gen Unit := do
  let dest ← reg dest
  asm [xorRegReg dest dest]

/-- `_kernel_cs_ring` -/
def kernelCsRing (dest : String) : Gen Unit := do
  let dest ← reg dest
  asm [rawBytes [0x66, 0x8C, 0xC8], andRegImm .rax 3]
  asm (copyTo dest .rax)

/-- `_kernel_enter_user` -/
def kernelEnterUser (entry stack : Expr) : Gen Unit := do
  asm [.pushReg .rax]
  eval stack .rax
  asm [.movRegReg .rsp .rax, .movRegImm64 .rax 0x23, .pushReg .rax]
  eval stack .rax
  asm [.pushReg .rax, .movRegImm64 .rax 0x202, .pushReg .rax, .movRegImm64 .rax 0x1B, .pushReg .rax]
  eval entry .rax
  asm [.pushReg .rax, iretq]

/-- `_kernel_net_allow` -/
def kernelNetAllow (port : Int) : Gen Unit := do
  reserve "__net_allow" (zeroBytes 8)
  let bit : Int := 2 ^ (port % 64).toNat
  asm [.pushReg .rax, .pushReg .rcx, .leaRegLabel .rax (data "__net_allow"), load64 .rcx .rax 0,
    .movRegImm64 .rdx bit, orRegReg .rcx .rdx, store64 .rax 0 .rcx, .popReg .rcx, .popReg .rax]

/-- `_kernel_net_check` -/
def kernelNetCheck (dest : String) (port : Expr) : Gen Unit := do
  let dest ← reg dest
  reserve "__net_allow" (zeroBytes 8)
  asm [.pushReg .rcx, .pushReg .rdx, .pushReg .rsi]
  eval port .rcx
  asm [andRegImm .rcx 63, .leaRegLabel .rsi (data "__net_allow"), load64 .rdx .rsi 0, .movRegImm64 .rsi 1,
    shlRegCl .rsi, andRegReg .rdx .rsi, testRegReg .rdx .rdx]
  let nz ← newLabel "nck"
  let z ← newLabel "nckz"
  asm [.jcc "neq" nz, xorRegReg dest dest, .jmp z, .label nz, .movRegImm64 dest 1, .label z, .popReg .rsi,
    .popReg .rdx, .popReg .rcx]

/-- `_kernel_preempt_arm` -/
def kernelPreemptArm (ctx : String) : Gen Unit := do
  reserve "__preempt_req" (zeroBytes 8)
  asm [.pushReg .rax, .leaRegLabel .rax (data "__preempt_req")]
  asm [store64 .rax 0 (← reg ctx), .popReg .rax]

/-- `_kernel_nic_bar` -/
def kernelNicBar (addr : Expr) : Gen Unit := do
  reserve "__nic_bar" (zeroBytes 8)
  asm [.pushReg .rax]
  eval addr .rax
  asm [.leaRegLabel SCRATCH (data "__nic_bar"), store64 SCRATCH 0 .rax, .popReg .rax]

/-- `_kernel_nic_read` -/
def kernelNicRead (dest : String) (offset : Expr) : Gen Unit := do
  let dest ← reg dest
  reserve "__nic_bar" (zeroBytes 8)
  asm [.pushReg .rdx, .pushReg .rsi, .leaRegLabel .rsi (data "__nic_bar"), load64 .rsi .rsi 0]
  eval offset .rdx
  asm [addRegReg .rsi .rdx, load32 dest .rsi 0, .popReg .rsi, .popReg .rdx]

/-- `_kernel_nic_write` -/
def kernelNicWrite (offset value : Expr) : Gen Unit := do
  reserve "__nic_bar" (zeroBytes 8)
  asm [.pushReg .rax, .pushReg .rdx, .pushReg .rcx, .leaRegLabel .rax (data "__nic_bar"), load64 .rax .rax 0]
  eval offset .rdx
  asm [addRegReg .rax .rdx]
  eval value .rcx
  asm [store32 .rax 0 .rcx, .popReg .rcx, .popReg .rdx, .popReg .rax]

/-! ### System calls -/

/-- `_kernel_syscall_init` -/
def kernelSyscallInit : Gen Unit := do
  once .sysentry [.jmp "__after_sysentry", .label "__syscall_entry", sysret, .label "__after_sysentry"]
  asm [.pushReg .rax, .pushReg .rcx, .pushReg .rdx, .movRegImm64 .rcx 0xC0000080, rdmsr, orRegImm .rax 1, wrmsr,
    .movRegImm64 .rcx 0xC0000081, .movRegImm64 .rax 0, .movRegImm64 .rdx 0x001B0008, .movRegImm64 .rdx 0x001B0008,
    xorRegReg .rax .rax, wrmsr, .movRegImm64 .rcx 0xC0000082, .leaRegLabel .rax "__syscall_entry",
    .movRegReg .rdx .rax, shrRegImm8 .rdx 32, wrmsr, .movRegImm64 .rcx 0xC0000084, .movRegImm64 .rax 0x200,
    xorRegReg .rdx .rdx, wrmsr, .popReg .rdx, .popReg .rcx, .popReg .rax]

/-- `_kernel_syscall_table_init` -/
def kernelSyscallTableInit : Gen Unit := do
  reserve "__systab" (zeroBytes (64 * 8))
  once .nosys [.jmp "__after_nosys", .label "__nosys", .movRegImm64 .rax 0xFFFFFFFFFFFFFFFF, sysret,
    .label "__after_nosys"]
  asm [.pushReg .rax, .pushReg .rcx, .pushReg .rdi, .leaRegLabel .rax "__nosys", .leaRegLabel .rdi (data "__systab"),
    .movRegImm64 .rcx 64]
  let loop ← newLabel "sti"
  asm [.label loop, store64 .rdi 0 .rax, addRegImm .rdi 8, subRegImm .rcx 1, testRegReg .rcx .rcx, .jcc "neq" loop,
    .popReg .rdi, .popReg .rcx, .popReg .rax]
  once .sysdispatch [.jmp "__after_sysdispatch", .label "__syscall_dispatch", .pushReg .rbx, .movRegReg .rbx .rax,
    andRegImm .rbx 63, .leaRegLabel .rax (data "__systab"), shlRegImm8 .rbx 3, addRegReg .rax .rbx,
    load64 .rax .rax 0, callReg .rax, .popReg .rbx, sysret, .label "__after_sysdispatch"]
  asm [.pushReg .rax, .pushReg .rcx, .pushReg .rdx, .movRegImm64 .rcx 0xC0000082,
    .leaRegLabel .rax "__syscall_dispatch", .movRegReg .rdx .rax, shrRegImm8 .rdx 32, wrmsr, .popReg .rdx,
    .popReg .rcx, .popReg .rax]

/-- `_kernel_syscall_register` -/
def kernelSyscallRegister (nr : Int) (handler : String) : Gen Unit := do
  reserve "__systab" (zeroBytes (64 * 8))
  asm [.pushReg .rax, .pushReg .rdi, .leaRegLabel .rax (lbl handler), .leaRegLabel .rdi (data "__systab"),
    addRegImm .rdi (nr % 64 * 8), store64 .rdi 0 .rax, .popReg .rdi, .popReg .rax]

/-! ### The DMA ring -/

/-- The ring and, beside it, its number of slots under the name of a datum. -/
def reserveRing (n : Int) : Gen Unit := do
  unless (← get).dataLayout.contains "__dmaring" do
    reserve "__dmaring" (zeroBytes (16 + n * 16))
    modify fun g => { g with dataLayout := g.dataLayout.set "__dmaring_slots" n }

/-- `_kernel_dma_ring_init` -/
def kernelDmaRingInit (slots : Int) : Gen Unit := do
  reserveRing slots
  asm [.pushReg .rax, .pushReg .rdi, .leaRegLabel .rdi (data "__dmaring"), xorRegReg .rax .rax, store64 .rdi 0 .rax,
    store64 .rdi 4 .rax, .movRegImm64 .rax (slots - 1), store32 .rdi 8 .rax, .popReg .rdi, .popReg .rax]

/-- The scratch registers of the ring operations. -/
def RING_TEMPS : List Reg := [.r8, .r9, .r10, .r11]

/-- `_kernel_dma_ring_push` -/
def kernelDmaRingPush (addr length : Expr) : Gen Unit := do
  asm (pushes RING_TEMPS)
  asm [.leaRegLabel .r8 (data "__dmaring"), load32 .r9 .r8 0, load32 .r10 .r8 4, load32 .r11 .r8 8,
    .movRegReg .rax .r9, addRegImm .rax 1, andRegReg .rax .r11, cmpRegReg .rax .r10]
  let full ← newLabel "dmf"
  let ok ← newLabel "dmo"
  asm [.jcc "eq" full, .movRegReg .rax .r9, shlRegImm8 .rax 4, addRegImm .rax 16, addRegReg .rax .r8,
    .movRegReg .r10 .rax]
  eval addr .rax
  asm [store64 .r10 0 .rax]
  eval length .rax
  asm [store64 .r10 8 .rax, .movRegReg .rax .r9, addRegImm .rax 1, andRegReg .rax .r11, store32 .r8 0 .rax]
  let status ← reg "reg1"
  asm [xorRegReg status status, .jmp ok, .label full, .movRegImm64 status 1, .label ok]
  asm (RING_TEMPS.reverse.map .popReg)

/-- `_kernel_dma_ring_pop` -/
def kernelDmaRingPop (destAddr destLen : String) : Gen Unit := do
  let da ← reg destAddr
  let dl ← reg destLen
  asm (pushes RING_TEMPS)
  asm [.leaRegLabel .r8 (data "__dmaring"), load32 .r9 .r8 0, load32 .r10 .r8 4, cmpRegReg .r9 .r10]
  let empty ← newLabel "dme"
  let ok ← newLabel "dmok"
  asm [.jcc "eq" empty, load32 .r11 .r8 8, .movRegReg .rax .r10, shlRegImm8 .rax 4, addRegImm .rax 16,
    addRegReg .rax .r8, load64 da .rax 0, load64 dl .rax 8, addRegImm .r10 1, andRegReg .r10 .r11, store32 .r8 4 .r10]
  let status ← reg "reg1"
  asm [xorRegReg status status, .jmp ok, .label empty, .movRegImm64 status 1, .label ok]
  asm (RING_TEMPS.reverse.map .popReg)

end Aclm.Codegen
