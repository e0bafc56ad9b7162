import Aclm.Codegen.Changes

/-! Every emitter is a step of an emission, and so is the whole program. -/

set_option autoImplicit false

namespace Aclm.Codegen

open X64 (Reg)
open Encoder

/-- An emitter that raises or returns fixed bytes. -/
def Fixed (x : Except PyErr Call) : Prop := ∀ call, x = .ok call → ∃ data, call = .bytes data

theorem Fixed.ok (data : List X64.Byte) : Fixed (.ok (.bytes data)) := fun _ same => ⟨data, (Except.ok.inj same).symm⟩

theorem Fixed.error (e : PyErr) : Fixed (.error e) := fun _ same => nomatch same

theorem Fixed.bind {α : Type} (x : Except PyErr α) {f : α → Except PyErr Call} (rest : ∀ a, Fixed (f a)) :
    Fixed (x >>= f) := by
  cases x with
  | error e => exact .error e
  | ok a => exact rest a

theorem Fixed.vecBin (op : SseOp) (dst src : String) : Fixed (sseCall op dst src) := by
  cases op <;> exact .bind _ fun _ => .bind _ fun _ => .ok _

theorem Fixed.vecVBin (op : AvxOp) (dst src : String) (imm : Int) : Fixed (avxCall op dst src imm) := by
  cases op with
  | vshufps | vbroadcastss => exact .bind _ fun _ => .bind _ fun _ => .ok _
  | _ => exact .bind _ fun _ => .bind _ fun _ => .bind _ fun _ => .ok _

theorem Fixed.movups (opcode : X64.Byte) (xmm : String) (base : Reg) (disp : Int) : Fixed (movups opcode xmm base disp) :=
  .bind _ fun _ => .bind _ fun _ => .ok _

theorem Fixed.vmovups (opcode : X64.Byte) (ymm : String) (base : Reg) (disp : Int) : Fixed (vmovups opcode ymm base disp) :=
  .bind _ fun _ => .ok _

theorem Fixed.cmovRegMem (cond : String) (dst base : Reg) (disp : Int) : Fixed (cmovRegMem cond dst base disp) := by
  unfold Encoder.cmovRegMem
  split
  · exact .error _
  · exact .ok _

namespace Regular

theorem one (call : Reg → Call) (a : String) (plain : ∀ r, AllOwn [call r]) : Regular (one call a) :=
  .bind (.reg _) fun r => .calls (plain r)

theorem two (call : Reg → Reg → Call) (a b : String) (plain : ∀ r s, AllOwn [call r s]) :
    Regular (two call a b) :=
  .bind (.reg _) fun r => .bind (.reg _) fun s => .calls (plain r s)

theorem three (call : Reg → Reg → Reg → Call) (a b c : String) (plain : ∀ r s t, AllOwn [call r s t]) :
    Regular (three call a b c) :=
  .bind (.reg _) fun r => .bind (.reg _) fun s => .bind (.reg _) fun t => .calls (plain r s t)

/-! ### The core language -/

theorem emitCmp (left right : Expr) : Regular (emitCmp left right) :=
  .seq (.calls trivial) <| .seq (.eval _ _) <| .seq (.calls trivial) <| .seq (.eval _ _) (.calls trivial)

theorem cpuBinCalls_own (op : CpuBinOp) (value : Expr) (dst val : Reg) : AllOwn (cpuBinCalls op value dst val) := by
  have shifts (shift : ShiftOp) : AllOwn (shiftCalls shift value dst val) := by
    unfold shiftCalls
    split
    · trivial
    · exact ite_own trivial trivial
  cases op <;> first | trivial | exact shifts _

theorem cpuBin (op : CpuBinOp) (dest : String) (value : Expr) : Regular (cpuBin op dest value) := by
  refine .bind .get fun g => ?_
  split
  · exact .ite (.seq (.eval _ _) (.calls trivial))
      (.seq (.calls trivial) <| .seq (.eval _ _) <| .seq (.calls (cpuBinCalls_own _ _ _ _)) (.calls trivial))
  · exact .bind (.reg _) fun _ => .ite (.eval _ _) (.seq (.eval _ _) (.calls (cpuBinCalls_own _ _ _ _)))

theorem cpuUnary (op : CpuUnaryOp) (dest : String) : Regular (cpuUnary op dest) := by
  refine .bind .get fun g => ?_
  split
  · exact .calls (by cases op <;> trivial)
  · exact .bind (.reg _) fun _ => .calls (by cases op <;> trivial)

theorem storeLocal_own (off : Option Int) (src : Reg) : AllOwn (storeLocal off src) := by
  cases off <;> trivial

theorem loadReg (off : Option Int) (dest : String) : Regular (loadReg off dest) := by
  cases off with
  | none => exact .reg _
  | some off => exact .pure _

theorem memLoad (dest : String) (base offset : Expr) (width : Size) (index : Option Expr) (scale : Int) :
    Regular (memLoad dest base offset width index scale) :=
  .bind (.baseReg _) fun _ => .bind .get fun _ => .bind (.ofExcept _) fun _ => .bind .get fun _ =>
    .bind (.loadReg _ _) fun _ => .bind (.indexReg _) fun _ => .seq (.calls trivial) (.calls (storeLocal_own _ _))

theorem memStore (base offset value : Expr) (width : Size) (index : Option Expr) (scale : Int) :
    Regular (memStore base offset value width index scale) :=
  .seq (.calls trivial) <| .seq (.eval _ _) <| .bind (.baseReg _) fun _ => .bind .get fun _ =>
    .bind (.ofExcept _) fun _ => .bind (.indexReg _) fun _ => .calls trivial

theorem leaRegMem_own (dst base : Reg) (disp : Int) (index : Option Reg) (scale : Int) :
    AllOwn [leaRegMem dst base disp index scale] := by
  cases index <;> trivial

theorem cpuLea (dest : String) (base : Expr) (index : Option Expr) (scale offset : Int) :
    Regular (cpuLea dest base index scale offset) := by
  refine .bind (.reg _) fun dst => ?_
  split
  · exact .ite (.calls trivial) (.bind (.basePhys _) fun _ => .calls (leaRegMem_own _ _ _ _ _))
  · exact .bind (.basePhys _) fun _ => .bind (.indexReg _) fun _ => .calls (leaRegMem_own _ _ _ _ _)

theorem emitCall (label : String) (args : List Expr) : Regular (emitCall label args) :=
  .seq (.pushArgs _ _) <| .seq (.calls (map_pop_own _)) (.calls trivial)

theorem emitSyscall (num : SysNum) (args : List Expr) : Regular (emitSyscall num args) := by
  have body : Regular (do
      let num ← Codegen.ofExcept (syscallNumber num)
      Codegen.pushArgs SCRATCH (args.take 6)
      asm (popArgs (args.take 6).length SYSCALL_ARGS)
      asm [.movRegImm64 .rax num, .pushReg .rcx, .pushReg .r11, .syscall, .popReg .r11, .popReg .rcx]) :=
    .bind (.ofExcept _) fun _ => .seq (.pushArgs _ _) <| .seq (.calls (map_pop_own _)) (.calls trivial)
  refine .bind .get fun g => ?_
  split
  · exact .bind (.codegenError _) fun _ => body
  · exact body

theorem cpuTest (left right : Expr) : Regular (cpuTest left right) :=
  .seq (.eval _ _) <| .seq (.eval _ _) (.calls trivial)

theorem cpuMovExt (signed : Bool) (dest : String) (src : Expr) (width : Int) :
    Regular (cpuMovExt signed dest src width) := by
  have plain (dst src : Reg) :
      AllOwn [if signed then movsxRegReg dst src width else movzxRegReg dst src width] := by
    cases signed <;> trivial
  refine .bind (.reg _) fun dst => ?_
  cases src with
  | reg name => exact .bind (.reg _) fun src => .calls (plain dst src)
  | _ => exact .seq (.eval _ _) (.calls (plain dst .r12))

/-! ### Linux -/

theorem blastFill (dest : String) (byteVal length : Expr) : Regular (blastFill dest byteVal length) :=
  .bind (.reg _) fun _ => .seq (.calls trivial) <| .seq (.calls trivial) <| .seq (.eval _ _) <| .seq (.calls trivial) <|
    .seq (.eval _ _) <| .seq (.calls trivial) <| .withLabel fun _ loop => .withLabel fun _ done =>
    .seq (.calls ⟨loop, done, trivial⟩) (.calls trivial)

theorem blastCopy (dest : String) (src length : Expr) : Regular (blastCopy dest src length) :=
  .bind (.reg _) fun _ => .seq (.calls trivial) <| .seq (.calls trivial) <| .seq (.eval _ _) <| .seq (.calls trivial) <|
    .seq (.eval _ _) <| .seq (.calls trivial) <| .withLabel fun _ loop => .withLabel fun _ done =>
    .seq (.calls ⟨loop, done, trivial⟩) (.calls trivial)

theorem blastRepFill (dest : String) (byteVal length : Expr) : Regular (blastRepFill dest byteVal length) :=
  .bind (.reg _) fun _ => .seq (.calls trivial) <| .seq (.calls trivial) <| .seq (.eval _ _) <| .seq (.calls trivial) <|
    .seq (.eval _ _) <| .seq (.calls trivial) <| .seq (.calls (copyTo_own _ _)) (.calls trivial)

theorem blastRepCopy (dest : String) (src length : Expr) : Regular (blastRepCopy dest src length) :=
  .bind (.reg _) fun _ => .seq (.calls trivial) <| .seq (.calls trivial) <| .seq (.eval _ _) <| .seq (.calls trivial) <|
    .seq (.eval _ _) <| .seq (.calls trivial) <| .seq (.calls (copyTo_own _ _)) (.calls trivial)

theorem wireLen (dest : String) (src : Expr) : Regular (wireLen dest src) :=
  .bind (.reg _) fun _ => .seq (.calls trivial) <| .seq (.eval _ _) <| .seq (.calls trivial) <|
    .withLabel fun _ loop => .withLabel fun _ done => .calls ⟨loop, done, trivial⟩

theorem wireCmp (dest : String) (left right : Expr) : Regular (wireCmp dest left right) :=
  .bind (.reg _) fun _ => .seq (.calls trivial) <| .seq (.eval _ _) <| .seq (.calls trivial) <| .seq (.eval _ _) <|
    .seq (.calls trivial) <| .withLabel fun _ loop => .withLabel fun _ eq => .withLabel fun _ ne =>
    .withLabel fun _ done => .calls ⟨loop, eq, ne, done, trivial⟩

theorem wireCopy (dest src : Expr) : Regular (wireCopy dest src) :=
  .seq (.calls trivial) <| .seq (.eval _ _) <| .seq (.calls trivial) <| .seq (.eval _ _) <| .seq (.calls trivial) <|
    .withLabel fun _ loop => .withLabel fun _ done => .calls ⟨loop, done, trivial⟩

theorem wireEmitLength (src : Expr) (length : Option Expr) : Regular (wireEmitLength src length) := by
  cases length with
  | some length => exact .seq (.eval _ _) (.calls trivial)
  | none =>
    exact .seq (.calls trivial) <| .withLabel fun _ loop => .withLabel fun _ done =>
      .seq (.calls ⟨loop, done, trivial⟩) <| .seq (.eval _ _) (.calls trivial)

theorem wireEmit (src : Expr) (length : Option Expr) : Regular (wireEmit src length) :=
  .seq (.calls trivial) <| .seq (.eval _ _) <| .seq (.calls trivial) <| .seq (.wireEmitLength _ _) (.calls trivial)

theorem cellMap (dest : String) (size : Expr) (prot flags : Option Expr) : Regular (cellMap dest size prot flags) :=
  .seq (.calls trivial) <| .seq (.eval _ _) <| .seq (.evalOr _ _ trivial) <| .seq (.evalOr _ _ trivial) <|
    .seq (.calls trivial) <| .bind (.reg _) fun _ => .seq (.calls (copyTo_own _ _)) (.calls trivial)

theorem cellMapfile (dest : String) (size fd : Expr) (offset prot : Option Expr) :
    Regular (cellMapfile dest size fd offset prot) :=
  .seq (.calls trivial) <| .seq (.eval _ _) <| .seq (.eval _ _) <| .seq (.evalOr _ _ trivial) <|
    .seq (.evalOr _ _ trivial) <| .seq (.calls trivial) <| .bind (.reg _) fun _ =>
    .seq (.calls (copyTo_own _ _)) (.calls trivial)

theorem cellFree (ptr size : Expr) : Regular (cellFree ptr size) :=
  .seq (.eval _ _) <| .seq (.calls trivial) <| .seq (.eval _ _) (.calls trivial)

theorem cellProtect (ptr size prot : Expr) : Regular (cellProtect ptr size prot) :=
  .seq (.calls trivial) <| .seq (.eval _ _) <| .seq (.eval _ _) <| .seq (.eval _ _) (.calls trivial)

theorem gateCas (addr expected desired : String) : Regular (gateCas addr expected desired) :=
  .bind (.reg _) fun _ => .bind (.reg _) fun _ => .bind (.reg _) fun _ => .seq (.calls trivial) <|
    .seq (.calls (ite_own trivial trivial)) <| .seq (.calls (ite_own trivial trivial)) <|
    .seq (.calls (ite_own trivial trivial)) <| .seq (.calls trivial) <| .seq (.calls (ite_own trivial trivial)) <|
    .calls (ite_own trivial (ite_own trivial trivial))

theorem gateSpin (addr : String) : Regular (gateSpin addr) :=
  .bind (.reg _) fun _ => .seq (.calls trivial) <| .seq (.calls (ite_own trivial trivial)) <|
    .withLabel fun _ loop => .seq (.calls ⟨loop, trivial⟩) (.calls (ite_own trivial trivial))

theorem gateFence (kind : String) : Regular (gateFence kind) := by
  have plain (k : String) : AllOwn [if k = "lfence" then lfence else if k = "sfence" then sfence else mfence] := by
    split
    · trivial
    · split <;> trivial
  exact .calls (plain _)

theorem pulseSleep (ns : Expr) : Regular (pulseSleep ns) :=
  .seq (.calls trivial) <| .seq (.eval _ _) (.calls trivial)

theorem pulseNow (dest : String) : Regular (pulseNow dest) :=
  .seq (.calls trivial) <| .bind (.reg _) fun _ => .calls trivial

theorem threadSpawn (dest label : String) : Regular (threadSpawn dest label) :=
  .seq (.calls trivial) <| .withLabel fun _ child => .withLabel fun _ parent => .seq (.calls trivial) <|
    .bind (.reg _) fun _ => .seq (.calls (copyTo_own _ _)) <| .seq (.calls ⟨child, trivial⟩) (.calls ⟨parent, trivial⟩)

theorem threadJoin : Regular threadJoin :=
  .withLabel fun _ loop => .withLabel fun _ done => .seq (.calls ⟨loop, done, trivial⟩) (.calls trivial)

theorem threadJoinAll : Regular threadJoinAll :=
  .withLabel fun _ loop => .withLabel fun _ done => .calls ⟨loop, done, trivial⟩

theorem threadExit (code : Option Expr) : Regular (threadExit code) :=
  .seq (.calls trivial) <| .seq (.evalOr _ _ trivial) (.calls trivial)

theorem result (dest : String) : Regular (result dest) := .bind (.reg _) fun _ => .calls (copyTo_own _ _)

theorem netSocket (dest : String) (domain type protocol : Expr) : Regular (netSocket dest domain type protocol) :=
  .seq (.eval _ _) <| .seq (.eval _ _) <| .seq (.eval _ _) <| .seq (.calls trivial) (.result _)

/-- Three operands into registers, and a system call. -/
theorem threeOperands (a b c : Expr) (ra rb rc : Reg) {after : List Call} (plain : AllOwn after) :
    Regular (do Codegen.eval a ra; Codegen.eval b rb; Codegen.eval c rc; asm after) :=
  .seq (.eval _ _) <| .seq (.eval _ _) <| .seq (.eval _ _) (.calls plain)

theorem netPoll (fds nfds timeout : Expr) : Regular (netPoll fds nfds timeout) :=
  .seq (.calls trivial) (.threeOperands _ _ _ _ _ _ trivial)

theorem netEpollCreate (dest : String) (flags : Option Expr) : Regular (netEpollCreate dest flags) :=
  .seq (.evalOr _ _ trivial) <| .seq (.calls trivial) (.result _)

theorem netEpollCtl (epfd op fd eventPtr : Expr) : Regular (netEpollCtl epfd op fd eventPtr) :=
  .seq (.calls trivial) <| .seq (.eval _ _) (.threeOperands _ _ _ _ _ _ trivial)

theorem netEpollWait (dest : String) (epfd events maxevents timeout : Expr) :
    Regular (netEpollWait dest epfd events maxevents timeout) :=
  .seq (.calls trivial) <| .seq (.eval _ _) <| .seq (.eval _ _) <| .seq (.eval _ _) <| .seq (.eval _ _) <|
    .seq (.calls trivial) <| .bind (.reg _) fun _ => .seq (.calls (copyTo_own _ _)) (.calls trivial)

theorem sigAction (signo : Expr) (handler : String) : Regular (sigAction signo handler) := by
  have plain : AllOwn [handlerCall handler] := by
    unfold handlerCall
    split <;> trivial
  exact .seq (.eval _ _) <| .seq (.calls plain) (.calls trivial)

/-! ### Freestanding -/

theorem portIn (dest : String) (port : Expr) : Regular (portIn dest port) :=
  .seq (.eval _ _) <| .seq (.calls trivial) <| .bind (.reg _) fun _ =>
    .seq (.calls (copyTo_own _ _)) (.calls trivial)

theorem serialPutc (value : Expr) : Regular (serialPutc value) :=
  .seq (.calls trivial) <| .seq (.eval _ _) <| .seq (.calls trivial) <| .withLabel fun _ loop => .calls ⟨loop, trivial⟩

theorem kbdPoll (dest : String) : Regular (kbdPoll dest) :=
  .bind (.reg _) fun _ => .seq (.calls trivial) <| .withLabel fun _ ok => .withLabel fun _ done =>
    .seq (.calls ⟨ok, trivial⟩) <| .seq (.calls (copyTo_own _ _)) (.calls ⟨done, trivial⟩)

theorem kernelHeapInit (size : Int) : Regular (kernelHeapInit size) :=
  .seq (.reserve _ _) <| .seq (.reserve _ _) (.calls trivial)

theorem kernelHeapAlloc (dest : String) (size : Expr) : Regular (kernelHeapAlloc dest size) :=
  .bind (.reg _) fun _ => .seq (.calls trivial) <| .seq (.eval _ _) (.calls trivial)

theorem kernelCtxSave (dest : String) : Regular (kernelCtxSave dest) := .bind (.reg _) fun _ => .calls trivial

theorem kernelCtxLoad (src : String) : Regular (kernelCtxLoad src) := .bind (.reg _) fun _ => .calls trivial

theorem patchGate (stub : String) (vector : Int) : Regular (patchGate stub vector) :=
  .bind .get fun _ => .ite (.calls trivial) (.pure _)

theorem kernelIdtInstall : Regular kernelIdtInstall :=
  .seq (.once _ ⟨by decide, by decide, trivial⟩) <| .seq (.reserve _ _) <| .seq (.reserve _ _) <| .seq (.calls trivial) <|
    .withLabel fun _ loop => .seq (.calls ⟨loop, trivial⟩) (.calls trivial)

theorem kernelTickInstall : Regular kernelTickInstall :=
  .seq (.reserve _ _) <| .seq (.once _ ⟨by decide, by decide, trivial⟩) (.patchGate _ _)

theorem kernelTickRead (dest : String) : Regular (kernelTickRead dest) :=
  .bind (.reg _) fun _ => .seq (.reserve _ _) (.calls trivial)

/-- A handler that stops the processor, and its gate. -/
theorem installed (stub : Stub) (name after : String) (vector : Int) (first : OwnLabel name) (last : OwnLabel after) :
    Regular (do Codegen.once stub (stopStub name after); Codegen.patchGate name vector) :=
  .seq (.once _ ⟨first, last, trivial⟩) (.patchGate _ _)

theorem kernelIrqFullSaveOn : Regular kernelIrqFullSaveOn :=
  .seq (.reserve _ _) <| .seq (.reserve _ _) <| .seq (.once _ ⟨by decide, by decide, trivial⟩) (.patchGate _ _)

theorem kernelPrintkStr (src : Expr) : Regular (kernelPrintkStr src) :=
  .seq (.calls trivial) <| .seq (.eval _ _) <| .withLabel fun _ loop => .withLabel fun _ done =>
    .seq (.calls ⟨loop, trivial⟩) <| .withLabel fun _ wait => .calls ⟨wait, done, trivial⟩

theorem kernelPanic : Regular kernelPanic :=
  .seq (.calls trivial) <| .withLabel fun _ panic => .calls ⟨panic, trivial⟩

theorem kernelRamfsInit : Regular kernelRamfsInit :=
  .seq (.reserve _ _) <| .seq (.calls trivial) <| .withLabel fun _ z => .calls ⟨z, trivial⟩

theorem kernelRamfsPut (name fileData length : Expr) : Regular (kernelRamfsPut name fileData length) :=
  .seq (.reserve _ _) <| .seq (.calls trivial) <| .seq (.eval _ _) <| .seq (.eval _ _) <| .seq (.eval _ _) <|
    .seq (.calls trivial) <| .withLabel fun _ fs => .withLabel fun _ found => .withLabel fun _ done =>
    .seq (.calls ⟨fs, found, trivial⟩) <| .withLabel fun _ cn => .calls ⟨cn, done, trivial⟩

theorem kernelRamfsGet (dest : String) (name : Expr) : Regular (kernelRamfsGet dest name) :=
  .bind (.reg _) fun _ => .seq (.reserve _ _) <| .seq (.calls trivial) <| .seq (.eval _ _) <| .seq (.calls trivial) <|
    .withLabel fun _ loop => .withLabel fun _ fail => .withLabel fun _ ok => .withLabel fun _ done =>
    .seq (.calls ⟨loop, trivial⟩) <| .withLabel fun _ cmpl => .seq (.calls ⟨cmpl, trivial⟩) <|
    .withLabel fun _ ne => .calls ⟨ne, ok, fail, done, trivial⟩

theorem kernelCsRing (dest : String) : Regular (kernelCsRing dest) :=
  .bind (.reg _) fun _ => .seq (.calls trivial) (.calls (copyTo_own _ _))

theorem kernelEnterUser (entry stack : Expr) : Regular (kernelEnterUser entry stack) :=
  .seq (.calls trivial) <| .seq (.eval _ _) <| .seq (.calls trivial) <| .seq (.eval _ _) <| .seq (.calls trivial) <|
    .seq (.eval _ _) (.calls trivial)

theorem kernelNetAllow (port : Int) : Regular (kernelNetAllow port) := .seq (.reserve _ _) (.calls trivial)

theorem kernelNetCheck (dest : String) (port : Expr) : Regular (kernelNetCheck dest port) :=
  .bind (.reg _) fun _ => .seq (.reserve _ _) <| .seq (.calls trivial) <| .seq (.eval _ _) <| .seq (.calls trivial) <|
    .withLabel fun _ nz => .withLabel fun _ z => .calls ⟨nz, z, trivial⟩

theorem kernelPreemptArm (ctx : String) : Regular (kernelPreemptArm ctx) :=
  .seq (.reserve _ _) <| .seq (.calls trivial) <| .bind (.reg _) fun _ => .calls trivial

theorem kernelNicBar (addr : Expr) : Regular (kernelNicBar addr) :=
  .seq (.reserve _ _) <| .seq (.calls trivial) <| .seq (.eval _ _) (.calls trivial)

theorem kernelNicRead (dest : String) (offset : Expr) : Regular (kernelNicRead dest offset) :=
  .bind (.reg _) fun _ => .seq (.reserve _ _) <| .seq (.calls trivial) <| .seq (.eval _ _) (.calls trivial)

theorem kernelNicWrite (offset value : Expr) : Regular (kernelNicWrite offset value) :=
  .seq (.reserve _ _) <| .seq (.calls trivial) <| .seq (.eval _ _) <| .seq (.calls trivial) <| .seq (.eval _ _)
    (.calls trivial)

theorem kernelSyscallInit : Regular kernelSyscallInit :=
  .seq (.once _ ⟨by decide, by decide, trivial⟩) (.calls trivial)

theorem kernelSyscallTableInit : Regular kernelSyscallTableInit :=
  .seq (.reserve _ _) <| .seq (.once _ ⟨by decide, by decide, trivial⟩) <| .seq (.calls trivial) <|
    .withLabel fun _ loop => .seq (.calls ⟨loop, trivial⟩) <|
    .seq (.once _ ⟨by decide, by decide, trivial⟩) (.calls trivial)

theorem kernelSyscallRegister (nr : Int) (handler : String) : Regular (kernelSyscallRegister nr handler) :=
  .seq (.reserve _ _) (.calls trivial)

theorem reserveRing (n : Int) : Regular (reserveRing n) :=
  .bind .get fun _ => .ite (.pure _) (.seq (.reserve _ _) (.modify fun _ => .slots n))

theorem kernelDmaRingInit (slots : Int) : Regular (kernelDmaRingInit slots) :=
  .seq (.reserveRing _) (.calls trivial)

theorem kernelDmaRingPush (addr length : Expr) : Regular (kernelDmaRingPush addr length) :=
  .seq (.calls trivial) <| .seq (.calls trivial) <| .withLabel fun _ full => .withLabel fun _ ok =>
    .seq (.calls trivial) <| .seq (.eval _ _) <| .seq (.calls trivial) <| .seq (.eval _ _) <| .seq (.calls trivial) <|
    .bind (.reg _) fun _ => .seq (.calls ⟨full, ok, trivial⟩) (.calls trivial)

theorem kernelDmaRingPop (destAddr destLen : String) : Regular (kernelDmaRingPop destAddr destLen) :=
  .bind (.reg _) fun _ => .bind (.reg _) fun _ => .seq (.calls trivial) <| .seq (.calls trivial) <|
    .withLabel fun _ empty => .withLabel fun _ ok => .seq (.calls trivial) <| .bind (.reg _) fun _ =>
    .seq (.calls ⟨empty, ok, trivial⟩) (.calls trivial)

/-! ### Statements -/

/-- What one of the emitters of fixed bytes returns, if it does not raise. -/
theorem fixed {x : Except PyErr Call} (plain : Fixed x) : Regular (do asm [← Codegen.ofExcept x]) := by
  intro g a g' ok
  obtain ⟨call, m, found, appended⟩ := bind_ok.mp ok
  obtain ⟨returned, rfl⟩ := ofExcept_ok.mp found
  obtain ⟨data, rfl⟩ := plain call returned
  have all : AllOwn [.bytes data] := trivial
  exact Regular.calls all _ _ _ appended

theorem privCall (op : CpuPriv) (name : String) : Regular (do asm [← privCall op name]) := by
  intro g a g' ok
  obtain ⟨call, m, found, appended⟩ := bind_ok.mp ok
  have plain : m = g ∧ AllOwn [call] := by
    cases op <;> simp only [Codegen.privCall, bind_ok, reg_ok, pure_ok] at found
    case sldt | str | smsw =>
      obtain ⟨r, -, ⟨-, rfl⟩, rfl, rfl⟩ := found
      exact ⟨rfl, trivial⟩
    all_goals
      obtain ⟨rfl, rfl⟩ := found
      exact ⟨rfl, trivial⟩
  obtain ⟨rfl, all⟩ := plain
  exact Regular.calls all _ _ _ appended

theorem chipTicks (dest : String) : Regular (chipTicks dest) :=
  .seq (.calls trivial) <| .bind (.reg _) fun _ => .seq (.calls (copyTo_own _ _)) (.calls trivial)

theorem chipId (leaf : Expr) (destA destB destC destD : String) : Regular (chipId leaf destA destB destC destD) :=
  .seq (.eval _ _) <| .seq (.calls trivial) <| .bind (.reg _) fun _ => .seq (.calls trivial) <| .bind (.reg _) fun _ =>
    .seq (.calls trivial) <| .bind (.reg _) fun _ => .seq (.calls trivial) <| .bind (.reg _) fun _ => .calls trivial

theorem emitReturn : Regular emitReturn := .bind .get fun _ => .calls (ite_own trivial trivial)

end Regular

/-- Only a label declares a name. -/
theorem emitOp_regular : (op : Op) → (∀ name, op ≠ .label name) → Regular (emitOp op)
  | .label _ => fun other => absurd rfl (other _)
  | .cmp .. => fun _ => .emitCmp _ _
  | .cpuBin .. => fun _ => .cpuBin _ _ _
  | .cpuUnary .. => fun _ => .cpuUnary _ _
  | .memLoad .. => fun _ => .memLoad _ _ _ _ _ _
  | .memStore .. => fun _ => .memStore _ _ _ _ _ _
  | .sysCall .. => fun _ => .emitSyscall _ _
  | .call .. => fun _ => .emitCall _ _
  | .ret => fun _ => .emitReturn
  | .retVal _ => fun _ => .seq (.evalOr _ _ trivial) .emitReturn
  | .stackPush _ => fun _ => .seq (.eval _ _) (.calls trivial)
  | .blastFill .. => fun _ => .blastFill _ _ _
  | .blastCopy .. => fun _ => .blastCopy _ _ _
  | .blastRepFill .. => fun _ => .blastRepFill _ _ _
  | .blastRepCopy .. => fun _ => .blastRepCopy _ _ _
  | .wireLen .. => fun _ => .wireLen _ _
  | .wireCmp .. => fun _ => .wireCmp _ _ _
  | .wireCopy .. => fun _ => .wireCopy _ _
  | .wireEmit .. => fun _ => .wireEmit _ _
  | .cellMap .. => fun _ => .cellMap _ _ _ _
  | .cellMapFile .. => fun _ => .cellMapfile _ _ _ _ _
  | .cellFree .. => fun _ => .cellFree _ _
  | .cellProtect .. => fun _ => .cellProtect _ _ _
  | .sigAction .. => fun _ => .sigAction _ _
  | .gateCas .. => fun _ => .gateCas _ _ _
  | .gateSpin _ => fun _ => .gateSpin _
  | .gateFence _ => fun _ => .gateFence _
  | .pulseSleep _ => fun _ => .pulseSleep _
  | .pulseNow _ => fun _ => .pulseNow _
  | .chipTicks _ => fun _ => .chipTicks _
  | .chipId .. => fun _ => .chipId _ _ _ _ _
  | .chipSerialPutc _ => fun _ => .serialPutc _
  | .chipKbdPoll _ => fun _ => .kbdPoll _
  | .portOut .. | .cpuTest .. => fun _ => .seq (.eval _ _) <| .seq (.eval _ _) (.calls trivial)
  | .portIn .. => fun _ => .portIn _ _
  | .vecLoad .. => fun _ => .bind (.basePhys _) fun _ => .fixed (.movups _ _ _ _)
  | .vecStore .. => fun _ => .bind (.basePhys _) fun _ => .fixed (.movups _ _ _ _)
  | .vecVLoad .. => fun _ => .bind (.basePhys _) fun _ => .fixed (.vmovups _ _ _ _)
  | .vecVStore .. => fun _ => .bind (.basePhys _) fun _ => .fixed (.vmovups _ _ _ _)
  | .vecBin .. => fun _ => .fixed (.vecBin _ _ _)
  | .vecVBin .. => fun _ => .fixed (.vecVBin _ _ _ _)
  | .cpuLea .. => fun _ => .cpuLea _ _ _ _ _
  | .cpuCmov .. => fun _ => .seq (.eval _ _) <| .bind (.reg _) fun _ => .calls trivial
  | .cpuCmovMem .. => fun _ => .bind (.baseReg _) fun _ => .bind (.reg _) fun _ => .fixed (.cmovRegMem _ _ _ _)
  | .cpuMovExt .. => fun _ => .cpuMovExt _ _ _ _
  | .cpuCmpxchg16b .. => fun _ => .bind (.baseReg _) fun _ => .calls trivial
  | .cpuEnter .. => fun _ => .fixed (.error _)
  | .cpuPrivOp .. => fun _ => .privCall _ _
  | .cpuBitScan .. => fun _ => .seq (.eval _ _) (.one _ _ fun _ => by split <;> trivial)
  | .cpuBt .. => fun _ => .seq (.eval _ _) (.one _ _ fun _ => trivial)
  | .cpuMovzx .. | .cpuMovsx .. => fun _ => .two _ _ _ fun _ _ => by split <;> trivial
  | .cpuBitOp .. => fun _ => .two _ _ _ fun _ _ => by cases ‹BitOp› <;> trivial
  | .cpuBitImm .. => fun _ => .one _ _ fun _ => by cases ‹BitOp› <;> trivial
  | .cpuMulDiv1 .. | .cpuPrefetch .. | .cpuMxcsr .. | .cpuFx .. => fun _ => .one _ _ fun _ => by split <;> trivial
  | .cpuFsGs .. => fun _ => .one _ _ fun _ => by cases ‹FsGs› <;> trivial
  | .cpuFlagOp _ => fun _ => .calls (by cases ‹CpuFlag› <;> trivial)
  | .prefixedOp _ => fun _ => .calls (ite_own trivial (ite_own trivial trivial))
  | .threadSpawn .. => fun _ => .threadSpawn _ _
  | .threadJoin _ => fun _ => .threadJoin
  | .threadJoinAll => fun _ => .threadJoinAll
  | .threadExit _ => fun _ => .threadExit _
  | .errStatus _ => fun _ => .result _
  | .netSocket .. => fun _ => .netSocket _ _ _ _
  | .netConnect .. | .netSend .. | .netRecv .. => fun _ => .threeOperands _ _ _ _ _ _ trivial
  | .netClose _ => fun _ => .seq (.eval _ _) (.calls trivial)
  | .netPoll .. => fun _ => .netPoll _ _ _
  | .netEpollCreate .. => fun _ => .netEpollCreate _ _
  | .netEpollCtl .. => fun _ => .netEpollCtl _ _ _ _
  | .netEpollWait .. => fun _ => .netEpollWait _ _ _ _ _
  | .targetBaremetal => fun _ => .modify fun _ => .baremetal
  | .assertBytes .. => fun _ => .modify fun _ => .assertBytes _
  | .assertSize .. => fun _ => .modify fun _ => .assertSize _
  | .kernelHeapInit _ => fun _ => .kernelHeapInit _
  | .kernelHeapAlloc .. => fun _ => .kernelHeapAlloc _ _
  | .kernelCtxSave _ => fun _ => .kernelCtxSave _
  | .kernelCtxLoad _ => fun _ => .kernelCtxLoad _
  | .kernelIdtInstall => fun _ => .kernelIdtInstall
  | .kernelCoopSwitch .. => fun _ => .seq (.kernelCtxSave _) (.kernelCtxLoad _)
  | .kernelPrintkStr _ => fun _ => .kernelPrintkStr _
  | .kernelPanic => fun _ => .kernelPanic
  | .kernelTickInstall => fun _ => .kernelTickInstall
  | .kernelTickRead _ => fun _ => .kernelTickRead _
  | .kernelRamfsInit => fun _ => .kernelRamfsInit
  | .kernelRamfsPut .. => fun _ => .kernelRamfsPut _ _ _
  | .kernelRamfsGet .. => fun _ => .kernelRamfsGet _ _
  | .kernelNetInit => fun _ => .reserve _ _
  | .kernelNetPoll _ => fun _ => .bind (.reg _) fun _ => .calls trivial
  | .kernelCsRing _ => fun _ => .kernelCsRing _
  | .kernelEnterUser .. => fun _ => .kernelEnterUser _ _
  | .kernelPfInstall => fun _ => .installed _ _ _ _ (by decide) (by decide)
  | .kernelNmiInstall => fun _ => .installed _ _ _ _ (by decide) (by decide)
  | .kernelNetAllowPort _ => fun _ => .kernelNetAllow _
  | .kernelNetCheckPort .. => fun _ => .kernelNetCheck _ _
  | .kernelPreemptArm _ => fun _ => .kernelPreemptArm _
  | .kernelSyscallInit => fun _ => .kernelSyscallInit
  | .kernelNicBar _ => fun _ => .kernelNicBar _
  | .kernelNicRegRead .. => fun _ => .kernelNicRead _ _
  | .kernelNicRegWrite .. => fun _ => .kernelNicWrite _ _
  | .kernelIrqFullSave => fun _ => .kernelIrqFullSaveOn
  | .kernelSyscallTableInit => fun _ => .kernelSyscallTableInit
  | .kernelSyscallRegister .. => fun _ => .kernelSyscallRegister _ _
  | .kernelDmaRingInit _ => fun _ => .kernelDmaRingInit _
  | .kernelDmaRingPush .. => fun _ => .kernelDmaRingPush _ _
  | .kernelDmaRingPop .. => fun _ => .kernelDmaRingPop _ _
  -- Declarations emit nothing.
  | .dataAlloc .. | .dataConst .. | .dataBytes .. | .dataAlign .. | .metalRegs | .metalDeterministic | .sectionAt ..
  | .includeFile .. | .structDef .. | .localDecl .. => fun _ => .pure _
  | .goto _ | .jumpIf .. | .trapNeg _ | .sigReturn | .flagsClear | .flagsSetDF | .chipCli | .chipSti | .chipHalt
  | .chipSerialInit | .chipInt _ | .chipPitInit _ | .chipPicRemap | .cpuNopLong | .cpuXgetbv | .rawBytes _
  | .kernelSysret => fun _ => .calls trivial
  | .stackPop _ | .flagSetcc .. | .chipLidt _ | .chipLgdt _ | .cpuLeaRip .. | .cpuLeaAbs .. | .cpuTestImm ..
  | .cpuImulImm .. | .cpuBswap _ | .cpuRdrand _ | .cpuRdseed _ | .cpuClflush _ => fun _ => .one _ _ fun _ => trivial
  | .cpuMovsxd .. | .cpuXchg .. | .cpuXadd .. | .cpuCmpxchg .. | .cpuShld .. | .cpuShrd .. | .cpuShldImm ..
  | .cpuShrdImm .. | .cpuImul3 .. | .cpuAdc .. | .cpuSbb .. | .cpuPopcnt .. | .cpuLzcnt .. | .cpuTzcnt ..
  | .cpuRorx .. | .cpuBlsi .. | .cpuBlsr .. | .cpuBlsmsk .. | .cpuAdcx .. | .cpuAdox .. | .cpuCrc32 .. => fun _ =>
    .two _ _ _ fun _ _ => trivial
  | .cpuAndn .. | .cpuBzhi .. | .cpuShlx .. | .cpuShrx .. | .cpuSarx .. | .cpuBextr .. | .cpuPext .. | .cpuPdep ..
  | .cpuMulx .. => fun _ => .three _ _ _ _ fun _ _ _ => trivial

/-- What every change keeps, and a label, is kept by every statement. -/
theorem emitOp_kept {R : CodeGenerator → CodeGenerator → Prop} (refl : ∀ g, R g g)
    (trans : ∀ {g g' g''}, R g g' → R g' g'' → R g g'') (step : ∀ {g g'}, Change g g' → R g g')
    (label : ∀ g name, R g (g.withScript (g.script ++ [.label (lbl name)]))) {op : Op} {g g' : CodeGenerator}
    (ok : emitOp op g = .ok () g') : R g g' := by
  by_cases declares : ∃ name, op = .label name
  · obtain ⟨name, rfl⟩ := declares
    rw [asm_ok.mp ok]
    exact label g name
  · have changes := emitOp_regular op (fun name same => declares ⟨name, same⟩) g () g' ok
    exact changes.kept refl trans step

theorem emitOp_emits (op : Op) : Emits (emitOp op) := by
  intro g a g' ok
  exact emitOp_kept Advances.refl Advances.trans Change.advances
    (fun g name => .calls ⟨codeLabel_lbl name, trivial⟩) ok

theorem note_emits (line : Int) : Emits (note line) :=
  .bind .get fun _ => .ite (.modify fun _ => .same rfl rfl rfl rfl rfl) (.pure _)

/-- An emission in which functions may be defined. -/
def Emission (m : Gen Unit) : Prop := ∀ g g', m g = .ok () g' → Extends g g'

theorem Emits.emission {m : Gen Unit} (emits : Emits m) : Emission m := fun _ _ ok => (emits _ _ _ ok).toExtends

theorem Emission.seq {x y : Gen Unit} (first : Emission x) (rest : Emission y) : Emission (do x; y) := by
  intro g g' ok
  obtain ⟨_, m, ok₁, ok₂⟩ := bind_ok.mp ok
  exact (first _ _ ok₁).trans (rest _ _ ok₂)

theorem enterFn_emission (name : String) (args : List String) (locals : List (String × Int)) :
    Emission (enterFn name args locals) := by
  have frame (total : Int) : AllCode (frameCalls total) := ite_code trivial trivial
  have calls {code : List Call} (all : AllCode code) : Emission (asm code) := (Emits.calls all).emission
  refine .seq (calls ⟨codeLabel_lbl _, trivial⟩) <| .seq (calls trivial) <| .seq (calls (frame _)) fun g g' ok => ?_
  rw [modify_ok.mp ok]
  exact .same rfl rfl rfl rfl

theorem leaveFn_emission : Emission leaveFn := by
  refine .seq (fun g g' ok => ?_) (Emits.calls (show AllCode fnEpilogue from trivial)).emission
  rw [modify_ok.mp ok]
  exact .same rfl rfl rfl rfl

mutual

theorem emit_emission : (s : Stmt) → Emission (emit s)
  | .op line op => by
    unfold emit
    exact .seq (note_emits line).emission (emitOp_emits op).emission
  | .fnDef line name args body locals => by
    unfold emit
    exact .seq (note_emits line).emission <| .seq (enterFn_emission name args locals) <|
      .seq (emitAll_emission body) leaveFn_emission

theorem emitAll_emission : (stmts : List Stmt) → Emission (emitAll stmts)
  | [] => by
    unfold emitAll
    exact (Emits.pure _).emission
  | s :: rest => by
    unfold emitAll
    exact .seq (emit_emission s) (emitAll_emission rest)

end

/-- Without a function definition the generator stays in its function. -/
theorem emitAll_emits {stmts : List Stmt} (flat : ∀ s ∈ stmts, isFn s = false) : Emits (emitAll stmts) := by
  induction stmts with
  | nil =>
    unfold emitAll
    exact .pure _
  | cons s rest ih =>
    unfold emitAll
    refine .seq ?_ (ih fun t member => flat t (List.mem_cons_of_mem _ member))
    cases s with
    | op line op =>
      unfold emit
      exact .seq (note_emits line) (emitOp_emits op)
    | fnDef line name args body locals => cases flat _ List.mem_cons_self

theorem emitProgram_emission (stmts : List Stmt) : Emission (emitProgram stmts) :=
  have ending : Emits (emitEnd stmts) := .bind .get fun _ => .ite (.pure _) (.calls trivial)
  .seq (emitAll_emission _) <| .seq ending.emission (emitAll_emission _)

end Aclm.Codegen
