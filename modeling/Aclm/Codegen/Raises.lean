import Aclm.Codegen.Graceful
import Aclm.Codegen.Labels

/-! The exceptions of each statement: all of them are reported, unless the statement has a word that its table does not
have. -/

set_option autoImplicit false

namespace Aclm.Codegen

open X64 (Reg)
open Encoder

namespace Graceful

variable {q : Prop}

theorem one (call : Reg → Call) (a : String) (within : ∀ r, [call r].all Call.known = true) :
    Graceful q (one call a) :=
  .bind (.reg _) fun r => .code (within r)

theorem two (call : Reg → Reg → Call) (a b : String) (within : ∀ r s, [call r s].all Call.known = true) :
    Graceful q (two call a b) :=
  .bind (.reg _) fun r => .bind (.reg _) fun s => .code (within r s)

theorem three (call : Reg → Reg → Reg → Call) (a b c : String)
    (within : ∀ r s t, [call r s t].all Call.known = true) : Graceful q (three call a b c) :=
  .bind (.reg _) fun r => .bind (.reg _) fun s => .bind (.reg _) fun t => .code (within r s t)

/-! ### The core language -/

theorem emitCmp (left right : Expr) : Graceful q (emitCmp left right) :=
  .seq (.code rfl) <| .seq (.eval _ _) <| .seq (.code rfl) <| .seq (.eval _ _) (.code rfl)

theorem cpuBinCalls_known (op : CpuBinOp) (value : Expr) (dst val : Reg) :
    (cpuBinCalls op value dst val).all Call.known = true := by
  have shifts (shift : ShiftOp) : (shiftCalls shift value dst val).all Call.known = true := by
    unfold shiftCalls
    split
    · rfl
    · exact ite_known rfl rfl
  cases op <;> first | rfl | exact shifts _

theorem cpuBin (op : CpuBinOp) (dest : String) (value : Expr) : Graceful q (cpuBin op dest value) := by
  refine .bind .get fun g => ?_
  split
  · exact .ite (.seq (.eval _ _) (.code rfl))
      (.seq (.code rfl) <| .seq (.eval _ _) <| .seq (.code (cpuBinCalls_known _ _ _ _)) (.code rfl))
  · exact .bind (.reg _) fun _ => .ite (.eval _ _) (.seq (.eval _ _) (.code (cpuBinCalls_known _ _ _ _)))

theorem cpuUnary (op : CpuUnaryOp) (dest : String) : Graceful q (cpuUnary op dest) := by
  refine .bind .get fun g => ?_
  split
  · exact .code (by cases op <;> rfl)
  · exact .bind (.reg _) fun _ => .code (by cases op <;> rfl)

theorem storeLocal_known (off : Option Int) (src : Reg) : (storeLocal off src).all Call.known = true := by
  cases off <;> rfl

theorem loadReg (off : Option Int) (dest : String) : Graceful q (loadReg off dest) := by
  cases off with
  | none => exact .reg _
  | some off => exact .pure _

/-- The index of a memory operand stands with a factor that has a code. -/
def Scaled (index : Option Expr) (scale : Int) : Prop := index = none ∨ (scaleBits (orOne scale)).isOk = true

/-- The register of an index: there is one only if there is an index. -/
theorem indexed {β : Type} {index : Option Expr} {scale : Int} {f : Option Reg → Gen β} (scaled : q → Scaled index scale)
    (rest : ∀ idx, (q → (idx.isNone || (scaleBits (orOne scale)).isOk) = true) → Graceful q (f idx)) :
    Graceful q (Codegen.indexReg index >>= f) := by
  cases index with
  | none => exact rest none fun _ => rfl
  | some node =>
    refine bind (indexReg _) fun idx => rest idx fun given => ?_
    rw [(scaled given).resolve_left (Option.some_ne_none node), Bool.or_true]

theorem memLoad (dest : String) (base offset : Expr) (width : Size) {index : Option Expr} {scale : Int}
    (scaled : q → Scaled index scale) : Graceful q (memLoad dest base offset width index scale) :=
  .bind (.baseReg _) fun _ => .bind .get fun _ => .bind (.ofExcept fun _ => resolveOffset_polite _ _) fun _ => .bind .get fun _ =>
    .bind (.loadReg _ _) fun _ => .indexed scaled fun _ known =>
    .seq (.calls fun given => by simpa [Call.known] using known given) (.code (storeLocal_known _ _))

theorem memStore (base offset value : Expr) (width : Size) {index : Option Expr} {scale : Int}
    (scaled : q → Scaled index scale) : Graceful q (memStore base offset value width index scale) :=
  .seq (.code rfl) <| .seq (.eval _ _) <| .bind (.baseReg _) fun _ => .bind .get fun _ =>
    .bind (.ofExcept fun _ => resolveOffset_polite _ _) fun _ => .indexed scaled fun _ known =>
    .calls fun given => by simpa [Call.known] using known given

theorem leaRegMem_known (dst base : Reg) (disp : Int) (index : Option Reg) (scale : Int) :
    [leaRegMem dst base disp index scale].all Call.known = true := by
  cases index <;> rfl

theorem cpuLea (dest : String) (base : Expr) (index : Option Expr) (scale offset : Int) :
    Graceful q (cpuLea dest base index scale offset) := by
  refine .bind (.reg _) fun dst => ?_
  split
  · exact .ite (.code rfl) (.bind (.basePhys _) fun _ => .code (leaRegMem_known _ _ _ _ _))
  · exact .bind (.basePhys _) fun _ => .bind (.indexReg _) fun _ => .code (leaRegMem_known _ _ _ _ _)

theorem emitCall (label : String) (args : List Expr) : Graceful q (emitCall label args) :=
  .seq (.pushArgs _ _) <| .seq (.code (map_pop_known _)) (.code rfl)

theorem syscallNumber_polite (num : SysNum) : Polite (syscallNumber num) := by
  cases num with
  | number n => exact .ok _
  | name name =>
    cases found : NAMED_SYSCALLS.get? (lower name) with
    | some n =>
      simp only [syscallNumber, found]
      exact .ok n
    | none =>
      simp only [syscallNumber, found]
      exact .error trivial

theorem emitSyscall (num : SysNum) (args : List Expr) : Graceful q (emitSyscall num args) := by
  have body : Graceful q (do
      let num ← Codegen.ofExcept (syscallNumber num)
      Codegen.pushArgs SCRATCH (args.take 6)
      asm (popArgs (args.take 6).length SYSCALL_ARGS)
      asm [.movRegImm64 .rax num, .pushReg .rcx, .pushReg .r11, .syscall, .popReg .r11, .popReg .rcx]) :=
    .bind (.ofExcept fun _ => syscallNumber_polite num) fun _ => .seq (.pushArgs _ _) <|
      .seq (.code (map_pop_known _)) (.code rfl)
  refine .bind .get fun g => ?_
  split
  · exact .bind (.codegenError _) fun _ => body
  · exact body

theorem cpuMovExt (signed : Bool) (dest : String) (src : Expr) (width : Int) :
    Graceful q (cpuMovExt signed dest src width) := by
  have within (dst src : Reg) :
      [if signed then movsxRegReg dst src width else movzxRegReg dst src width].all Call.known = true := by
    cases signed <;> rfl
  refine .bind (.reg _) fun dst => ?_
  cases src with
  | reg name => exact .bind (.reg _) fun src => .code (within dst src)
  | _ => exact .seq (.eval _ _) (.code (within dst .r12))

/-! ### Linux -/

theorem blastFill (dest : String) (byteVal length : Expr) : Graceful q (blastFill dest byteVal length) :=
  .bind (.reg _) fun _ => .seq (.code rfl) <| .seq (.code rfl) <| .seq (.eval _ _) <| .seq (.code rfl) <|
    .seq (.eval _ _) <| .seq (.code rfl) <| .bind (.newLabel _) fun _ => .bind (.newLabel _) fun _ =>
    .seq (.code rfl) (.code rfl)

theorem blastCopy (dest : String) (src length : Expr) : Graceful q (blastCopy dest src length) :=
  .bind (.reg _) fun _ => .seq (.code rfl) <| .seq (.code rfl) <| .seq (.eval _ _) <| .seq (.code rfl) <|
    .seq (.eval _ _) <| .seq (.code rfl) <| .bind (.newLabel _) fun _ => .bind (.newLabel _) fun _ =>
    .seq (.code rfl) (.code rfl)

theorem blastRepFill (dest : String) (byteVal length : Expr) : Graceful q (blastRepFill dest byteVal length) :=
  .bind (.reg _) fun _ => .seq (.code rfl) <| .seq (.code rfl) <| .seq (.eval _ _) <| .seq (.code rfl) <|
    .seq (.eval _ _) <| .seq (.code rfl) <| .seq (.code (copyTo_known _ _)) (.code rfl)

theorem blastRepCopy (dest : String) (src length : Expr) : Graceful q (blastRepCopy dest src length) :=
  .bind (.reg _) fun _ => .seq (.code rfl) <| .seq (.code rfl) <| .seq (.eval _ _) <| .seq (.code rfl) <|
    .seq (.eval _ _) <| .seq (.code rfl) <| .seq (.code (copyTo_known _ _)) (.code rfl)

theorem wireLen (dest : String) (src : Expr) : Graceful q (wireLen dest src) :=
  .bind (.reg _) fun _ => .seq (.code rfl) <| .seq (.eval _ _) <| .seq (.code rfl) <| .bind (.newLabel _) fun _ =>
    .bind (.newLabel _) fun _ => .code rfl

theorem wireCmp (dest : String) (left right : Expr) : Graceful q (wireCmp dest left right) :=
  .bind (.reg _) fun _ => .seq (.code rfl) <| .seq (.eval _ _) <| .seq (.code rfl) <| .seq (.eval _ _) <|
    .seq (.code rfl) <| .bind (.newLabel _) fun _ => .bind (.newLabel _) fun _ => .bind (.newLabel _) fun _ =>
    .bind (.newLabel _) fun _ => .code rfl

theorem wireCopy (dest src : Expr) : Graceful q (wireCopy dest src) :=
  .seq (.code rfl) <| .seq (.eval _ _) <| .seq (.code rfl) <| .seq (.eval _ _) <| .seq (.code rfl) <|
    .bind (.newLabel _) fun _ => .bind (.newLabel _) fun _ => .code rfl

theorem wireEmitLength (src : Expr) (length : Option Expr) : Graceful q (wireEmitLength src length) := by
  cases length with
  | some length => exact .seq (.eval _ _) (.code rfl)
  | none =>
    exact .seq (.code rfl) <| .bind (.newLabel _) fun _ => .bind (.newLabel _) fun _ =>
      .seq (.code rfl) (.seq (.eval _ _) (.code rfl))

theorem wireEmit (src : Expr) (length : Option Expr) : Graceful q (wireEmit src length) :=
  .seq (.code rfl) <| .seq (.eval _ _) <| .seq (.code rfl) <| .seq (.wireEmitLength _ _) (.code rfl)

theorem cellMap (dest : String) (size : Expr) (prot flags : Option Expr) :
    Graceful q (cellMap dest size prot flags) :=
  .seq (.code rfl) <| .seq (.eval _ _) <| .seq (.evalOr _ _ rfl) <| .seq (.evalOr _ _ rfl) <| .seq (.code rfl) <|
    .bind (.reg _) fun _ => .seq (.code (copyTo_known _ _)) (.code rfl)

theorem cellMapfile (dest : String) (size fd : Expr) (offset prot : Option Expr) :
    Graceful q (cellMapfile dest size fd offset prot) :=
  .seq (.code rfl) <| .seq (.eval _ _) <| .seq (.eval _ _) <| .seq (.evalOr _ _ rfl) <| .seq (.evalOr _ _ rfl) <|
    .seq (.code rfl) <| .bind (.reg _) fun _ => .seq (.code (copyTo_known _ _)) (.code rfl)

theorem cellFree (ptr size : Expr) : Graceful q (cellFree ptr size) :=
  .seq (.eval _ _) <| .seq (.code rfl) <| .seq (.eval _ _) (.code rfl)

theorem cellProtect (ptr size prot : Expr) : Graceful q (cellProtect ptr size prot) :=
  .seq (.code rfl) <| .seq (.eval _ _) <| .seq (.eval _ _) <| .seq (.eval _ _) (.code rfl)

theorem gateCas (addr expected desired : String) : Graceful q (gateCas addr expected desired) :=
  .bind (.reg _) fun _ => .bind (.reg _) fun _ => .bind (.reg _) fun _ => .seq (.code rfl) <|
    .seq (.code (ite_known rfl rfl)) <| .seq (.code (ite_known rfl rfl)) <| .seq (.code (ite_known rfl rfl)) <|
    .seq (.code rfl) <| .seq (.code (ite_known rfl rfl)) <| .code (ite_known rfl (ite_known rfl rfl))

theorem gateSpin (addr : String) : Graceful q (gateSpin addr) :=
  .bind (.reg _) fun _ => .seq (.code rfl) <| .seq (.code (ite_known rfl rfl)) <| .bind (.newLabel _) fun _ =>
    .seq (.code rfl) (.code (ite_known rfl rfl))

theorem gateFence (kind : String) : Graceful q (gateFence kind) := by
  have within (k : String) :
      [if k = "lfence" then lfence else if k = "sfence" then sfence else mfence].all Call.known = true := by
    split
    · rfl
    · split <;> rfl
  exact .code (within _)

theorem pulseSleep (ns : Expr) : Graceful q (pulseSleep ns) := .seq (.code rfl) <| .seq (.eval _ _) (.code rfl)

theorem pulseNow (dest : String) : Graceful q (pulseNow dest) := .seq (.code rfl) <| .bind (.reg _) fun _ => .code rfl

theorem threadSpawn (dest label : String) : Graceful q (threadSpawn dest label) :=
  .seq (.code rfl) <| .bind (.newLabel _) fun _ => .bind (.newLabel _) fun _ => .seq (.code rfl) <|
    .bind (.reg _) fun _ => .seq (.code (copyTo_known _ _)) <| .seq (.code rfl) (.code rfl)

theorem threadJoin : Graceful q threadJoin :=
  .bind (.newLabel _) fun _ => .bind (.newLabel _) fun _ => .seq (.code rfl) (.code rfl)

theorem threadJoinAll : Graceful q threadJoinAll :=
  .bind (.newLabel _) fun _ => .bind (.newLabel _) fun _ => .code rfl

theorem threadExit (code : Option Expr) : Graceful q (threadExit code) :=
  .seq (.code rfl) <| .seq (.evalOr _ _ rfl) (.code rfl)

theorem result (dest : String) : Graceful q (result dest) := .bind (.reg _) fun _ => .code (copyTo_known _ _)

theorem netSocket (dest : String) (domain type protocol : Expr) : Graceful q (netSocket dest domain type protocol) :=
  .seq (.eval _ _) <| .seq (.eval _ _) <| .seq (.eval _ _) <| .seq (.code rfl) (.result _)

/-- Three operands into registers, and a system call. -/
theorem threeOperands (a b c : Expr) (ra rb rc : Reg) {after : List Call} (within : after.all Call.known = true) :
    Graceful q (do Codegen.eval a ra; Codegen.eval b rb; Codegen.eval c rc; asm after) :=
  .seq (.eval _ _) <| .seq (.eval _ _) <| .seq (.eval _ _) (.code within)

theorem netPoll (fds nfds timeout : Expr) : Graceful q (netPoll fds nfds timeout) :=
  .seq (.code rfl) (.threeOperands _ _ _ _ _ _ rfl)

theorem netEpollCreate (dest : String) (flags : Option Expr) : Graceful q (netEpollCreate dest flags) :=
  .seq (.evalOr _ _ rfl) <| .seq (.code rfl) (.result _)

theorem netEpollCtl (epfd op fd eventPtr : Expr) : Graceful q (netEpollCtl epfd op fd eventPtr) :=
  .seq (.code rfl) <| .seq (.eval _ _) (.threeOperands _ _ _ _ _ _ rfl)

theorem netEpollWait (dest : String) (epfd events maxevents timeout : Expr) :
    Graceful q (netEpollWait dest epfd events maxevents timeout) :=
  .seq (.code rfl) <| .seq (.eval _ _) <| .seq (.eval _ _) <| .seq (.eval _ _) <| .seq (.eval _ _) <|
    .seq (.code rfl) <| .bind (.reg _) fun _ => .seq (.code (copyTo_known _ _)) (.code rfl)

theorem sigAction (signo : Expr) (handler : String) : Graceful q (sigAction signo handler) := by
  have within : [handlerCall handler].all Call.known = true := by
    unfold handlerCall
    split
    · rfl
    · rfl
  exact .seq (.eval _ _) <| .seq (.code within) (.code rfl)

/-! ### Freestanding -/

theorem portIn (dest : String) (port : Expr) : Graceful q (portIn dest port) :=
  .seq (.eval _ _) <| .seq (.code rfl) <| .bind (.reg _) fun _ => .seq (.code (copyTo_known _ _)) (.code rfl)

theorem serialPutc (value : Expr) : Graceful q (serialPutc value) :=
  .seq (.code rfl) <| .seq (.eval _ _) <| .seq (.code rfl) <| .bind (.newLabel _) fun _ => .code rfl

theorem kbdPoll (dest : String) : Graceful q (kbdPoll dest) :=
  .bind (.reg _) fun _ => .seq (.code rfl) <| .bind (.newLabel _) fun _ => .bind (.newLabel _) fun _ =>
    .seq (.code rfl) (.seq (.code (copyTo_known _ _)) (.code rfl))

theorem kernelHeapInit (size : Int) : Graceful q (kernelHeapInit size) :=
  .seq (.reserve _ _) <| .seq (.reserve _ _) <| .code rfl

theorem kernelHeapAlloc (dest : String) (size : Expr) : Graceful q (kernelHeapAlloc dest size) :=
  .bind (.reg _) fun _ => .seq (.code rfl) <| .seq (.eval _ _) (.code rfl)

theorem kernelCtxSave (dest : String) : Graceful q (kernelCtxSave dest) := .bind (.reg _) fun _ => .code rfl

theorem kernelCtxLoad (src : String) : Graceful q (kernelCtxLoad src) := .bind (.reg _) fun _ => .code rfl

theorem patchGate (stub : String) (vector : Int) : Graceful q (patchGate stub vector) :=
  .bind .get fun _ => .ite (.code rfl) (.pure _)

theorem kernelIdtInstall : Graceful q kernelIdtInstall :=
  .seq (.once _ rfl) <| .seq (.reserve _ _) <| .seq (.reserve _ _) <| .seq (.code rfl) <|
    .bind (.newLabel _) fun _ => .seq (.code rfl) (.code rfl)

theorem kernelTickInstall : Graceful q kernelTickInstall :=
  .seq (.reserve _ _) <| .seq (.once _ rfl) (.patchGate _ _)

theorem kernelTickRead (dest : String) : Graceful q (kernelTickRead dest) :=
  .bind (.reg _) fun _ => .seq (.reserve _ _) (.code rfl)

theorem kernelPfInstall : Graceful q kernelPfInstall := .seq (.once _ rfl) (.patchGate _ _)

theorem kernelNmiInstall : Graceful q kernelNmiInstall := .seq (.once _ rfl) (.patchGate _ _)

theorem kernelIrqFullSaveOn : Graceful q kernelIrqFullSaveOn :=
  .seq (.reserve _ _) <| .seq (.reserve _ _) <| .seq (.once _ rfl) (.patchGate _ _)

theorem kernelPrintkStr (src : Expr) : Graceful q (kernelPrintkStr src) :=
  .seq (.code rfl) <| .seq (.eval _ _) <| .bind (.newLabel _) fun _ => .bind (.newLabel _) fun _ =>
    .seq (.code rfl) (.bind (.newLabel _) fun _ => .code rfl)

theorem kernelPanic : Graceful q kernelPanic := .seq (.code rfl) <| .bind (.newLabel _) fun _ => .code rfl

theorem kernelRamfsInit : Graceful q kernelRamfsInit :=
  .seq (.reserve _ _) <| .seq (.code rfl) <| .bind (.newLabel _) fun _ => .code rfl

theorem kernelRamfsPut (name fileData length : Expr) : Graceful q (kernelRamfsPut name fileData length) :=
  .seq (.reserve _ _) <| .seq (.code rfl) <| .seq (.eval _ _) <| .seq (.eval _ _) <| .seq (.eval _ _) <|
    .seq (.code rfl) <| .bind (.newLabel _) fun _ => .bind (.newLabel _) fun _ => .bind (.newLabel _) fun _ =>
    .seq (.code rfl) (.bind (.newLabel _) fun _ => .code rfl)

theorem kernelRamfsGet (dest : String) (name : Expr) : Graceful q (kernelRamfsGet dest name) :=
  .bind (.reg _) fun _ => .seq (.reserve _ _) <| .seq (.code rfl) <| .seq (.eval _ _) <| .seq (.code rfl) <|
    .bind (.newLabel _) fun _ => .bind (.newLabel _) fun _ => .bind (.newLabel _) fun _ =>
    .bind (.newLabel _) fun _ => .seq (.code rfl) (.bind (.newLabel _) fun _ =>
    .seq (.code rfl) (.bind (.newLabel _) fun _ => .code rfl))

theorem kernelCsRing (dest : String) : Graceful q (kernelCsRing dest) :=
  .bind (.reg _) fun _ => .seq (.code rfl) (.code (copyTo_known _ _))

theorem kernelEnterUser (entry stack : Expr) : Graceful q (kernelEnterUser entry stack) :=
  .seq (.code rfl) <| .seq (.eval _ _) <| .seq (.code rfl) <| .seq (.eval _ _) <| .seq (.code rfl) <|
    .seq (.eval _ _) (.code rfl)

theorem kernelNetInit : Graceful q kernelNetInit := .reserve _ _

theorem kernelNetAllow (port : Int) : Graceful q (kernelNetAllow port) := .seq (.reserve _ _) (.code rfl)

theorem kernelNetCheck (dest : String) (port : Expr) : Graceful q (kernelNetCheck dest port) :=
  .bind (.reg _) fun _ => .seq (.reserve _ _) <| .seq (.code rfl) <| .seq (.eval _ _) <| .seq (.code rfl) <|
    .bind (.newLabel _) fun _ => .bind (.newLabel _) fun _ => .code rfl

theorem kernelPreemptArm (ctx : String) : Graceful q (kernelPreemptArm ctx) :=
  .seq (.reserve _ _) <| .seq (.code rfl) <| .bind (.reg _) fun _ => .code rfl

theorem kernelNicBar (addr : Expr) : Graceful q (kernelNicBar addr) :=
  .seq (.reserve _ _) <| .seq (.code rfl) <| .seq (.eval _ _) (.code rfl)

theorem kernelNicRead (dest : String) (offset : Expr) : Graceful q (kernelNicRead dest offset) :=
  .bind (.reg _) fun _ => .seq (.reserve _ _) <| .seq (.code rfl) <| .seq (.eval _ _) (.code rfl)

theorem kernelNicWrite (offset value : Expr) : Graceful q (kernelNicWrite offset value) :=
  .seq (.reserve _ _) <| .seq (.code rfl) <| .seq (.eval _ _) <| .seq (.code rfl) <| .seq (.eval _ _) (.code rfl)

theorem kernelSyscallInit : Graceful q kernelSyscallInit := .seq (.once _ rfl) (.code rfl)

theorem kernelSyscallTableInit : Graceful q kernelSyscallTableInit :=
  .seq (.reserve _ _) <| .seq (.once _ rfl) <| .seq (.code rfl) <| .bind (.newLabel _) fun _ =>
    .seq (.code rfl) (.seq (.once _ rfl) (.code rfl))

theorem kernelSyscallRegister (nr : Int) (handler : String) : Graceful q (kernelSyscallRegister nr handler) :=
  .seq (.reserve _ _) (.code rfl)

theorem reserveRing (n : Int) : Graceful q (reserveRing n) :=
  .bind .get fun _ => .ite (.pure _) <| .seq (.reserve _ _) (.modify (fun _ => rfl) fun _ => rfl)

theorem kernelDmaRingInit (slots : Int) : Graceful q (kernelDmaRingInit slots) := .seq (.reserveRing _) (.code rfl)

theorem kernelDmaRingPush (addr length : Expr) : Graceful q (kernelDmaRingPush addr length) :=
  .seq (.code rfl) <| .seq (.code rfl) <| .bind (.newLabel _) fun _ => .bind (.newLabel _) fun _ =>
    .seq (.code rfl) <| .seq (.eval _ _) <| .seq (.code rfl) <| .seq (.eval _ _) <| .seq (.code rfl) <|
    .bind (.reg _) fun _ => .seq (.code rfl) (.code rfl)

theorem kernelDmaRingPop (destAddr destLen : String) : Graceful q (kernelDmaRingPop destAddr destLen) :=
  .bind (.reg _) fun _ => .bind (.reg _) fun _ => .seq (.code rfl) <| .seq (.code rfl) <|
    .bind (.newLabel _) fun _ => .bind (.newLabel _) fun _ => .seq (.code rfl) <| .bind (.reg _) fun _ =>
    .seq (.code rfl) (.code rfl)

/-! ### Statements -/

theorem chipTicks (dest : String) : Graceful q (chipTicks dest) :=
  .seq (.code rfl) <| .bind (.reg _) fun _ => .seq (.code (copyTo_known _ _)) (.code rfl)

theorem chipId (leaf : Expr) (destA destB destC destD : String) : Graceful q (chipId leaf destA destB destC destD) :=
  .seq (.eval _ _) <| .seq (.code rfl) <| .bind (.reg _) fun _ => .seq (.code rfl) <| .bind (.reg _) fun _ =>
    .seq (.code rfl) <| .bind (.reg _) fun _ => .seq (.code rfl) <| .bind (.reg _) fun _ => .code rfl

theorem emitReturn : Graceful q emitReturn := .bind .get fun _ => .code (ite_known rfl rfl)

/-- One of the emitters of fixed bytes. -/
theorem fixed {x : Except PyErr Call} (bytes : Fixed x) (polite : q → Polite x) :
    Graceful q (do asm [← Codegen.ofExcept x]) := by
  cases x with
  | error e => exact ⟨fun g => ⟨Grown.refl g, fun given => (polite given).reported e rfl⟩⟩
  | ok call =>
    obtain ⟨data, rfl⟩ := bytes call rfl
    exact .code rfl

theorem privCall (op : CpuPriv) (name : String) : Graceful q (do asm [← privCall op name]) := by
  cases op <;> simp only [Codegen.privCall, bind_assoc, pure_bind]
  case sldt | str | smsw => exact .bind (.reg name) fun _ => .code rfl
  all_goals exact .code rfl

end Graceful

/-! ### Vector instructions -/

theorem xmmNum_polite (name : String) : Polite (xmmNum name) := by
  unfold xmmNum
  split
  · exact .ok _
  · exact .error trivial

theorem ymmNum_polite (name : String) : Polite (ymmNum name) := by
  unfold ymmNum
  dsimp only
  repeat' split
  all_goals first | exact .ok _ | exact .error trivial

theorem vecBin_polite (op : SseOp) (dst src : String) : Polite (sseCall op dst src) := by
  cases op <;> exact .bind (xmmNum_polite _) fun _ => .bind (xmmNum_polite _) fun _ => .ok _

theorem vecVBin_polite (op : AvxOp) (dst src : String) (imm : Int) : Polite (avxCall op dst src imm) := by
  cases op with
  | vshufps | vbroadcastss => exact .bind (ymmNum_polite _) fun _ => .bind (ymmNum_polite _) fun _ => .ok _
  | _ => exact .bind (ymmNum_polite _) fun _ => .bind (ymmNum_polite _) fun _ => .bind (ymmNum_polite _) fun _ => .ok _

theorem movups_polite (opcode : X64.Byte) (xmm : String) (base : Reg) (disp : Int) : Polite (movups opcode xmm base disp) := by
  have operand (x : Nat) : Polite (movupsOperand x base disp) := by
    unfold movupsOperand
    dsimp only
    split
    · exact .ok _
    · split
      · exact .bind (.s8 _) fun _ => .ok _
      · exact .bind (.s32 _) fun _ => .ok _
  exact .bind (xmmNum_polite _) fun _ => .bind (operand _) fun _ => .ok _

theorem vmovups_polite (opcode : X64.Byte) (ymm : String) (base : Reg) (disp : Int) :
    Polite (vmovups opcode ymm base disp) := .bind (ymmNum_polite _) fun _ => .ok _

theorem cmovRegMem_polite (cond : String) (dst base : Reg) (disp : Int) : Polite (cmovRegMem cond dst base disp) := by
  unfold cmovRegMem
  split
  · exact .error trivial
  · exact .ok _

/-! ### Statements -/

/-- The statement has a word or a factor that is looked up when it is assembled and that the table does not have, or its
encoder refers to a name that does not exist. -/
def Unknown : Op → Prop
  | .jumpIf cond _ => ¬ JCC_OPCODE.contains cond = true
  | .flagSetcc _ cond => ¬ SETCC_OPCODE.contains cond = true
  | .cpuCmov _ _ cond => ¬ CMOV_OPCODE.contains cond = true
  | .memLoad _ _ _ _ index scale | .memStore _ _ _ _ index scale => ¬ Graceful.Scaled index scale
  | .cpuEnter .. => True
  | _ => False

theorem emitOp_graceful : (op : Op) → Graceful (¬ Unknown op) (emitOp op)
  | .label _ | .goto _ | .trapNeg _ => .code rfl
  | .jumpIf .. => .calls fun known => by simpa [Call.known] using Decidable.not_not.mp known
  | .flagSetcc .. => .bind (.reg _) fun _ => .calls fun known => by simpa [Call.known] using Decidable.not_not.mp known
  | .cpuCmov .. => .seq (.eval _ _) <| .bind (.reg _) fun _ =>
    .calls fun known => by simpa [Call.known] using Decidable.not_not.mp known
  | .memLoad .. => .memLoad _ _ _ _ Classical.not_not.mp
  | .memStore .. => .memStore _ _ _ _ Classical.not_not.mp
  | .cpuEnter .. => .fixed (.error _) fun known => (known trivial).elim
  | .cmp .. => .emitCmp _ _
  | .cpuBin .. => .cpuBin _ _ _
  | .cpuUnary .. => .cpuUnary _ _
  | .sysCall .. => .emitSyscall _ _
  | .call .. => .emitCall _ _
  | .ret => .emitReturn
  | .retVal _ => .seq (.evalOr _ _ rfl) .emitReturn
  | .stackPush _ => .seq (.eval _ _) (.code rfl)
  | .blastFill .. => .blastFill _ _ _
  | .blastCopy .. => .blastCopy _ _ _
  | .blastRepFill .. => .blastRepFill _ _ _
  | .blastRepCopy .. => .blastRepCopy _ _ _
  | .wireLen .. => .wireLen _ _
  | .wireCmp .. => .wireCmp _ _ _
  | .wireCopy .. => .wireCopy _ _
  | .wireEmit .. => .wireEmit _ _
  | .cellMap .. => .cellMap _ _ _ _
  | .cellMapFile .. => .cellMapfile _ _ _ _ _
  | .cellFree .. => .cellFree _ _
  | .cellProtect .. => .cellProtect _ _ _
  | .sigAction .. => .sigAction _ _
  | .gateCas .. => .gateCas _ _ _
  | .gateSpin _ => .gateSpin _
  | .gateFence _ => .gateFence _
  | .pulseSleep _ => .pulseSleep _
  | .pulseNow _ => .pulseNow _
  | .chipTicks _ => .chipTicks _
  | .chipId .. => .chipId _ _ _ _ _
  | .chipSerialPutc _ => .serialPutc _
  | .chipKbdPoll _ => .kbdPoll _
  | .portOut .. | .cpuTest .. => .seq (.eval _ _) <| .seq (.eval _ _) (.code rfl)
  | .portIn .. => .portIn _ _
  | .vecLoad .. => .bind (.basePhys _) fun _ => .fixed (.movups _ _ _ _) fun _ => movups_polite _ _ _ _
  | .vecStore .. => .bind (.basePhys _) fun _ => .fixed (.movups _ _ _ _) fun _ => movups_polite _ _ _ _
  | .vecVLoad .. => .bind (.basePhys _) fun _ => .fixed (.vmovups _ _ _ _) fun _ => vmovups_polite _ _ _ _
  | .vecVStore .. => .bind (.basePhys _) fun _ => .fixed (.vmovups _ _ _ _) fun _ => vmovups_polite _ _ _ _
  | .vecBin .. => .fixed (.vecBin _ _ _) fun _ => vecBin_polite _ _ _
  | .vecVBin .. => .fixed (.vecVBin _ _ _ _) fun _ => vecVBin_polite _ _ _ _
  | .cpuLea .. => .cpuLea _ _ _ _ _
  | .cpuCmovMem .. => .bind (.baseReg _) fun _ => .bind (.reg _) fun _ =>
    .fixed (.cmovRegMem _ _ _ _) fun _ => cmovRegMem_polite _ _ _ _
  | .cpuMovExt .. => .cpuMovExt _ _ _ _
  | .cpuCmpxchg16b .. => .bind (.baseReg _) fun _ => .code rfl
  | .cpuPrivOp .. => .privCall _ _
  | .cpuBitScan .. => .seq (.eval _ _) (.one _ _ fun _ => by split <;> rfl)
  | .cpuBt .. => .seq (.eval _ _) (.one _ _ fun _ => rfl)
  | .cpuMovzx .. | .cpuMovsx .. => .two _ _ _ fun _ _ => by split <;> rfl
  | .cpuBitOp .. => .two _ _ _ fun _ _ => by cases ‹BitOp› <;> rfl
  | .cpuBitImm .. => .one _ _ fun _ => by cases ‹BitOp› <;> rfl
  | .cpuMulDiv1 .. | .cpuPrefetch .. | .cpuMxcsr .. | .cpuFx .. => .one _ _ fun _ => by split <;> rfl
  | .cpuFsGs .. => .one _ _ fun _ => by cases ‹FsGs› <;> rfl
  | .cpuFlagOp _ => .code (by cases ‹CpuFlag› <;> rfl)
  | .prefixedOp _ => .code (ite_known rfl (ite_known rfl rfl))
  | .threadSpawn .. => .threadSpawn _ _
  | .threadJoin _ => .threadJoin
  | .threadJoinAll => .threadJoinAll
  | .threadExit _ => .threadExit _
  | .errStatus _ => .result _
  | .netSocket .. => .netSocket _ _ _ _
  | .netConnect .. | .netSend .. | .netRecv .. => .threeOperands _ _ _ _ _ _ rfl
  | .netClose _ => .seq (.eval _ _) (.code rfl)
  | .netPoll .. => .netPoll _ _ _
  | .netEpollCreate .. => .netEpollCreate _ _
  | .netEpollCtl .. => .netEpollCtl _ _ _ _
  | .netEpollWait .. => .netEpollWait _ _ _ _ _
  | .targetBaremetal | .assertBytes .. | .assertSize .. => .modify (fun _ => rfl) fun _ => rfl
  | .kernelHeapInit _ => .kernelHeapInit _
  | .kernelHeapAlloc .. => .kernelHeapAlloc _ _
  | .kernelCtxSave _ => .kernelCtxSave _
  | .kernelCtxLoad _ => .kernelCtxLoad _
  | .kernelIdtInstall => .kernelIdtInstall
  | .kernelCoopSwitch .. => .seq (.kernelCtxSave _) (.kernelCtxLoad _)
  | .kernelPrintkStr _ => .kernelPrintkStr _
  | .kernelPanic => .kernelPanic
  | .kernelTickInstall => .kernelTickInstall
  | .kernelTickRead _ => .kernelTickRead _
  | .kernelRamfsInit => .kernelRamfsInit
  | .kernelRamfsPut .. => .kernelRamfsPut _ _ _
  | .kernelRamfsGet .. => .kernelRamfsGet _ _
  | .kernelNetInit => .kernelNetInit
  | .kernelNetPoll _ => .bind (.reg _) fun _ => .code rfl
  | .kernelCsRing _ => .kernelCsRing _
  | .kernelEnterUser .. => .kernelEnterUser _ _
  | .kernelPfInstall => .kernelPfInstall
  | .kernelNmiInstall => .kernelNmiInstall
  | .kernelNetAllowPort _ => .kernelNetAllow _
  | .kernelNetCheckPort .. => .kernelNetCheck _ _
  | .kernelPreemptArm _ => .kernelPreemptArm _
  | .kernelSyscallInit => .kernelSyscallInit
  | .kernelNicBar _ => .kernelNicBar _
  | .kernelNicRegRead .. => .kernelNicRead _ _
  | .kernelNicRegWrite .. => .kernelNicWrite _ _
  | .kernelIrqFullSave => .kernelIrqFullSaveOn
  | .kernelSyscallTableInit => .kernelSyscallTableInit
  | .kernelSyscallRegister .. => .kernelSyscallRegister _ _
  | .kernelDmaRingInit _ => .kernelDmaRingInit _
  | .kernelDmaRingPush .. => .kernelDmaRingPush _ _
  | .kernelDmaRingPop .. => .kernelDmaRingPop _ _
  -- Declarations emit nothing.
  | .dataAlloc .. | .dataConst .. | .dataBytes .. | .dataAlign .. | .metalRegs | .metalDeterministic | .sectionAt ..
  | .includeFile .. | .structDef .. | .localDecl .. => .pure _
  | .sigReturn | .flagsClear | .flagsSetDF | .chipCli | .chipSti | .chipHalt | .chipSerialInit | .chipInt _
  | .chipPitInit _ | .chipPicRemap | .cpuNopLong | .cpuXgetbv | .rawBytes _ | .kernelSysret => .code rfl
  | .stackPop _ | .chipLidt _ | .chipLgdt _ | .cpuLeaRip .. | .cpuLeaAbs .. | .cpuTestImm .. | .cpuImulImm ..
  | .cpuBswap _ | .cpuRdrand _ | .cpuRdseed _ | .cpuClflush _ => .one _ _ fun _ => rfl
  | .cpuMovsxd .. | .cpuXchg .. | .cpuXadd .. | .cpuCmpxchg .. | .cpuShld .. | .cpuShrd .. | .cpuShldImm ..
  | .cpuShrdImm .. | .cpuImul3 .. | .cpuAdc .. | .cpuSbb .. | .cpuPopcnt .. | .cpuLzcnt .. | .cpuTzcnt ..
  | .cpuRorx .. | .cpuBlsi .. | .cpuBlsr .. | .cpuBlsmsk .. | .cpuAdcx .. | .cpuAdox .. | .cpuCrc32 .. =>
    .two _ _ _ fun _ _ => rfl
  | .cpuAndn .. | .cpuBzhi .. | .cpuShlx .. | .cpuShrx .. | .cpuSarx .. | .cpuBextr .. | .cpuPext .. | .cpuPdep ..
  | .cpuMulx .. => .three _ _ _ _ fun _ _ _ => rfl

end Aclm.Codegen
