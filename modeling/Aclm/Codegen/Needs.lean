import Aclm.Codegen.References
import Aclm.Codegen.Targets

/-! What the code of each statement refers to, and which cells of the generator it leaves to others to reserve. -/

set_option autoImplicit false

namespace Aclm.Codegen

open X64 (Reg)
open Encoder

/-- A name that stands where an address is expected. -/
def namedBase : Expr → List String
  | .ident name => [data name]
  | _ => []

/-- The labels and the data that a statement itself names. -/
def written : Op → List String
  | .goto label | .jumpIf _ label | .call label _ | .trapNeg label | .threadSpawn _ label | .sigAction _ label
  | .kernelSyscallRegister _ label => [lbl label]
  | .cpuLeaRip _ label => [data label]
  | .memLoad _ base .. | .memStore base .. | .cpuLea _ base .. | .vecLoad _ base _ | .vecStore base .. | .vecVLoad _ base _
  | .vecVStore base .. | .cpuCmovMem _ base .. | .cpuCmpxchg16b base _ => namedBase base
  | _ => []

/-- The cells of the generator that the code of a statement refers to and that it does not reserve itself. -/
def needs : Op → List String
  | .pulseSleep _ | .pulseNow _ => ["__timespec"]
  | .threadSpawn .. | .threadJoin _ | .threadJoinAll | .threadExit _ => ["__thr_futex"]
  | .kernelHeapAlloc .. => ["__kheap_ptr"]
  | .kernelDmaRingPush .. | .kernelDmaRingPop .. => ["__dmaring"]
  | _ => []

/-- The cells that it reserves for others. -/
def gives : Op → List String
  | .kernelHeapInit _ => ["__kheap_ptr"]
  | .kernelDmaRingInit _ => ["__dmaring"]
  | _ => []

namespace Refers

variable {α β : Type} {K : String → Prop} {L G : List String}

theorem one (call : Reg → Call) (a : String) (within : ∀ r, Within K [call r]) : Refers K [] [] (one call a) :=
  .bind (.reg _) fun r => .plain (within r)

theorem two (call : Reg → Reg → Call) (a b : String) (within : ∀ r s, Within K [call r s]) :
    Refers K [] [] (two call a b) :=
  .bind (.reg _) fun r => .bind (.reg _) fun s => .plain (within r s)

theorem three (call : Reg → Reg → Reg → Call) (a b c : String) (within : ∀ r s t, Within K [call r s t]) :
    Refers K [] [] (three call a b c) :=
  .bind (.reg _) fun r => .bind (.reg _) fun s => .bind (.reg _) fun t => .plain (within r s t)

/-! ### The core language -/

theorem emitCmp (left right : Expr) : Refers K [] [] (emitCmp left right) :=
  .seq (.plain trivial) <| .seq (.eval _ _) <| .seq (.plain trivial) <| .seq (.eval _ _) (.plain trivial)

theorem cpuBinCalls_within (op : CpuBinOp) (value : Expr) (dst val : Reg) : Within K (cpuBinCalls op value dst val) := by
  have shifts (shift : ShiftOp) : Within K (shiftCalls shift value dst val) := by
    unfold shiftCalls
    split
    · trivial
    · exact ite_within trivial trivial
  cases op <;> first | trivial | exact shifts _

theorem cpuBin (op : CpuBinOp) (dest : String) (value : Expr) : Refers K [] [] (cpuBin op dest value) := by
  refine .bind .get fun g => ?_
  split
  · exact .ite (.seq (.eval _ _) (.plain trivial))
      (.seq (.plain trivial) <| .seq (.eval _ _) <| .seq (.plain (cpuBinCalls_within _ _ _ _)) (.plain trivial))
  · exact .bind (.reg _) fun _ => .ite (.eval _ _) (.seq (.eval _ _) (.plain (cpuBinCalls_within _ _ _ _)))

theorem cpuUnary (op : CpuUnaryOp) (dest : String) : Refers K [] [] (cpuUnary op dest) := by
  refine .bind .get fun g => ?_
  split
  · exact .plain (by cases op <;> trivial)
  · exact .bind (.reg _) fun _ => .plain (by cases op <;> trivial)

theorem storeLocal_within (off : Option Int) (src : Reg) : Within K (storeLocal off src) := by
  cases off <;> trivial

theorem loadReg (off : Option Int) (dest : String) : Refers K [] [] (loadReg off dest) := by
  cases off with
  | none => exact .reg _
  | some off => exact .pure _

theorem memLoad (dest : String) (base offset : Expr) (width : Size) (index : Option Expr) (scale : Int)
    (allowed : ∀ name, base = .ident name → K (data name)) : Refers K [] [] (memLoad dest base offset width index scale) :=
  .bind (.baseReg _ allowed) fun _ => .bind .get fun _ => .bind (.ofExcept _) fun _ => .bind .get fun _ =>
    .bind (.loadReg _ _) fun _ => .bind (.indexReg _) fun _ => .seq (.plain trivial) (.plain (storeLocal_within _ _))

theorem memStore (base offset value : Expr) (width : Size) (index : Option Expr) (scale : Int)
    (allowed : ∀ name, base = .ident name → K (data name)) : Refers K [] [] (memStore base offset value width index scale) :=
  .seq (.plain trivial) <| .seq (.eval _ _) <| .bind (.baseReg _ allowed) fun _ => .bind .get fun _ =>
    .bind (.ofExcept _) fun _ => .bind (.indexReg _) fun _ => .plain trivial

theorem leaRegMem_within (dst base : Reg) (disp : Int) (index : Option Reg) (scale : Int) :
    Within K [leaRegMem dst base disp index scale] := by
  cases index <;> trivial

theorem cpuLea (dest : String) (base : Expr) (index : Option Expr) (scale offset : Int)
    (allowed : ∀ name, base = .ident name → K (data name)) : Refers K [] [] (cpuLea dest base index scale offset) := by
  refine .bind (.reg _) fun dst => ?_
  split
  · exact .ite (.plain ⟨allowed _ rfl, trivial⟩) (.bind (.basePhys _ allowed) fun _ => .plain (leaRegMem_within _ _ _ _ _))
  · exact .bind (.basePhys _ allowed) fun _ => .bind (.indexReg _) fun _ => .plain (leaRegMem_within _ _ _ _ _)

theorem emitCall (label : String) (args : List Expr) (allowed : K (lbl label)) : Refers K [] [] (emitCall label args) :=
  .seq (.pushArgs _ _) <| .seq (.plain (map_pop_within _)) (.plain ⟨allowed, trivial⟩)

theorem emitSyscall (num : SysNum) (args : List Expr) : Refers K [] [] (emitSyscall num args) := by
  have body : Refers K [] [] (do
      let num ← Codegen.ofExcept (syscallNumber num)
      Codegen.pushArgs SCRATCH (args.take 6)
      asm (popArgs (args.take 6).length SYSCALL_ARGS)
      asm [.movRegImm64 .rax num, .pushReg .rcx, .pushReg .r11, .syscall, .popReg .r11, .popReg .rcx]) :=
    .bind (.ofExcept _) fun _ => .seq (.pushArgs _ _) <| .seq (.plain (map_pop_within _)) (.plain trivial)
  refine .bind .get fun g => ?_
  split
  · exact .bind (.codegenError _) fun _ => body
  · exact body

theorem cpuMovExt (signed : Bool) (dest : String) (src : Expr) (width : Int) :
    Refers K [] [] (cpuMovExt signed dest src width) := by
  have within (dst src : Reg) : Within K [if signed then movsxRegReg dst src width else movzxRegReg dst src width] := by
    cases signed <;> trivial
  refine .bind (.reg _) fun dst => ?_
  cases src with
  | reg name => exact .bind (.reg _) fun src => .plain (within dst src)
  | _ => exact .seq (.eval _ _) (.plain (within dst .r12))

/-! ### Linux -/

theorem blastFill (dest : String) (byteVal length : Expr) : Refers K [] [] (blastFill dest byteVal length) :=
  .bind (.reg _) fun _ => .seq (.plain trivial) <| .seq (.plain trivial) <| .seq (.eval _ _) <| .seq (.plain trivial) <|
    .seq (.eval _ _) <| .seq (.plain trivial) <| .withLabel fun loop => .withLabel fun done =>
    .both [loop, done] [] (.calls ⟨.inl rfl, .inr (.inl rfl), trivial⟩ (by simp)) (.plain trivial) (by simp)

theorem blastCopy (dest : String) (src length : Expr) : Refers K [] [] (blastCopy dest src length) :=
  .bind (.reg _) fun _ => .seq (.plain trivial) <| .seq (.plain trivial) <| .seq (.eval _ _) <| .seq (.plain trivial) <|
    .seq (.eval _ _) <| .seq (.plain trivial) <| .withLabel fun loop => .withLabel fun done =>
    .both [loop, done] [] (.calls ⟨.inl rfl, .inr (.inl rfl), trivial⟩ (by simp)) (.plain trivial) (by simp)

theorem blastRepFill (dest : String) (byteVal length : Expr) : Refers K [] [] (blastRepFill dest byteVal length) :=
  .bind (.reg _) fun _ => .seq (.plain trivial) <| .seq (.plain trivial) <| .seq (.eval _ _) <| .seq (.plain trivial) <|
    .seq (.eval _ _) <| .seq (.plain trivial) <| .seq (.plain (copyTo_within _ _)) (.plain trivial)

theorem blastRepCopy (dest : String) (src length : Expr) : Refers K [] [] (blastRepCopy dest src length) :=
  .bind (.reg _) fun _ => .seq (.plain trivial) <| .seq (.plain trivial) <| .seq (.eval _ _) <| .seq (.plain trivial) <|
    .seq (.eval _ _) <| .seq (.plain trivial) <| .seq (.plain (copyTo_within _ _)) (.plain trivial)

theorem wireLen (dest : String) (src : Expr) : Refers K [] [] (wireLen dest src) :=
  .bind (.reg _) fun _ => .seq (.plain trivial) <| .seq (.eval _ _) <| .seq (.plain trivial) <|
    .withLabel fun _ => .withLabel fun _ => .calls ⟨.inl rfl, .inr (.inl rfl), trivial⟩ (by simp)

theorem wireCmp (dest : String) (left right : Expr) : Refers K [] [] (wireCmp dest left right) :=
  .bind (.reg _) fun _ => .seq (.plain trivial) <| .seq (.eval _ _) <| .seq (.plain trivial) <| .seq (.eval _ _) <|
    .seq (.plain trivial) <| .withLabel fun _ => .withLabel fun _ => .withLabel fun _ => .withLabel fun _ =>
    .calls ⟨.inr (.inl rfl), .inr (.inr (.inl rfl)), .inr (.inr (.inr (.inl rfl))), .inl rfl, trivial⟩ (by simp)

theorem wireCopy (dest src : Expr) : Refers K [] [] (wireCopy dest src) :=
  .seq (.plain trivial) <| .seq (.eval _ _) <| .seq (.plain trivial) <| .seq (.eval _ _) <| .seq (.plain trivial) <|
    .withLabel fun _ => .withLabel fun _ => .calls ⟨.inl rfl, .inr (.inl rfl), trivial⟩ (by simp)

theorem wireEmitLength (src : Expr) (length : Option Expr) : Refers K [] [] (wireEmitLength src length) := by
  cases length with
  | some length => exact .seq (.eval _ _) (.plain trivial)
  | none =>
    exact .seq (.plain trivial) <| .withLabel fun loop => .withLabel fun done =>
      .both [loop, done] [] (.calls ⟨.inl rfl, .inr (.inl rfl), trivial⟩ (by simp)) (.seq (.eval _ _) (.plain trivial))
        (by simp)

theorem wireEmit (src : Expr) (length : Option Expr) : Refers K [] [] (wireEmit src length) :=
  .seq (.plain trivial) <| .seq (.eval _ _) <| .seq (.plain trivial) <| .seq (.wireEmitLength _ _) (.plain trivial)

theorem cellMap (dest : String) (size : Expr) (prot flags : Option Expr) : Refers K [] [] (cellMap dest size prot flags) :=
  .seq (.plain trivial) <| .seq (.eval _ _) <| .seq (.evalOr _ _ trivial) <| .seq (.evalOr _ _ trivial) <|
    .seq (.plain trivial) <| .bind (.reg _) fun _ => .seq (.plain (copyTo_within _ _)) (.plain trivial)

theorem cellMapfile (dest : String) (size fd : Expr) (offset prot : Option Expr) :
    Refers K [] [] (cellMapfile dest size fd offset prot) :=
  .seq (.plain trivial) <| .seq (.eval _ _) <| .seq (.eval _ _) <| .seq (.evalOr _ _ trivial) <|
    .seq (.evalOr _ _ trivial) <| .seq (.plain trivial) <| .bind (.reg _) fun _ =>
    .seq (.plain (copyTo_within _ _)) (.plain trivial)

theorem cellFree (ptr size : Expr) : Refers K [] [] (cellFree ptr size) :=
  .seq (.eval _ _) <| .seq (.plain trivial) <| .seq (.eval _ _) (.plain trivial)

theorem cellProtect (ptr size prot : Expr) : Refers K [] [] (cellProtect ptr size prot) :=
  .seq (.plain trivial) <| .seq (.eval _ _) <| .seq (.eval _ _) <| .seq (.eval _ _) (.plain trivial)

theorem gateCas (addr expected desired : String) : Refers K [] [] (gateCas addr expected desired) :=
  .bind (.reg _) fun _ => .bind (.reg _) fun _ => .bind (.reg _) fun _ => .seq (.plain trivial) <|
    .seq (.plain (ite_within trivial trivial)) <| .seq (.plain (ite_within trivial trivial)) <|
    .seq (.plain (ite_within trivial trivial)) <| .seq (.plain trivial) <| .seq (.plain (ite_within trivial trivial)) <|
    .plain (ite_within trivial (ite_within trivial trivial))

theorem gateSpin (addr : String) : Refers K [] [] (gateSpin addr) :=
  .bind (.reg _) fun _ => .seq (.plain trivial) <| .seq (.plain (ite_within trivial trivial)) <|
    .withLabel fun loop => .both [loop] [] (.calls ⟨.inl rfl, trivial⟩ (by simp)) (.plain (ite_within trivial trivial))
      (by simp)

theorem gateFence (kind : String) : Refers K [] [] (gateFence kind) := by
  have within (k : String) : Within K [if k = "lfence" then lfence else if k = "sfence" then sfence else mfence] := by
    split
    · trivial
    · split <;> trivial
  exact .plain (within _)

theorem pulseSleep (ns : Expr) (cell : K (data "__timespec")) : Refers K [] [] (pulseSleep ns) :=
  .seq (.plain ⟨cell, trivial⟩) <| .seq (.eval _ _) (.plain trivial)

theorem pulseNow (dest : String) (cell : K (data "__timespec")) : Refers K [] [] (pulseNow dest) :=
  .seq (.plain ⟨cell, cell, trivial⟩) <| .bind (.reg _) fun _ => .plain trivial

theorem threadSpawn (dest label : String) (cell : K threadFutex) (allowed : K (lbl label)) :
    Refers K [] [] (threadSpawn dest label) :=
  .seq (.plain trivial) <| .withLabel fun child => .withLabel fun parent =>
    .seq (.plain ⟨.inr (.inl rfl), trivial⟩) <| .bind (.reg _) fun _ => .seq (.plain (copyTo_within _ _)) <|
    .both [child] [parent]
      (.calls ⟨.inr (.inr cell), .inl rfl, .inr (.inr allowed), trivial⟩ (by simp))
      (.calls ⟨.inr (.inr cell), trivial⟩ (by simp)) (by simp)

theorem threadJoin (cell : K threadFutex) : Refers K [] [] threadJoin :=
  .withLabel fun loop => .withLabel fun done => .both [loop, done] []
    (.calls ⟨.inr (.inr cell), .inl rfl, .inl rfl, .inr (.inr cell), .inl rfl, .inr (.inl rfl), trivial⟩ (by simp))
    (.plain ⟨.inr (.inr cell), trivial⟩) (by simp)

theorem threadJoinAll (cell : K threadFutex) : Refers K [] [] threadJoinAll :=
  .withLabel fun _ => .withLabel fun _ =>
    .calls ⟨.inr (.inr cell), .inl rfl, .inl rfl, .inr (.inl rfl), trivial⟩ (by simp)

theorem threadExit (code : Option Expr) (cell : K threadFutex) : Refers K [] [] (threadExit code) :=
  .seq (.plain ⟨cell, trivial⟩) <| .seq (.evalOr _ _ trivial) (.plain trivial)

theorem result (dest : String) : Refers K [] [] (result dest) := .bind (.reg _) fun _ => .plain (copyTo_within _ _)

theorem netSocket (dest : String) (domain type protocol : Expr) : Refers K [] [] (netSocket dest domain type protocol) :=
  .seq (.eval _ _) <| .seq (.eval _ _) <| .seq (.eval _ _) <| .seq (.plain trivial) (.result _)

/-- Three operands into registers, and a system call. -/
theorem threeOperands (a b c : Expr) (ra rb rc : Reg) {after : List Call} (within : Within K after) :
    Refers K [] [] (do Codegen.eval a ra; Codegen.eval b rb; Codegen.eval c rc; asm after) :=
  .seq (.eval _ _) <| .seq (.eval _ _) <| .seq (.eval _ _) (.plain within)

theorem netPoll (fds nfds timeout : Expr) : Refers K [] [] (netPoll fds nfds timeout) :=
  .seq (.plain trivial) (.threeOperands _ _ _ _ _ _ trivial)

theorem netEpollCreate (dest : String) (flags : Option Expr) : Refers K [] [] (netEpollCreate dest flags) :=
  .seq (.evalOr _ _ trivial) <| .seq (.plain trivial) (.result _)

theorem netEpollCtl (epfd op fd eventPtr : Expr) : Refers K [] [] (netEpollCtl epfd op fd eventPtr) :=
  .seq (.plain trivial) <| .seq (.eval _ _) (.threeOperands _ _ _ _ _ _ trivial)

theorem netEpollWait (dest : String) (epfd events maxevents timeout : Expr) :
    Refers K [] [] (netEpollWait dest epfd events maxevents timeout) :=
  .seq (.plain trivial) <| .seq (.eval _ _) <| .seq (.eval _ _) <| .seq (.eval _ _) <| .seq (.eval _ _) <|
    .seq (.plain trivial) <| .bind (.reg _) fun _ => .seq (.plain (copyTo_within _ _)) (.plain trivial)

theorem sigAction (signo : Expr) (handler : String) (allowed : K (lbl handler)) : Refers K [] [] (sigAction signo handler) := by
  have within : Within K [handlerCall handler] := by
    unfold handlerCall
    split
    · exact ⟨allowed, trivial⟩
    · trivial
  exact .seq (.eval _ _) <| .seq (.plain within) (.plain trivial)

/-! ### Freestanding -/

theorem portIn (dest : String) (port : Expr) : Refers K [] [] (portIn dest port) :=
  .seq (.eval _ _) <| .seq (.plain trivial) <| .bind (.reg _) fun _ =>
    .seq (.plain (copyTo_within _ _)) (.plain trivial)

theorem serialPutc (value : Expr) : Refers K [] [] (serialPutc value) :=
  .seq (.plain trivial) <| .seq (.eval _ _) <| .seq (.plain trivial) <| .withLabel fun _ =>
    .calls ⟨.inl rfl, trivial⟩ (by simp)

theorem kbdPoll (dest : String) : Refers K [] [] (kbdPoll dest) :=
  .bind (.reg _) fun _ => .seq (.plain trivial) <| .withLabel fun ok => .withLabel fun done =>
    .both [ok] [done] (.calls ⟨.inr (.inl rfl), .inl rfl, trivial⟩ (by simp))
      (.seq (.plain (copyTo_within _ _)) (.calls trivial (by simp))) (by simp)

theorem kernelHeapInit (size : Int) : Refers K [] ["__kheap_ptr"] (kernelHeapInit size) :=
  .cell "__kheap" (by decide) <| .sharedCell "__kheap_ptr" (by decide) <|
    .plain ⟨.inr (.inl rfl), .inl rfl, trivial⟩

theorem kernelHeapAlloc (dest : String) (size : Expr) (cell : K (data "__kheap_ptr")) :
    Refers K [] [] (kernelHeapAlloc dest size) :=
  .bind (.reg _) fun _ => .seq (.plain ⟨cell, trivial⟩) <| .seq (.eval _ _) (.plain trivial)

theorem kernelCtxSave (dest : String) : Refers K [] [] (kernelCtxSave dest) := .bind (.reg _) fun _ => .plain trivial

theorem kernelCtxLoad (src : String) : Refers K [] [] (kernelCtxLoad src) := .bind (.reg _) fun _ => .plain trivial

theorem patchGate (stub : String) (vector : Int) (allowed : K stub) : Refers K [] [] (patchGate stub vector) :=
  .present "__idt" <| .plain ⟨.inr allowed, .inl rfl, trivial⟩

theorem kernelIdtInstall : Refers K [] [] kernelIdtInstall :=
  .once .idtHandler ⟨.inl (.tail _ (.head _)), .inl (.head _), trivial⟩ (by simp [Stub.names, stopStub]) <|
    .cell "__idt" (by decide) <| .cell "__idtr" (by decide) <|
    .seq (.plain ⟨.inr (.inr (.inl (.head _))), .inr (.inl rfl), trivial⟩) <| .withLabel fun loop =>
    .both [loop] [] (.calls ⟨.inl rfl, trivial⟩ (by simp))
      (.plain ⟨.inr (.inr (.inl rfl)), .inr (.inl rfl), trivial⟩) (by simp)

theorem kernelTickInstall : Refers K [] [] kernelTickInstall :=
  .cell "__tick" (by decide) <| .once .irq0 ⟨.inl (.tail _ (.head _)), .inr (.inl rfl), trivial⟩ (by simp [Stub.names])
    (.patchGate _ _ (.inl (.head _)))

theorem kernelTickRead (dest : String) : Refers K [] [] (kernelTickRead dest) :=
  .bind (.reg _) fun _ => .cell "__tick" (by decide) (.plain ⟨.inl rfl, trivial⟩)

theorem kernelPfInstall : Refers K [] [] kernelPfInstall :=
  .once .pf ⟨.inl (.tail _ (.head _)), .inl (.head _), trivial⟩ (by simp [Stub.names, stopStub])
    (.patchGate _ _ (.inl (.head _)))

theorem kernelNmiInstall : Refers K [] [] kernelNmiInstall :=
  .once .nmi ⟨.inl (.tail _ (.head _)), .inl (.head _), trivial⟩ (by simp [Stub.names, stopStub])
    (.patchGate _ _ (.inl (.head _)))

theorem kernelIrqFullSaveOn : Refers K [] [] kernelIrqFullSaveOn :=
  .cell "__irq_gprs" (by decide) <| .cell "__tick" (by decide) <|
    .once .irq0Full ⟨.inl (.tail _ (.head _)), .inr (.inr (.inl rfl)), .inr (.inl rfl), .inr (.inr (.inl rfl)), trivial⟩
      (by simp [Stub.names]) (.patchGate _ _ (.inl (.head _)))

theorem kernelPrintkStr (src : Expr) : Refers K [] [] (kernelPrintkStr src) :=
  .seq (.plain trivial) <| .seq (.eval _ _) <| .withLabel fun loop => .withLabel fun done =>
    .both [loop] [done] (.calls ⟨.inl rfl, trivial⟩ (by simp))
      (.withLabel fun _ => .calls ⟨.inl rfl, .inr (.inr (.inl rfl)), trivial⟩ (by simp)) (by simp)

theorem kernelPanic : Refers K [] [] kernelPanic :=
  .seq (.plain trivial) <| .withLabel fun _ => .calls ⟨.inl rfl, trivial⟩ (by simp)

theorem kernelRamfsInit : Refers K [] [] kernelRamfsInit :=
  .cell "__ramfs" (by decide) <| .seq (.plain ⟨.inl rfl, trivial⟩) <| .withLabel fun _ =>
    .calls ⟨.inl rfl, trivial⟩ (by simp)

theorem kernelRamfsPut (name fileData length : Expr) : Refers K [] [] (kernelRamfsPut name fileData length) :=
  .cell "__ramfs" (by decide) <| .seq (.plain trivial) <| .seq (.eval _ _) <| .seq (.eval _ _) <| .seq (.eval _ _) <|
    .seq (.plain ⟨.inl rfl, trivial⟩) <| .withLabel fun fs => .withLabel fun found => .withLabel fun done =>
    .both [fs, found] [done] (.calls ⟨.inr (.inl rfl), .inr (.inr (.inl rfl)), .inl rfl, trivial⟩ (by simp))
      (.withLabel fun _ => .calls ⟨.inr (.inl rfl), .inl rfl, trivial⟩ (by simp)) (by simp)

theorem kernelRamfsGet (dest : String) (name : Expr) : Refers K [] [] (kernelRamfsGet dest name) :=
  .bind (.reg _) fun _ => .cell "__ramfs" (by decide) <| .seq (.plain trivial) <| .seq (.eval _ _) <|
    .seq (.plain ⟨.inl rfl, trivial⟩) <| .withLabel fun loop => .withLabel fun fail => .withLabel fun ok =>
    .withLabel fun done => .both [loop] [ok, fail, done] (.calls trivial (by simp))
      (.withLabel fun cmpl => .both [cmpl] [ok, fail, done] (.calls trivial (by simp))
        (.withLabel fun _ => .calls
          ⟨.inl rfl, .inr (.inr (.inr (.inl rfl))), .inr (.inl rfl), .inr (.inr (.inr (.inl rfl))),
            .inr (.inr (.inr (.inr (.inr (.inl rfl))))), .inr (.inr (.inr (.inr (.inl rfl)))),
            .inr (.inr (.inl rfl)), trivial⟩ (by simp)) (by simp)) (by simp)

theorem kernelCsRing (dest : String) : Refers K [] [] (kernelCsRing dest) :=
  .bind (.reg _) fun _ => .seq (.plain trivial) (.plain (copyTo_within _ _))

theorem kernelEnterUser (entry stack : Expr) : Refers K [] [] (kernelEnterUser entry stack) :=
  .seq (.plain trivial) <| .seq (.eval _ _) <| .seq (.plain trivial) <| .seq (.eval _ _) <| .seq (.plain trivial) <|
    .seq (.eval _ _) (.plain trivial)

theorem kernelNetInit : Refers K [] [] kernelNetInit := by
  intro g a g' stubs ok
  have ended := bind_ok.mpr ⟨a, g', ok, pure_ok.mpr ⟨rfl, rfl⟩⟩
  exact Refers.cell "__net" (by decide) (.pure a) _ _ _ stubs ended

theorem kernelNetAllow (port : Int) : Refers K [] [] (kernelNetAllow port) :=
  .cell "__net_allow" (by decide) (.plain ⟨.inl rfl, trivial⟩)

theorem kernelNetCheck (dest : String) (port : Expr) : Refers K [] [] (kernelNetCheck dest port) :=
  .bind (.reg _) fun _ => .cell "__net_allow" (by decide) <| .seq (.plain trivial) <| .seq (.eval _ _) <|
    .seq (.plain ⟨.inl rfl, trivial⟩) <| .withLabel fun _ => .withLabel fun _ =>
    .calls ⟨.inr (.inl rfl), .inl rfl, trivial⟩ (by simp)

theorem kernelPreemptArm (ctx : String) : Refers K [] [] (kernelPreemptArm ctx) :=
  .cell "__preempt_req" (by decide) <| .seq (.plain ⟨.inl rfl, trivial⟩) <| .bind (.reg _) fun _ => .plain trivial

theorem kernelNicBar (addr : Expr) : Refers K [] [] (kernelNicBar addr) :=
  .cell "__nic_bar" (by decide) <| .seq (.plain trivial) <| .seq (.eval _ _) (.plain ⟨.inl rfl, trivial⟩)

theorem kernelNicRead (dest : String) (offset : Expr) : Refers K [] [] (kernelNicRead dest offset) :=
  .bind (.reg _) fun _ => .cell "__nic_bar" (by decide) <| .seq (.plain ⟨.inl rfl, trivial⟩) <|
    .seq (.eval _ _) (.plain trivial)

theorem kernelNicWrite (offset value : Expr) : Refers K [] [] (kernelNicWrite offset value) :=
  .cell "__nic_bar" (by decide) <| .seq (.plain ⟨.inl rfl, trivial⟩) <| .seq (.eval _ _) <| .seq (.plain trivial) <|
    .seq (.eval _ _) (.plain trivial)

theorem kernelSyscallInit : Refers K [] [] kernelSyscallInit :=
  .once .sysentry ⟨.inl (.tail _ (.head _)), trivial⟩ (by simp [Stub.names]) (.plain ⟨.inl (.head _), trivial⟩)

theorem kernelSyscallTableInit : Refers K [] [] kernelSyscallTableInit :=
  .cell "__systab" (by decide) <| .once .nosys ⟨.inl (.tail _ (.head _)), trivial⟩ (by simp [Stub.names]) <|
    .seq (.plain ⟨.inl (.head _), .inr (.inl rfl), trivial⟩) <| .withLabel fun loop =>
    .both [loop] [] (.calls ⟨.inl rfl, trivial⟩ (by simp))
      (.once .sysdispatch ⟨.inl (.tail _ (.head _)), .inr (.inr (.inr (.inl rfl))), trivial⟩ (by simp [Stub.names])
        (.plain ⟨.inl (.head _), trivial⟩)) (by simp)

theorem kernelSyscallRegister (nr : Int) (handler : String) (allowed : K (lbl handler)) :
    Refers K [] [] (kernelSyscallRegister nr handler) :=
  .cell "__systab" (by decide) (.plain ⟨.inr allowed, .inl rfl, trivial⟩)

/-- The size of the ring is kept among the data, under a name that no code refers to. -/
theorem reserveRing (n : Int) : Refers K [] ["__dmaring"] (reserveRing n) := by
  intro g a g' stubs ok
  have ok := get_bind_ok.mp ok
  split at ok
  · next known =>
    obtain ⟨-, rfl⟩ := pure_ok.mp ok
    have same : Made K [] [] g' g' := .same stubs rfl rfl rfl
    exact { same with
      cells := fun name member => by rwa [List.mem_singleton.mp member]
      shared := fun _ _ placed => .inl placed }
  · have ok := reserve_bind_ok.mp ok
    have ok := modify_ok.mp ok
    obtain ⟨placed, made⟩ := made_reserved (K := K) stubs "__dmaring" (zeroBytes (16 + n * 16))
    have others (other : String) (apart : "__dmaring_slots" ≠ other) :
        g'.dataLayout.contains other = (reserved g "__dmaring" (zeroBytes (16 + n * 16))).dataLayout.contains other := by
      rw [ok, Dict.contains, Dict.contains, Dict.get?_set, if_neg apart]
    have counted : Made K [] [] (reserved g "__dmaring" (zeroBytes (16 + n * 16))) g' := by
      refine ⟨⟨[], by simp [ok], by simp⟩, by simp, fun name placed => ?_, by simp, fun name member known => .inl ?_, ?_⟩
      · by_cases same : "__dmaring_slots" = name
        · rw [ok, Dict.contains, Dict.get?_set, if_pos same]
          rfl
        · rwa [others name same]
      · rwa [others name fun same => absurd (same ▸ member) (by decide)] at known
      · rw [ok]
        exact made.stubs
    have ring : "__dmaring" ∈ SHARED := by decide
    rw [if_pos ring] at made
    exact made.trans counted

theorem kernelDmaRingInit (slots : Int) : Refers K [] ["__dmaring"] (kernelDmaRingInit slots) := by
  intro g a g' stubs ok
  obtain ⟨u, m, ok₁, ok₂⟩ := bind_ok.mp ok
  have ring := reserveRing (K := K) slots _ _ _ stubs ok₁
  have code : Made (fun t => t = data "__dmaring" ∨ K t) [] [] m g' := by
    refine Refers.plain ?_ _ _ _ ring.stubs ok₂
    exact ⟨.inl rfl, trivial⟩
  have placed := code.kept _ (ring.cells "__dmaring" List.mem_cons_self)
  exact ring.trans (code.mono fun t allowed => allowed.elim (fun is => .inr (.inr ⟨_, placed, is⟩)) .inl)

theorem kernelDmaRingPush (addr length : Expr) (cell : K (data "__dmaring")) :
    Refers K [] [] (kernelDmaRingPush addr length) :=
  .seq (.plain trivial) <| .seq (.plain ⟨cell, trivial⟩) <| .withLabel fun full => .withLabel fun ok =>
    .seq (.plain ⟨.inr (.inl rfl), trivial⟩) <| .seq (.eval _ _) <| .seq (.plain trivial) <| .seq (.eval _ _) <|
    .seq (.plain trivial) <| .bind (.reg _) fun _ =>
    .both [full, ok] [] (.calls ⟨.inl rfl, trivial⟩ (by simp)) (.plain trivial) (by simp)

theorem kernelDmaRingPop (destAddr destLen : String) (cell : K (data "__dmaring")) :
    Refers K [] [] (kernelDmaRingPop destAddr destLen) :=
  .bind (.reg _) fun _ => .bind (.reg _) fun _ => .seq (.plain trivial) <| .seq (.plain ⟨cell, trivial⟩) <|
    .withLabel fun empty => .withLabel fun ok => .seq (.plain ⟨.inr (.inl rfl), trivial⟩) <| .bind (.reg _) fun _ =>
    .both [empty, ok] [] (.calls ⟨.inl rfl, trivial⟩ (by simp)) (.plain trivial) (by simp)

/-! ### Statements -/

theorem chipTicks (dest : String) : Refers K [] [] (chipTicks dest) :=
  .seq (.plain trivial) <| .bind (.reg _) fun _ => .seq (.plain (copyTo_within _ _)) (.plain trivial)

theorem chipId (leaf : Expr) (destA destB destC destD : String) : Refers K [] [] (chipId leaf destA destB destC destD) :=
  .seq (.eval _ _) <| .seq (.plain trivial) <| .bind (.reg _) fun _ => .seq (.plain trivial) <| .bind (.reg _) fun _ =>
    .seq (.plain trivial) <| .bind (.reg _) fun _ => .seq (.plain trivial) <| .bind (.reg _) fun _ => .plain trivial

theorem emitReturn : Refers K [] [] emitReturn := .bind .get fun _ => .plain (ite_within trivial trivial)

/-- One of the emitters of fixed bytes. -/
theorem fixed {x : Except PyErr Call} (bytes : Fixed x) : Refers K [] [] (do asm [← Codegen.ofExcept x]) := by
  intro g a g' stubs ok
  obtain ⟨call, m, found, appended⟩ := bind_ok.mp ok
  obtain ⟨returned, rfl⟩ := ofExcept_ok.mp found
  obtain ⟨data, rfl⟩ := bytes call returned
  have within : Within K [.bytes data] := trivial
  exact Refers.plain within _ _ _ stubs appended

theorem privCall (op : CpuPriv) (name : String) : Refers K [] [] (do asm [← privCall op name]) := by
  intro g a g' stubs ok
  obtain ⟨call, m, found, appended⟩ := bind_ok.mp ok
  have plain : m = g ∧ Within K [call] := by
    cases op <;> simp only [Codegen.privCall, bind_ok, reg_ok, pure_ok] at found
    case sldt | str | smsw =>
      obtain ⟨r, -, ⟨-, rfl⟩, rfl, rfl⟩ := found
      exact ⟨rfl, trivial⟩
    all_goals
      obtain ⟨rfl, rfl⟩ := found
      exact ⟨rfl, trivial⟩
  obtain ⟨rfl, within⟩ := plain
  exact Refers.plain within _ _ _ stubs appended

end Refers

/-- A name that a statement may leave to others to define. -/
def Allowed (op : Op) (target : String) : Prop := target ∈ written op ∨ ∃ name ∈ needs op, target = data name

theorem allowed_base {base : Expr} {K : String → Prop} (all : ∀ t ∈ namedBase base, K t) :
    ∀ name, base = .ident name → K (data name) := by
  rintro name rfl
  exact all _ List.mem_cons_self

theorem emitOp_refers : (op : Op) → Refers (Allowed op) [] (gives op) (emitOp op)
  | .label _ => .calls trivial (by simp)
  | .goto _ | .jumpIf .. | .trapNeg _ => .plain ⟨.inl (.head _), trivial⟩
  | .cmp .. => .emitCmp _ _
  | .cpuBin .. => .cpuBin _ _ _
  | .cpuUnary .. => .cpuUnary _ _
  | .memLoad .. => .memLoad _ _ _ _ _ _ (allowed_base fun _ => .inl)
  | .memStore .. => .memStore _ _ _ _ _ _ (allowed_base fun _ => .inl)
  | .sysCall .. => .emitSyscall _ _
  | .call .. => .emitCall _ _ (.inl (.head _))
  | .ret => .emitReturn
  | .retVal _ => .seq (.evalOr _ _ trivial) .emitReturn
  | .stackPush _ => .seq (.eval _ _) (.plain trivial)
  | .blastFill .. => .blastFill _ _ _
  | .blastCopy .. => .blastCopy _ _ _
  | .blastRepFill .. => .blastRepFill _ _ _
  | .blastRepCopy .. => .blastRepCopy _ _ _
  | .wireLen .. => .wireLen _ _
  | .wireCmp .. => .wireCmp _ _ _
  | .wireCopy .. => .wireCopy _ _
  | .wireEmit .. => .wireEmit _ _
  | .cellMap .. => .cellMap _ _ _ _
  | .cellMapFile .. => .cellMapfile _ _ _ _ _
  | .cellFree .. => .cellFree _ _
  | .cellProtect .. => .cellProtect _ _ _
  | .sigAction .. => .sigAction _ _ (.inl (.head _))
  | .gateCas .. => .gateCas _ _ _
  | .gateSpin _ => .gateSpin _
  | .gateFence _ => .gateFence _
  | .pulseSleep _ => .pulseSleep _ (.inr ⟨_, .head _, rfl⟩)
  | .pulseNow _ => .pulseNow _ (.inr ⟨_, .head _, rfl⟩)
  | .chipTicks _ => .chipTicks _
  | .chipId .. => .chipId _ _ _ _ _
  | .chipSerialPutc _ => .serialPutc _
  | .chipKbdPoll _ => .kbdPoll _
  | .portOut .. | .cpuTest .. => .seq (.eval _ _) <| .seq (.eval _ _) (.plain trivial)
  | .portIn .. => .portIn _ _
  | .vecLoad .. => .bind (.basePhys _ (allowed_base fun _ => .inl)) fun _ => .fixed (.movups _ _ _ _)
  | .vecStore .. => .bind (.basePhys _ (allowed_base fun _ => .inl)) fun _ => .fixed (.movups _ _ _ _)
  | .vecVLoad .. => .bind (.basePhys _ (allowed_base fun _ => .inl)) fun _ => .fixed (.vmovups _ _ _ _)
  | .vecVStore .. => .bind (.basePhys _ (allowed_base fun _ => .inl)) fun _ => .fixed (.vmovups _ _ _ _)
  | .vecBin .. => .fixed (.vecBin _ _ _)
  | .vecVBin .. => .fixed (.vecVBin _ _ _ _)
  | .cpuLea .. => .cpuLea _ _ _ _ _ (allowed_base fun _ => .inl)
  | .cpuLeaRip .. => .one _ _ fun _ => ⟨.inl (.head _), trivial⟩
  | .cpuCmov .. => .seq (.eval _ _) <| .bind (.reg _) fun _ => .plain trivial
  | .cpuCmovMem .. => .bind (.baseReg _ (allowed_base fun _ => .inl)) fun _ => .bind (.reg _) fun _ =>
    .fixed (.cmovRegMem _ _ _ _)
  | .cpuMovExt .. => .cpuMovExt _ _ _ _
  | .cpuCmpxchg16b .. => .bind (.baseReg _ (allowed_base fun _ => .inl)) fun _ => .plain trivial
  | .cpuEnter .. => .fixed (.error _)
  | .cpuPrivOp .. => .privCall _ _
  | .cpuBitScan .. => .seq (.eval _ _) (.one _ _ fun _ => by split <;> trivial)
  | .cpuBt .. => .seq (.eval _ _) (.one _ _ fun _ => trivial)
  | .cpuMovzx .. | .cpuMovsx .. => .two _ _ _ fun _ _ => by split <;> trivial
  | .cpuBitOp .. => .two _ _ _ fun _ _ => by cases ‹BitOp› <;> trivial
  | .cpuBitImm .. => .one _ _ fun _ => by cases ‹BitOp› <;> trivial
  | .cpuMulDiv1 .. | .cpuPrefetch .. | .cpuMxcsr .. | .cpuFx .. => .one _ _ fun _ => by split <;> trivial
  | .cpuFsGs .. => .one _ _ fun _ => by cases ‹FsGs› <;> trivial
  | .cpuFlagOp _ => .plain (by cases ‹CpuFlag› <;> trivial)
  | .prefixedOp _ => .plain (ite_within trivial (ite_within trivial trivial))
  | .threadSpawn .. => .threadSpawn _ _ (.inr ⟨_, .head _, rfl⟩) (.inl (.head _))
  | .threadJoin _ => .threadJoin (.inr ⟨_, .head _, rfl⟩)
  | .threadJoinAll => .threadJoinAll (.inr ⟨_, .head _, rfl⟩)
  | .threadExit _ => .threadExit _ (.inr ⟨_, .head _, rfl⟩)
  | .errStatus _ => .result _
  | .netSocket .. => .netSocket _ _ _ _
  | .netConnect .. | .netSend .. | .netRecv .. => .threeOperands _ _ _ _ _ _ trivial
  | .netClose _ => .seq (.eval _ _) (.plain trivial)
  | .netPoll .. => .netPoll _ _ _
  | .netEpollCreate .. => .netEpollCreate _ _
  | .netEpollCtl .. => .netEpollCtl _ _ _ _
  | .netEpollWait .. => .netEpollWait _ _ _ _ _
  | .targetBaremetal | .assertBytes .. | .assertSize .. => .modify (fun _ => rfl) (fun _ => rfl) fun _ => rfl
  | .kernelHeapInit _ => .kernelHeapInit _
  | .kernelHeapAlloc .. => .kernelHeapAlloc _ _ (.inr ⟨_, .head _, rfl⟩)
  | .kernelCtxSave _ => .kernelCtxSave _
  | .kernelCtxLoad _ => .kernelCtxLoad _
  | .kernelIdtInstall => .kernelIdtInstall
  | .kernelCoopSwitch .. => .seq (.kernelCtxSave _) (.kernelCtxLoad _)
  | .kernelPrintkStr _ => .kernelPrintkStr _
  | .kernelPanic => .kernelPanic
  | .kernelTickInstall => .kernelTickInstall
  | .kernelTickRead _ => .kernelTickRead _
  | .kernelRamfsInit => .kernelRamfsInit
  | .kernelRamfsPut .. => .kernelRamfsPut _ _ _
  | .kernelRamfsGet .. => .kernelRamfsGet _ _
  | .kernelNetInit => .kernelNetInit
  | .kernelNetPoll _ => .bind (.reg _) fun _ => .plain trivial
  | .kernelCsRing _ => .kernelCsRing _
  | .kernelEnterUser .. => .kernelEnterUser _ _
  | .kernelPfInstall => .kernelPfInstall
  | .kernelNmiInstall => .kernelNmiInstall
  | .kernelNetAllowPort _ => .kernelNetAllow _
  | .kernelNetCheckPort .. => .kernelNetCheck _ _
  | .kernelPreemptArm _ => .kernelPreemptArm _
  | .kernelSyscallInit => .kernelSyscallInit
  | .kernelNicBar _ => .kernelNicBar _
  | .kernelNicRegRead .. => .kernelNicRead _ _
  | .kernelNicRegWrite .. => .kernelNicWrite _ _
  | .kernelIrqFullSave => .kernelIrqFullSaveOn
  | .kernelSyscallTableInit => .kernelSyscallTableInit
  | .kernelSyscallRegister .. => .kernelSyscallRegister _ _ (.inl (.head _))
  | .kernelDmaRingInit _ => .kernelDmaRingInit _
  | .kernelDmaRingPush .. => .kernelDmaRingPush _ _ (.inr ⟨_, .head _, rfl⟩)
  | .kernelDmaRingPop .. => .kernelDmaRingPop _ _ (.inr ⟨_, .head _, rfl⟩)
  -- Declarations emit nothing.
  | .dataAlloc .. | .dataConst .. | .dataBytes .. | .dataAlign .. | .metalRegs | .metalDeterministic | .sectionAt ..
  | .includeFile .. | .structDef .. | .localDecl .. => .pure _
  | .sigReturn | .flagsClear | .flagsSetDF | .chipCli | .chipSti | .chipHalt | .chipSerialInit | .chipInt _
  | .chipPitInit _ | .chipPicRemap | .cpuNopLong | .cpuXgetbv | .rawBytes _ | .kernelSysret => .plain trivial
  | .stackPop _ | .flagSetcc .. | .chipLidt _ | .chipLgdt _ | .cpuLeaAbs .. | .cpuTestImm .. | .cpuImulImm ..
  | .cpuBswap _ | .cpuRdrand _ | .cpuRdseed _ | .cpuClflush _ => .one _ _ fun _ => trivial
  | .cpuMovsxd .. | .cpuXchg .. | .cpuXadd .. | .cpuCmpxchg .. | .cpuShld .. | .cpuShrd .. | .cpuShldImm ..
  | .cpuShrdImm .. | .cpuImul3 .. | .cpuAdc .. | .cpuSbb .. | .cpuPopcnt .. | .cpuLzcnt .. | .cpuTzcnt ..
  | .cpuRorx .. | .cpuBlsi .. | .cpuBlsr .. | .cpuBlsmsk .. | .cpuAdcx .. | .cpuAdox .. | .cpuCrc32 .. =>
    .two _ _ _ fun _ _ => trivial
  | .cpuAndn .. | .cpuBzhi .. | .cpuShlx .. | .cpuShrx .. | .cpuSarx .. | .cpuBextr .. | .cpuPext .. | .cpuPdep ..
  | .cpuMulx .. => .three _ _ _ _ fun _ _ _ => trivial

/-- The code refers to a name. -/
def Mentions (g : CodeGenerator) (target : String) : Prop := ∃ c ∈ g.script, c.fixup = some target

/-- What a statement needs it does refer to. -/
theorem emitOp_mentions {op : Op} {g g' : CodeGenerator} (ok : emitOp op g = .ok () g') {name : String}
    (needed : name ∈ needs op) : Mentions g' (data name) := by
  cases op with
  | pulseSleep ns =>
    obtain rfl := List.mem_singleton.mp needed
    simp only [emitOp, pulseSleep, asm_bind_ok, eval_bind_ok, asm_ok] at ok
    obtain ⟨calls, -, rfl⟩ := ok
    exact ⟨.leaRegLabel .rdi (data "__timespec"), by simp, rfl⟩
  | pulseNow dest =>
    obtain rfl := List.mem_singleton.mp needed
    simp only [emitOp, pulseNow, asm_bind_ok, reg_bind_ok, asm_ok] at ok
    obtain ⟨r, -, rfl⟩ := ok
    exact ⟨.leaRegLabel .rsi (data "__timespec"), by simp, rfl⟩
  | threadSpawn dest label =>
    obtain rfl := List.mem_singleton.mp needed
    simp only [emitOp, threadSpawn, asm_bind_ok, newLabel_bind_ok, reg_bind_ok, asm_ok] at ok
    obtain ⟨r, -, rfl⟩ := ok
    exact ⟨.leaRegLabel .rdi threadFutex, by simp, rfl⟩
  | threadJoin tid =>
    obtain rfl := List.mem_singleton.mp needed
    simp only [emitOp, threadJoin, asm_bind_ok, newLabel_bind_ok, asm_ok] at ok
    subst ok
    exact ⟨.leaRegLabel .rdi threadFutex, by simp, rfl⟩
  | threadJoinAll =>
    obtain rfl := List.mem_singleton.mp needed
    simp only [emitOp, threadJoinAll, newLabel_bind_ok, asm_ok] at ok
    subst ok
    exact ⟨.leaRegLabel .rdi threadFutex, by simp, rfl⟩
  | threadExit code =>
    obtain rfl := List.mem_singleton.mp needed
    have here : (.leaRegLabel .rdi threadFutex) ∈ signalDone := List.mem_cons_self
    cases code with
    | none =>
      simp only [emitOp, threadExit, evalOr, asm_bind_ok, asm_ok] at ok
      subst ok
      exact ⟨.leaRegLabel .rdi threadFutex, by simp [here], rfl⟩
    | some code =>
      simp only [emitOp, threadExit, evalOr, asm_bind_ok, eval_bind_ok, asm_ok] at ok
      obtain ⟨calls, -, rfl⟩ := ok
      exact ⟨.leaRegLabel .rdi threadFutex, by simp [here], rfl⟩
  | kernelHeapAlloc dest size =>
    obtain rfl := List.mem_singleton.mp needed
    simp only [emitOp, kernelHeapAlloc, reg_bind_ok, asm_bind_ok, eval_bind_ok, asm_ok] at ok
    obtain ⟨r, -, calls, -, rfl⟩ := ok
    exact ⟨.leaRegLabel .r12 (data "__kheap_ptr"), by simp, rfl⟩
  | kernelDmaRingPush addr length =>
    obtain rfl := List.mem_singleton.mp needed
    simp only [emitOp, kernelDmaRingPush, reg_bind_ok, asm_bind_ok, newLabel_bind_ok, eval_bind_ok, asm_ok] at ok
    obtain ⟨first, -, second, -, r, -, rfl⟩ := ok
    exact ⟨.leaRegLabel .r8 (data "__dmaring"), by simp, rfl⟩
  | kernelDmaRingPop destAddr destLen =>
    obtain rfl := List.mem_singleton.mp needed
    simp only [emitOp, kernelDmaRingPop, reg_bind_ok, asm_bind_ok, newLabel_bind_ok, asm_ok] at ok
    obtain ⟨da, -, dl, -, r, -, rfl⟩ := ok
    exact ⟨.leaRegLabel .r8 (data "__dmaring"), by simp, rfl⟩
  | _ => cases needed

end Aclm.Codegen
