import Aclm.Codegen.Context
import Aclm.Codegen.Interrupts

/-! The handlers of the timer leave the interrupted program as it was, but for the count of the ticks. -/

set_option autoImplicit false

namespace Aclm.Codegen

open X64 (Word Reg Cpu Machine Flags)
open X64.Memory (Separate SameOn OnlyIn StackAt storeWords)
open Encoder

variable {L : Listing} {M : Machine}

def tick (L : Listing) : Word := L.address (data "__tick")
def gprs (L : Listing) : Word := L.address (data "__irq_gprs")

/-- The stack below, the count and the saved registers do not overlap: a frame and its alignment take 56 bytes of the
stack, and a handler two words more. -/
structure CountApart (L : Listing) (c : Cpu) : Prop where
  count : StackClear L c 72 "__tick" 8
  block : StackClear L c 72 "__irq_gprs" 128
  both : Separate (tick L) 8 (gprs L) 128

/-- What a handler does between saving `rs` and restoring them. -/
structure Ticked (L : Listing) (rs : List Reg) (c d : Cpu) : Prop where
  regs : ∀ r, r ∉ rs → d.reg r = c.reg r
  count : d.mem.load (tick L) 8 = c.mem.load (tick L) 8 + 1
  mem : ∀ x : Word, 8 ≤ (x - tick L).toNat → 128 ≤ (x - gprs L).toNat → d.mem x = c.mem x
  trace : d.trace = .output 0x20 0x20 :: c.trace

/-- The count goes up by one, and the end of the interrupt is signalled. -/
def countTick : List Call :=
  [.leaRegLabel .rax (data "__tick"), load64 .rdx .rax 0, addRegImm .rdx 1, store64 .rax 0 .rdx] ++ outPort 0x20 0x20

theorem countTick_meets (c : Cpu) : L.Meets countTick c fun d => (∀ r, r ∉ [Reg.rax, .rdx] → d.reg r = c.reg r) ∧
    d.mem = c.mem.store (tick L) 8 (c.mem.load (tick L) 8 + 1) ∧ d.trace = .output 0x20 0x20 :: c.trace := by
  refine .straight (by simp [countTick, outPort, load64, store64, X64.Instr.exec]; rfl) ⟨fun r other => ?_, ?_, ?_⟩
  · simp only [List.mem_cons, List.not_mem_nil, or_false, not_or] at other
    simp [other]
  · simp [tick]
  · simp

theorem ticked_stub (c : Cpu) : L.Meets countTick c (Ticked L [.rax, .rdx] c) := by
  refine .mono (countTick_meets c) fun d counted => ?_
  obtain ⟨regs, mem, trace⟩ := counted
  refine ⟨regs, ?_, fun x far _ => ?_, trace⟩
  · rw [mem]
    exact X64.Memory.load_store_word _ _ _
  · rw [mem]
    exact X64.Memory.store_of_le far

/-- The registers go into their block. -/
def fillBlock : List Call :=
  [.leaRegLabel .r15 (data "__irq_gprs")] ++ contextStores IRQ_GPRS 0 ++ [load64 .rax .rsp 0, store64 .r15 104 .rax]

theorem fillBlock_meets (c : Cpu) : L.Meets fillBlock c fun d => (∀ r, r ∉ [Reg.rax, .r15] → d.reg r = c.reg r) ∧
    StackAt d.mem (gprs L) (IRQ_GPRS.map c.reg) ∧ OnlyIn (gprs L) 128 c.mem d.mem ∧ d.trace = c.trace := by
  obtain ⟨m, entered⟩ : ∃ m, c.set SCRATCH (gprs L) = m := ⟨_, rfl⟩
  obtain ⟨filled, stored⟩ : ∃ filled, storeWords c.mem (gprs L) (IRQ_GPRS.map c.reg) = filled := ⟨_, rfl⟩
  have within : OnlyIn (gprs L) 104 c.mem filled :=
    stored ▸ X64.Memory.storeWords_onlyIn c.mem (gprs L) (IRQ_GPRS.map c.reg) (show 8 * 13 ≤ 2 ^ 64 by decide)
  have words : StackAt filled (gprs L) (IRQ_GPRS.map c.reg) :=
    stored ▸ X64.Memory.storeWords_stackAt c.mem (gprs L) (IRQ_GPRS.map c.reg) (show 8 * 13 ≤ 2 ^ 64 by decide)
  have same : IRQ_GPRS.map m.reg = IRQ_GPRS.map c.reg :=
    List.map_congr_left fun r member => by
      simp [← entered, show r ≠ SCRATCH from fun scratch => absurd (scratch ▸ member) (by decide)]
  have enter : effects L.env L.address [.leaRegLabel .r15 (data "__irq_gprs")] c = some m := entered ▸ rfl
  have fill : effects L.env L.address (contextStores IRQ_GPRS 0) m = some (m.setMem filled) := by
    rw [contextStores_effects, same, ← stored, ← entered]
    simp
  -- The fourteenth word of the block is R15's, which no load takes from there.
  have last (v : Word) : SameOn (gprs L) 104 filled (filled.store (gprs L + 104#64) 8 v) :=
    X64.Memory.store_sameOn (by constructor <;> bv_omega) v
  have inside (v : Word) : OnlyIn (gprs L) 128 filled (filled.store (gprs L + 104#64) 8 v) :=
    .store (i := 104) _ (by decide) (by decide) v
  refine .append (P := (· = m.setMem filled)) (.straight ?_ rfl) fun n filled' => ?_
  · rw [effects_append, enter, Option.bind_some, fill]
  rw [filled', ← entered]
  refine .mono (P := fun d => (∀ r, r ∉ [Reg.rax, .r15] → d.reg r = c.reg r) ∧
    d.mem = filled.store (gprs L + 104#64) 8 (filled.load (c.reg .rsp) 8) ∧ d.trace = c.trace)
    (.straight (by simp [load64, store64]; rfl) ⟨fun r other => ?_, ?_, ?_⟩) fun d done => ?_
  · simp only [List.mem_cons, List.not_mem_nil, or_false, not_or] at other
    simp [other, SCRATCH]
  · simp [SCRATCH]
  · rfl
  obtain ⟨regs, mem, trace⟩ := done
  rw [mem]
  refine ⟨regs, ?_, ?_, trace⟩
  · have kept := @SameOn.stackAt _ _ _ _ (last (filled.load (c.reg .rsp) 8)) (IRQ_GPRS.map c.reg) 0 (by simpa using words)
      (show 0 + 8 * 13 ≤ 104 by decide) (by decide)
    simpa using kept
  · have only : OnlyIn (gprs L) 128 c.mem filled := by simpa using @OnlyIn.widen _ _ _ _ _ 0 (by simpa using within) (by decide) (by decide)
    exact only.trans (inside _)

/-- The registers come back from their block after the tick. -/
def keepAll : List Call :=
  fillBlock ++ countTick ++ ([.leaRegLabel .r15 (data "__irq_gprs")] ++ contextLoads IRQ_GPRS 0)

theorem ticked_full {c : Cpu} (both : Separate (tick L) 8 (gprs L) 128) : L.Meets keepAll c (Ticked L [.r15] c) := by
  refine .append (.append (fillBlock_meets c) fun m filled => ?_ : L.Meets _ c fun d =>
    (∀ r, r ∉ [Reg.rax, .rdx, .r15] → d.reg r = c.reg r) ∧ StackAt d.mem (gprs L) (IRQ_GPRS.map c.reg) ∧
      d.mem.load (tick L) 8 = c.mem.load (tick L) 8 + 1 ∧
      (∀ x : Word, 8 ≤ (x - tick L).toNat → 128 ≤ (x - gprs L).toNat → d.mem x = c.mem x) ∧
      d.trace = .output 0x20 0x20 :: c.trace) fun m counted => ?_
  · obtain ⟨regs, words, only, trace⟩ := filled
    refine .mono (countTick_meets m) fun d counted => ?_
    obtain ⟨regs', mem, trace'⟩ := counted
    have count := (only.sameOn (both.symm (by decide))).load (i := 0) (k := 8) (by decide) (by decide)
    have block : SameOn (gprs L) 128 m.mem d.mem := mem ▸ X64.Memory.store_sameOn both _
    refine ⟨fun r other => ?_, ?_, ?_, fun x tick gprs => ?_, by rw [trace', trace]⟩
    · simp only [List.mem_cons, List.not_mem_nil, or_false, not_or] at other
      rw [regs' r (by simp [other]), regs r (by simp [other])]
    · have kept := @SameOn.stackAt _ _ _ _ block (IRQ_GPRS.map c.reg) 0 (by simpa using words)
        (show 0 + 8 * 13 ≤ 128 by decide) (by decide)
      simpa using kept
    · rw [BitVec.add_zero] at count
      rw [mem, X64.Memory.load_store_word, count]
    · rw [mem, X64.Memory.store_of_le tick, only x gprs]
  obtain ⟨regs, words, count, mem, trace⟩ := counted
  have start : StackAt (m.set SCRATCH (gprs L)).mem ((m.set SCRATCH (gprs L)).reg SCRATCH + BitVec.ofNat 64 (8 * 0))
      (IRQ_GPRS.map c.reg) := by simpa using words
  obtain ⟨d, ran, values, others, mem', trace', -⟩ := @contextLoads_effects L.env L.address IRQ_GPRS _ 0 _
    (by rw [List.length_map]) (by decide) (by decide) start
  have enter : effects L.env L.address [.leaRegLabel .r15 (data "__irq_gprs")] m = some (m.set SCRATCH (gprs L)) := rfl
  refine .straight (by rw [effects_append, enter, Option.bind_some, ran]) ⟨fun r other => ?_, ?_, fun x tick gprs => ?_, ?_⟩
  · rw [List.mem_singleton] at other
    by_cases restored : r ∈ IRQ_GPRS
    · exact values _ (mem_zip_map c.reg restored)
    · have notSaved : r ≠ .rax ∧ r ≠ .rdx :=
        ⟨fun same => restored (same ▸ by decide), fun same => restored (same ▸ by decide)⟩
      rw [others r restored]
      simpa [SCRATCH, other] using regs r (by simp [notSaved, other])
  · rw [mem']
    exact count
  · rw [mem']
    exact mem x tick gprs
  · rw [trace']
    exact trace

/-! ### The handlers -/

/-- A handler keeps `rs` on the stack around `body`, which does the work. -/
structure Handler (rs : List Reg) (body : List Call) : Prop where
  distinct : rs.Nodup
  notSp : .rsp ∉ rs
  nonempty : rs ≠ []
  few : rs.length ≤ 2
  ticks : ∀ (L : Listing) (c : Cpu), Separate (tick L) 8 (gprs L) 128 → L.Meets body c (Ticked L rs c)

/-- The code of a handler. -/
def handlerCalls (stub : String) (rs : List Reg) (body : List Call) : List Call :=
  [.label stub] ++ saving rs body ++ [iretq]

/-- The flag that says that the handler has been emitted. -/
def Install.flag : Install → Stub
  | tick => .irq0
  | irqFullSave => .irq0Full
  | pf => .pf
  | nmi => .nmi

theorem patchGate_script {g g' : CodeGenerator} {stub : String} {vector : Int}
    (emission : patchGate stub vector g = .ok () g') : ∃ more, g'.script = g.script ++ more := by
  unfold patchGate at emission
  rw [get_bind_ok] at emission
  split at emission
  · rw [asm_ok] at emission
    rw [emission]
    exact ⟨_, rfl⟩
  · obtain ⟨-, rfl⟩ := pure_ok.mp emission
    exact ⟨[], (List.append_nil _).symm⟩

/-- The statements that install a handler of the timer emit it the first time. -/
theorem timer_emitted {install : Install} (timer : install.vector = 32) {g g' : CodeGenerator}
    (first : install.flag ∉ g.emitted) (emission : emitOp install.op g = .ok () g') :
    ∃ after rs body more, Handler rs body ∧
      g'.script = g.script ++ (around after (handlerCalls install.stub rs body) ++ more) := by
  -- The data are reserved first, which neither adds code nor sets a flag.
  have emitted {h : CodeGenerator} {after stub : String} {calls : List Call} (script : h.script = g.script)
      (flags : h.emitted = g.emitted)
      (rest : patchGate stub 32 (onced h install.flag (around after calls)) = .ok () g') :
      ∃ more, g'.script = g.script ++ (around after calls ++ more) := by
    obtain ⟨more, script'⟩ := patchGate_script rest
    rw [onced, if_neg (flags ▸ first)] at script'
    exact ⟨more, by simpa [script] using script'⟩
  cases install with
  | tick =>
    have handler : Handler [.rax, .rdx] countTick :=
      ⟨by decide, by decide, by decide, by decide, fun L c _ => ticked_stub c⟩
    simp only [Install.op, emitOp, kernelTickInstall_eq, reserve_bind_ok, once_bind_ok] at emission
    obtain ⟨more, script⟩ := emitted (by simp) (by simp [reserved_emitted]) emission
    exact ⟨_, _, _, more, handler, script⟩
  | irqFullSave =>
    have handler : Handler [.r15] keepAll := ⟨by decide, by decide, by decide, by decide, fun L c both => ticked_full both⟩
    simp only [Install.op, emitOp, kernelIrqFullSaveOn_eq, reserve_bind_ok, once_bind_ok] at emission
    obtain ⟨more, script⟩ := emitted (by simp) (by simp [reserved_emitted]) emission
    exact ⟨_, _, _, more, handler, script⟩
  | pf => cases timer
  | nmi => cases timer

/-- The interrupted program goes on as it was, but for the count of the ticks. -/
structure Resumed (L : Listing) (M : Machine) (rip : Word) (c : Cpu) (t : X64.State) : Prop where
  rip : M.address t.pc = rip
  regs : ∀ r, t.cpu.reg r = c.reg r
  flags : t.cpu.flags = c.flags
  count : t.cpu.mem.load (tick L) 8 = c.mem.load (tick L) 8 + 1
  mem : ∀ x : Word, 8 ≤ (x - tick L).toNat → 128 ≤ (x - gprs L).toNat → 72 ≤ (x - (c.reg .rsp - 72)).toNat →
    t.cpu.mem x = c.mem x
  trace : t.cpu.trace = .output 0x20 0x20 :: c.trace

/-- What is left of the handler when it comes to its `iretq`. -/
structure Leaving (L : Listing) (frame : List Word) (c d : Cpu) : Prop where
  regs : ∀ r, r ≠ .rsp → d.reg r = c.reg r
  frame : StackAt d.mem (d.reg .rsp) frame
  count : d.mem.load (tick L) 8 = c.mem.load (tick L) 8 + 1
  mem : ∀ x : Word, 8 ≤ (x - tick L).toNat → 128 ≤ (x - gprs L).toNat → 72 ≤ (x - (c.reg .rsp - 72)).toNat →
    d.mem x = c.mem x
  trace : d.trace = .output 0x20 0x20 :: c.trace

theorem handler_meets {rs : List Reg} {body : List Call} (handler : Handler rs body) {c d : Cpu} {frame : List Word}
    (words : frame.length = 5) (entered : X64.Interrupted frame c d) (apart : CountApart L c) (stub : String) :
    L.Meets ([.label stub] ++ saving rs body) d (Leaving L frame c) := by
  obtain ⟨distinct, notSp, nonempty, few, ticks⟩ := handler
  obtain ⟨regs, ⟨k, small, sp⟩, stack, only, trace⟩ := entered
  obtain ⟨n, length⟩ : ∃ n, 8 * rs.length = n := ⟨_, rfl⟩
  have room : n ≤ 16 := by omega
  refine .append (P := (· = d)) (.straight rfl rfl) fun d' same => ?_
  rw [same]
  refine .saving distinct notSp (by omega) fun m saved => ?_
  rw [length]
  have sp' : m.reg .rsp = c.reg .rsp - BitVec.ofNat 64 (40 + k + n) := by
    rw [saved.sp, sp, length]
    bv_omega
  -- So far only the stack below has been written.
  have below (x : Word) (far : 72 ≤ (x - (c.reg .rsp - 72)).toNat) : m.mem x = c.mem x := by
    rw [saved.mem x (by rw [length, sp']; bv_omega), only x (by rw [sp]; bv_omega)]
  refine .mono (ticks L m apart.both) fun e ticked => ?_
  -- The work leaves the stack alone.
  have stays (x : Word) (near : (x - (c.reg .rsp - 72)).toNat < 72) : e.mem x = m.mem x := by
    obtain ⟨⟨lower, upper⟩, ⟨lower', upper'⟩, -⟩ := apart
    exact ticked.mem x (by unfold tick; bv_omega) (by unfold gprs; bv_omega)
  refine ⟨ticked.regs .rsp notSp, fun x inside => stays x (by rw [sp'] at inside; bv_omega), fun z back => ⟨fun r other => ?_,
    ?_, ?_, fun x tick gprs far => ?_, ?_⟩⟩
  · by_cases member : r ∈ rs
    · rw [back.saved r member, regs r other]
    · rw [back.others r member other, ticked.regs r member, saved.regs r other, regs r other]
  · have same : SameOn (d.reg .rsp) 40 d.mem e.mem := fun x inside => by
      rw [stays x (by rw [sp] at inside; bv_omega)]
      exact saved.mem x (by rw [length, sp']; rw [sp] at inside; bv_omega)
    rw [back.sp, back.mem]
    simpa using same.stackAt (j := 0) (by simpa using stack) (by omega) (by decide)
  · have before : SameOn (tick L) 8 c.mem m.mem := fun x inside => by
      obtain ⟨lower, upper⟩ := apart.count
      exact below x (by unfold tick at inside; bv_omega)
    have count := before.load (i := 0) (k := 8) (by decide) (by decide)
    rw [BitVec.add_zero] at count
    rw [back.mem, ticked.count, count]
  · rw [back.mem, ticked.mem x tick gprs, below x far]
  · rw [back.trace, ticked.trace, saved.trace, trace]

/-- `iretq` takes the program up again where the frame says. -/
theorem Leaving.resume {rip cs rflags ss : Word} {c d : Cpu} (leaving : Leaving L [rip, cs, rflags, c.reg .rsp, ss] c d)
    (flags : Flags.ofWord rflags = c.flags) (next : Nat) :
    ∃ t, M.perform .iretq next d = some t ∧ Resumed L M rip c t := by
  obtain ⟨regs, ⟨ripAt, -, rflagsAt, spAt, -⟩, count, mem, trace⟩ := leaving
  have two : d.reg .rsp + 8 + 8 = d.reg .rsp + BitVec.ofNat 64 (8 * 2) := by bv_omega
  have three : d.reg .rsp + BitVec.ofNat 64 (8 * 2) + 8 = d.reg .rsp + BitVec.ofNat 64 (8 * 3) := by bv_omega
  rw [two] at rflagsAt spAt
  rw [three] at spAt
  refine ⟨_, rfl, ?_, fun r => ?_, ?_, count, mem, trace⟩
  · simp only [Nat.mul_zero, BitVec.add_zero, ripAt, Machine.address, BitVec.ofNat_toNat, BitVec.setWidth_eq]
    bv_omega
  · by_cases isSp : r = .rsp
    · rw [isSp]
      exact spAt
    · simpa [isSp] using regs r isSp
  · exact (congrArg Flags.ofWord rflagsAt).trans flags

/-- Interrupted anywhere, a program goes on after the handler as it was. -/
theorem timer_transparent (loaded : L.Loaded M) {install : Install} (timer : install.vector = 32) {g g' : CodeGenerator}
    (first : install.flag ∉ g.emitted) (emission : emitOp install.op g = .ok () g') {calls : List Call}
    (script : g'.script = g.script ++ calls) {i : Nat} (here : L.At i calls) {j : Nat} (entry : L.Defines j install.stub)
    {c : Cpu} (apart : CountApart L c) (rip cs ss : Word) {rflags : Word} (flags : Flags.ofWord rflags = c.flags) :
    ∃ k d t, M.Steps ⟨L.offset j, c.interrupt rip cs rflags ss⟩ ⟨L.offset k, d⟩ ∧
      StackAt d.mem (d.reg .rsp) [rip, cs, rflags, c.reg .rsp, ss] ∧
      L.At k [iretq] ∧ M.Inside (L.offset k) (L.offset (k + 1)) ⟨L.offset k, d⟩ t ∧ Resumed L M rip c t := by
  obtain ⟨after, rs, body, more, handler, script'⟩ := timer_emitted timer first emission
  obtain rfl := List.append_cancel_left (script.symm.trans script')
  obtain ⟨whole, -⟩ := here.append _
  obtain ⟨whole, -⟩ := whole.append _
  obtain ⟨-, inner⟩ := whole.append [.jmp after]
  obtain ⟨front, last⟩ := inner.append ([.label install.stub] ++ saving rs body)
  -- The label is defined once, so the handler is entered at its front.
  have place : L.offset j = L.offset (i + 1) := offset_unique loaded entry (front.append [.label install.stub]).1
  obtain ⟨d, run, leaving⟩ := handler_meets handler rfl (X64.interrupt_interrupted c rip cs rflags ss) apart install.stub _ front
  obtain ⟨t, performed, resumed⟩ := leaving.resume (M := M) flags (L.offset
    (i + [Call.jmp after].length + ([Call.label install.stub] ++ saving rs body).length + 1))
  refine ⟨_, d, t, place ▸ (loaded.inside run).steps, leaving.frame, last, ?_, resumed⟩
  exact loaded.perform last (by decide) rfl performed

/-- The full handler interrupts a program at address 1000 whose stack pointer is not aligned. -/
theorem timer_transparent_full : ∃ (L : Listing) (M : Machine) (t : X64.State),
    Resumed L M 1000 (Cpu.filled 5007) t ∧ t.cpu.reg .r15 = 5007 := by
  obtain ⟨L, M, loaded, calls, -, base, offs⟩ := Listing.exists_loaded_data (around "__after_irq0_full" irq0Full)
    [(data "__tick", 10000), (data "__irq_gprs", 10008)] .silent (by decide +kernel)
  have count := offs (data "__tick") (by decide)
  have block := offs (data "__irq_gprs") (by decide)
  have countAt : L.address (data "__tick") = 10000 := by
    rw [Listing.address, base, count]
    rfl
  have blockAt : L.address (data "__irq_gprs") = 10008 := by
    rw [Listing.address, base, block]
    rfl
  have here : L.At 0 (around "__after_irq0_full" irq0Full) := calls ▸ List.prefix_refl _
  have entry : L.Defines 1 "__irq0_full" := here.part 1 ⟨_, rfl⟩
  have apart : CountApart L (Cpu.filled 5007) := by
    constructor
    · rw [StackClear, countAt]
      constructor <;> decide
    · rw [StackClear, blockAt]
      constructor <;> decide
    · rw [tick, gprs, countAt, blockAt]
      constructor <;> decide
  obtain ⟨k, d, t, -, -, -, -, resumed⟩ := @timer_transparent L M loaded .irqFullSave rfl (.new false) _ (by decide) rfl
    (around "__after_irq0_full" irq0Full) rfl 0 here 1 entry (Cpu.filled 5007) apart 1000 8 16 0 (by decide)
  exact ⟨L, M, t, resumed, resumed.regs .r15⟩

end Aclm.Codegen
