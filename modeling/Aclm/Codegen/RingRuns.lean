import Aclm.Codegen.Heap
import Aclm.Codegen.Reservations
import Aclm.Codegen.RingRegion

/-! Whether the pushes and pops of a run stay inside the memory that the first initialisation has reserved. -/

set_option autoImplicit false

namespace Aclm.Codegen

open X64 (Word Reg Cpu Env Machine Memory)
open X64.Memory (Separate SameOn Zeros range mem_range)
open Encoder

variable {L : Listing} {M : Machine} {slots : Nat}

/-! ### Runs -/

/-- A push of constants or a pop. -/
inductive RingMove (g : CodeGenerator) : Op → Prop where
  | push {addr length : Expr} {v w : Int} (constant : constantValue g addr = some v)
      (constant' : constantValue g length = some w) : RingMove g (.kernelDmaRingPush addr length)
  | pop (destAddr destLen : String) : RingMove g (.kernelDmaRingPop destAddr destLen)

/-- A run of initialisations, pushes and pops, all of them allowed, from the start, where the header is zero. In between the
program may do anything but write to the header. -/
inductive RingHistory (L : Listing) (M : Machine) (slots : Nat) (allowed : Op → Prop) : Cpu → Prop where
  | start {c : Cpu} (zeros : Zeros (ringBase L) 16 c.mem) : RingHistory L M slots allowed c
  | init {g : CodeGenerator} {n : Int} {c d : Cpu} (history : RingHistory L M slots allowed c)
      (allows : allowed (Parser.dmaRingInit n)) (clear : StackClear L c 32 "__dmaring" (ringBytes slots))
      (executes : Executes L M g (Parser.dmaRingInit n) c d) : RingHistory L M slots allowed d
  | move {g : CodeGenerator} {op : Op} {c d : Cpu} (history : RingHistory L M slots allowed c) (move : RingMove g op)
      (allows : allowed op) (clear : StackClear L c 32 "__dmaring" (ringBytes slots)) (executes : Executes L M g op c d) :
      RingHistory L M slots allowed d
  | other {c d : Cpu} (history : RingHistory L M slots allowed c) (kept : SameOn (ringBase L) 16 c.mem d.mem) :
      RingHistory L M slots allowed d

/-- An initialisation for no more slots than there are, a push of single constants, and a pop that leaves its pointers in RAX
and R8 alone. -/
def FitsRing (slots : Nat) : Op → Prop
  | .kernelDmaRingInit n => n ≤ slots
  | .kernelDmaRingPush addr length => addr.IsLeaf ∧ length.IsLeaf
  | .kernelDmaRingPop destAddr destLen => resolve destAddr ≠ .ok .rax ∧ resolve destAddr ≠ .ok .r8 ∧ resolve destLen ≠ .ok .r8
  | _ => True

theorem ringPop_resolves {g : CodeGenerator} {destAddr destLen : String}
    (emission : ∃ g', emitOp (.kernelDmaRingPop destAddr destLen) g = .ok () g') :
    ∃ da dl, resolve destAddr = .ok da ∧ resolve destLen = .ok dl := by
  obtain ⟨g', ok⟩ := emission
  simp only [emitOp, kernelDmaRingPop, reg_bind_ok] at ok
  obtain ⟨da, named, dl, named', -⟩ := ok
  exact ⟨da, dl, named, named'⟩

/-- A push or a pop that fits touches the ring and the words that save the registers, and leaves the header sound. -/
theorem RingMove.confines {g : CodeGenerator} {op : Op} (move : RingMove g op) (fits : FitsRing slots op)
    (emission : ∃ g', emitOp op g = .ok () g') {c : Cpu} (clear : StackClear L c 32 "__dmaring" (ringBytes slots))
    (sound : RingSound c.mem (ringBase L) slots) :
    ∃ calls, Appends op g calls ∧ L.Confines (ringRegion L slots c) calls c fun d => RingSound d.mem (ringBase L) slots := by
  cases move with
  | push constant constant' =>
    have known := operand_of_constant fits.1 constant
    have known' := operand_of_constant fits.2 constant'
    obtain ⟨full, ok, appends⟩ := ringPush_appends_operand known known'
    exact ⟨_, appends, ringPush_confines clear sound _ _ full ok⟩
  | pop destAddr destLen =>
    obtain ⟨da, dl, named, named'⟩ := ringPop_resolves emission
    obtain ⟨notRax, notR8, notR8'⟩ := fits
    rw [named] at notRax notR8
    rw [named'] at notR8'
    have safe : PopSafe da dl := ⟨user_of_resolve named, user_of_resolve named', by simpa using notRax, by simpa using notR8,
      by simpa using notR8'⟩
    obtain ⟨empty, ok, appends⟩ := @ringPop_appends g _ _ _ _ named named'
    exact ⟨_, appends, ringPop_confines safe clear sound empty ok⟩

/-- In a run whose statements fit the header stays sound. -/
theorem RingHistory.sound (loaded : L.Loaded M) (positive : 0 < slots) {c : Cpu}
    (history : RingHistory L M slots (FitsRing slots) c) : RingSound c.mem (ringBase L) slots := by
  induction history with
  | start zeros => exact .of_zeros zeros positive
  | @init g n c d _ allows clear executes =>
    have le : Parser.ringSlots n ≤ slots := by exact_mod_cast (show (Parser.ringSlots n : Int) ≤ slots from allows)
    have two : 2 ≤ Parser.ringSlots n := (ringSlots_isLeast n).1.2.1
    exact executes.post loaded (ringInit_appends _ g) (ringInit_sound (by omega) le clear)
  | @move g op c d _ move allows clear executes ih =>
    obtain ⟨i, calls, stands, run⟩ := executes
    obtain ⟨g', emission, -⟩ := stands.emission
    obtain ⟨calls', appends, confines⟩ := move.confines allows ⟨g', emission⟩ clear ih
    obtain rfl := stands.calls_eq appends
    obtain ⟨e, other, sound, -⟩ := confines.executes loaded stands.here
    rwa [run.unique other]
  | other _ kept ih => exact ih.of_sameOn kept

/-! ### Programs -/

/-- What the memory of the ring is for, in the runs whose statements are allowed. The program has the ring among its data,
with the slots that the first initialisation asks for; and wherever a run comes to a push or a pop, this touches nothing but
these bytes and the words on the stack that its registers are saved in. -/
def RingBounded (allowed : Nat → Op → Prop) (opts : Options) (p : Program) : Prop :=
  ∀ (g : CodeGenerator) (a : Assembler), emitted opts p = .ok (g, a) →
    (∀ s ∈ p.statements, "__dmaring" ∉ declares s) →
    ∀ (first : Int) (slots : Nat) (rest : List Int), Parser.ringSlots first = slots → ringSizes p = (slots : Int) :: rest →
      RingReserved g slots ∧ ∀ (L : Listing) (M : Machine), L.calls = g.script → L.Loaded M → ∀ c : Cpu,
        RingHistory L M slots (allowed slots) c → StackClear L c 32 "__dmaring" (ringBytes slots) →
        ∀ (h : CodeGenerator) (op : Op) (i : Nat) (calls : List Call), RingMove h op → allowed slots op → Stands L h op i calls →
          M.Stays (ringRegion L slots c) (L.offset i) (L.offset (i + calls.length)) c

/-- A ring of two slots, then of four, that pairs are pushed to for ever. -/
def refilled : Program :=
  ⟨[.op 1 (Parser.dmaRingInit 2), .op 2 (Parser.dmaRingInit 4), .op 3 (.label "again"),
    .op 4 (.kernelDmaRingPush (.number 5) (.number 7)), .op 5 (.goto "again")]⟩

def refilledPush : List Call := ringPushCalls (.imm 5) (.imm 7) (freshLabel "dmf" 1) (freshLabel "dmo" 2)

theorem refilled_stands : ∃ (g : CodeGenerator) (a : Assembler) (L : Listing) (M : Machine), emitted ⟨false, false, false⟩ refilled =
    .ok (g, a) ∧ L.calls = g.script ∧ L.Loaded M ∧ (∃ i, Stands L (.new false) (Parser.dmaRingInit 4) i (ringInitCalls 4)) ∧
      ∃ i, Stands L (.new false) (.kernelDmaRingPush (.number 5) (.number 7)) i refilledPush := by
  have completes : (emitted ⟨false, false, false⟩ refilled).isOk = true := by decide
  obtain ⟨⟨g, a⟩, emission⟩ := exists_of_isOk completes
  obtain ⟨g₀, prepared, ok, -⟩ := emitted_ok.mp emission
  have script : g.script = ringInitCalls 2 ++ (ringInitCalls 4 ++ ([.label (lbl "again")] ++ (refilledPush ++
      ([.jmp (lbl "again")] ++ exitStub)))) := by
    cases prepared
    cases ok
    rfl
  obtain ⟨L, M, loaded, calls, -, -⟩ := Listing.exists_loaded (ringInitCalls 2 ++ (ringInitCalls 4 ++ ([.label (lbl "again")] ++
    (refilledPush ++ ([.jmp (lbl "again")] ++ exitStub))))) [(data "__dmaring", 1000)] .silent (by decide +kernel)
  have here : L.At 0 (ringInitCalls 2 ++ (ringInitCalls 4 ++ ([.label (lbl "again")] ++ (refilledPush ++
      ([.jmp (lbl "again")] ++ exitStub))))) := calls ▸ List.prefix_refl _
  obtain ⟨-, rest⟩ := here.append _
  obtain ⟨init, rest⟩ := rest.append _
  obtain ⟨-, rest⟩ := rest.append _
  obtain ⟨push, -⟩ := rest.append _
  exact ⟨g, a, L, M, emission, calls.trans script.symm, loaded, ⟨_, ⟨_, rfl, rfl⟩, init⟩, ⟨_, ⟨_, rfl, rfl⟩, push⟩⟩

/-- The stack ends where the ring begins. -/
theorem stackClear_below (L : Listing) (c : Cpu) {n k : Nat} (small : n + k ≤ 2 ^ 32) :
    StackClear L (c.set .rsp (ringBase L)) n "__dmaring" k := by
  change Separate (ringBase L - BitVec.ofNat 64 n) n (ringBase L) k
  constructor <;> bv_omega

/-- A push while the ring of four slots has room. -/
theorem refilledPush_room (loaded : L.Loaded M) {i : Nat}
    (push : Stands L (.new false) (.kernelDmaRingPush (.number 5) (.number 7)) i refilledPush) {c : Cpu} {q : List (Word × Word)}
    (held : RingAt c.mem (ringBase L) 2 0 q) (room : q.length < 3) :
    ∃ d, M.Completes (L.offset i) (L.offset (i + refilledPush.length)) (c.set .rsp (ringBase L)) d ∧
      RingAt d.mem (ringBase L) 2 0 (q ++ [(5, 7)]) := by
  have clear : StackClear L (c.set .rsp (ringBase L)) 32 "__dmaring" (ringBytes (2 ^ 2)) := stackClear_below L c (by decide)
  have five : (Operand.imm 5).Outside RING_BUSY := trivial
  have seven : (Operand.imm 7).Outside RING_BUSY := trivial
  have held : RingAt (c.set .rsp (ringBase L)).mem (ringBase L) 2 0 q := held
  obtain ⟨d, run, pushed⟩ := ringPush_meets (by decide) held clear five seven (freshLabel "dmf" 1) (freshLabel "dmo" 2) i push.here
  rw [RingPushed, if_pos (by omega)] at pushed
  exact ⟨d, loaded.inside run, pushed.2⟩

/-- A push into the third slot is seen in memory behind a ring of two. -/
theorem refilledPush_outside (loaded : L.Loaded M) {i : Nat}
    (push : Stands L (.new false) (.kernelDmaRingPush (.number 5) (.number 7)) i refilledPush) {c : Cpu}
    (held : RingAt c.mem (ringBase L) 2 0 [(5, 7), (5, 7)])
    (zero : c.mem.load (ringBase L + BitVec.ofNat 64 (16 + 16 * 2)) 8 = 0) :
    ¬M.Stays (ringRegion L 2 (c.set .rsp (ringBase L))) (L.offset i) (L.offset (i + refilledPush.length))
      (c.set .rsp (ringBase L)) := by
  intro stays
  obtain ⟨d, run, held⟩ := refilledPush_room loaded push held (by decide)
  have slot : slotAt d.mem (ringBase L) 2 = (5, 7) := held.holds 2 (5, 7) rfl
  have five : d.mem.load (ringBase L + BitVec.ofNat 64 (16 + 16 * 2)) 8 = 5 := (Prod.ext_iff.mp slot).1
  have same : SameOn (ringBase L + BitVec.ofNat 64 (16 + 16 * 2)) 8 c.mem d.mem := by
    intro x inside
    refine stays.untouched run ?_
    rintro (ring | stack)
    · rw [mem_range] at ring
      simp only [ringBytes] at ring
      bv_omega
    · rw [mem_range, X64.Cpu.set_reg, if_pos rfl] at stack
      bv_omega
  have kept := same.load (i := 0) (k := 8) (le_refl 8) (by decide)
  rw [BitVec.add_zero, five, zero] at kept
  exact absurd kept (by decide)

end Aclm.Codegen
