import Aclm.Codegen.Wire

/-! `kernel:printk_str` sends the bytes of a string to the serial line, each after the line status has said that it is
free. -/

set_option autoImplicit false

namespace Aclm.Codegen

open X64 (Word Byte Reg Cpu Env Machine Memory Event)
open X64.Memory (SameAbove SameOn Separate Terminated)
open Encoder

/-! ### The code -/

def pollCalls : List Call := [.movRegImm64 .rdx 0x3FD, .inAlDx, andRegImm .rax 0x20, testRegReg .rax .rax]

/-- The low byte of R15 is sent. -/
def putcCalls (wait : String) : List Call :=
  saving [.rax, .rdx] ([.movRegReg .rax SCRATCH] ++ saving [.rax] (repeated "eq" wait pollCalls) ++
    [.movRegImm64 .rdx 0x3F8, outDxAl])

def printkCalls (o : Operand) (loop done wait : String) : List Call :=
  saving [.r12] (o.mov .r12 ++ guarded "eq" loop done [load8 SCRATCH .r12 0, testRegReg SCRATCH SCRATCH]
    (putcCalls wait ++ [addRegImm .r12 1]))

theorem printk_appends {g : CodeGenerator} {src : Expr} {o : Operand} (found : g.operand src = .ok o) :
    ∃ loop done wait, Appends (.kernelPrintkStr src) g (printkCalls o loop done wait) := by
  refine ⟨freshLabel "pks" (g.labelI + 1), freshLabel "pkd" (g.labelI + 1 + 1), freshLabel "pkw" (g.labelI + 1 + 1 + 1),
    fun g' emission => ?_⟩
  simp only [emitOp, kernelPrintkStr, asm_bind_ok, newLabel_bind_ok, operand_bind_ok (operand_script found), asm_ok]
    at emission
  rw [emission]
  simp [printkCalls, putcCalls, pollCalls, saving, guarded, repeated, load8]

/-! ### The line -/

def LINE_STATUS : Word := 0x3FD

def LINE_DATA : Word := 0x3F8

/-- The line can take a byte. -/
def Free (v : Byte) : Prop := v &&& 0x20 ≠ 0

instance : DecidablePred Free := fun v => inferInstanceAs (Decidable (v &&& 0x20 ≠ 0))

/-- The trace after `n` reads of the line status. -/
def polled (env : Env) (trace : List Event) : Nat → List Event
  | 0 => trace
  | n + 1 => .input LINE_STATUS (env.input (polled env trace n) LINE_STATUS) :: polled env trace n

/-- Whatever has happened, the line status comes to say that the line is free when it is read again and again. -/
def EventuallyFree (env : Env) : Prop := ∀ trace, ∃ n, Free (env.input (polled env trace n) LINE_STATUS)

theorem polled_inputs (env : Env) (trace : List Event) (n : Nat) :
    ∃ vs : List Byte, polled env trace n = vs.map (.input LINE_STATUS) ++ trace := by
  induction n with
  | zero => exact ⟨[], rfl⟩
  | succ n ih =>
    obtain ⟨vs, shape⟩ := ih
    exact ⟨_ :: vs, by rw [polled, shape]; rfl⟩

/-- Bytes sent one after the other, the first event first: reads of the line status until the line is free, then the byte. -/
inductive Sends : List Byte → List Event → Prop where
  | done : Sends [] []
  | byte {bs : List Byte} {es : List Event} (before : Sends bs es) (vs : List Byte) {v : Byte} (free : Free v) (b : Byte) :
    Sends (bs ++ [b]) (es ++ (vs.map (.input LINE_STATUS) ++ [.input LINE_STATUS v, .output LINE_DATA b]))

/-- What an event writes to a port. -/
def outputOf : Event → Option (Word × Byte)
  | .output port value => some (port, value)
  | _ => none

/-- Exactly the bytes were sent, in order, each after a read of the line status that came behind the byte before and said
that the line is free. -/
structure Printed (bs : List Byte) (es : List Event) : Prop where
  outputs : es.filterMap outputOf = bs.map (LINE_DATA, ·)
  free : ∀ before port value after, es = before ++ .output port value :: after →
    ∃ earlier v later, before = earlier ++ .input LINE_STATUS v :: later ∧ Free v ∧ later.filterMap outputOf = []

theorem inputs_outputOf (vs : List Byte) : (vs.map (Event.input LINE_STATUS)).filterMap outputOf = [] := by
  rw [List.filterMap_map]
  exact List.filterMap_eq_nil_iff.mpr fun _ _ => rfl

/-- An output behind inputs only is the last event. -/
theorem output_last {vs : List Byte} {b value : Byte} {port : Word} {before after : List Event}
    (shape : vs.map (Event.input LINE_STATUS) ++ [.output LINE_DATA b] = before ++ .output port value :: after) :
    before = vs.map (Event.input LINE_STATUS) := by
  rcases List.eq_nil_or_concat after with rfl | ⟨rest, last, rfl⟩
  · exact (List.append_inj_left' shape rfl).symm
  · rw [List.concat_eq_append, ← List.cons_append, ← List.append_assoc] at shape
    have inputs := List.append_inj_left' shape rfl
    have member : Event.output port value ∈ vs.map (Event.input LINE_STATUS) := by simp [inputs]
    simp at member

theorem Sends.printed {bs : List Byte} {es : List Event} (sends : Sends bs es) : Printed bs es := by
  induction sends with
  | done => exact ⟨rfl, fun before port value after shape => by simp at shape⟩
  | @byte bs es sent vs v free b ih =>
    refine ⟨?_, fun before port value after shape => ?_⟩
    · rw [List.filterMap_append, List.filterMap_append, ih.outputs, inputs_outputOf, List.map_append]
      rfl
    · have inputs : (vs ++ [v]).map (Event.input LINE_STATUS) = vs.map (Event.input LINE_STATUS) ++ [.input LINE_STATUS v] := by
        simp
      rw [show vs.map (Event.input LINE_STATUS) ++ [.input LINE_STATUS v, .output LINE_DATA b] =
        (vs ++ [v]).map (Event.input LINE_STATUS) ++ [.output LINE_DATA b] by simp] at shape
      rcases List.append_eq_append_iff.mp shape with ⟨front, rfl, split⟩ | ⟨front, rfl, split⟩
      · rw [output_last split, inputs, ← List.append_assoc]
        exact ⟨_, v, [], rfl, free, rfl⟩
      · cases front with
        | nil =>
          have here := @output_last (vs ++ [v]) b value port [] after split.symm
          simp at here
        | cons event front =>
          obtain ⟨rfl, rfl⟩ := List.cons.inj split
          exact ih.free before port value front rfl

/-! ### The loops -/

/-- The bit that is tested is one of the byte read. -/
theorem setLow8_and (w : Word) (v : Byte) : X64.setLow8 w v &&& BitVec.ofInt 64 0x20 = 0 ↔ ¬ Free v := by
  have wide : BitVec.ofInt 64 0x20 = BitVec.twoPow 64 5 := by decide
  have narrow : (0x20 : Byte) = BitVec.twoPow 8 5 := by decide
  have bit : (X64.setLow8 w v).getLsbD 5 = v.getLsbD 5 := by
    have small : v.toNat < 2 ^ 8 := v.isLt
    rw [X64.setLow8, BitVec.getLsbD_ofNat, Nat.mul_comm, show (256 : Nat) = 2 ^ 8 from rfl, Nat.testBit_two_pow_mul_add _ small]
    simp [BitVec.getLsbD]
  rw [Free, wide, narrow, BitVec.and_twoPow, BitVec.and_twoPow, bit, not_not]
  cases v.getLsbD 5 <;> decide

theorem poll_effects (env : Env) (place : String → Word) (c : Cpu) :
    ∃ d, effects env place pollCalls c = some d ∧
      X64.Cond.e.holds d.flags = decide (¬ Free (env.input c.trace LINE_STATUS)) ∧
      d.trace = .input LINE_STATUS (env.input c.trace LINE_STATUS) :: c.trace ∧ d.mem = c.mem ∧
      ∀ r, r ≠ .rax → r ≠ .rdx → d.reg r = c.reg r := by
  obtain ⟨v, read⟩ : ∃ v, env.input c.trace LINE_STATUS = v := ⟨_, rfl⟩
  let w := X64.setLow8 (c.reg .rax) v &&& BitVec.ofInt 64 0x20
  obtain ⟨m, ran, rax, trace, mem, regs⟩ : ∃ m, effects env place [.movRegImm64 .rdx 0x3FD, .inAlDx, andRegImm .rax 0x20] c =
      some m ∧ m.reg .rax = w ∧ m.trace = .input LINE_STATUS v :: c.trace ∧ m.mem = c.mem ∧
      ∀ r, r ≠ .rax → r ≠ .rdx → m.reg r = c.reg r := by
    have port : BitVec.ofNat 64 (((c.set .rdx (BitVec.ofInt 64 0x3FD)).reg .rdx).toNat % 2 ^ 16) = LINE_STATUS := by simp; rfl
    refine ⟨_, by rw [effects_cons, effect_movRegImm64, Option.bind_some, effects_cons, effect_inAlDx, X64.Instr.exec,
      port, Option.bind_some, effects_cons, effect_andRegImm, Option.bind_some, effects_nil], ?_, ?_, ?_,
      fun r notRax notRdx => ?_⟩
    · simp [read, w]
    · simp [read]
    · rfl
    · simp [notRax, notRdx]
  obtain ⟨f, tested, zf⟩ := test_effects env place m .rax
  refine ⟨m.setFlags f, ?_, ?_, ?_, mem, regs⟩
  · rw [show pollCalls = [.movRegImm64 .rdx 0x3FD, .inAlDx, andRegImm .rax 0x20] ++ [testRegReg .rax .rax] from rfl,
      effects_append, ran, Option.bind_some, tested]
  · rw [X64.Cpu.setFlags_flags, zf, rax, read]
    exact decide_eq_decide.mpr (setLow8_and _ _)
  · rw [read]
    exact trace

section Loops

variable {L : Listing} {c : Cpu}

theorem poll_meets (eventually : EventuallyFree L.env) (wait : String) :
    L.Meets (repeated "eq" wait pollCalls) c fun d => ∃ (vs : List Byte) (v : Byte), Free v ∧
      d.trace = .input LINE_STATUS v :: vs.map (.input LINE_STATUS) ++ c.trace ∧ d.mem = c.mem ∧
      ∀ r, r ≠ .rax → r ≠ .rdx → d.reg r = c.reg r := by
  have found := eventually c.trace
  let n := Nat.find found
  -- With `m` reads to come, the others have found the line busy.
  let I (m : Nat) (k : Cpu) : Prop := ∃ i, i + m = n + 1 ∧ k.trace = polled L.env c.trace i ∧ k.mem = c.mem ∧
    ∀ r, r ≠ .rax → r ≠ .rdx → k.reg r = c.reg r
  have round (m : Nat) (k : Cpu) (here : I (m + 1) k) :
      L.Meets pollCalls k fun d => I m d ∧ X64.Cond.e.holds d.flags = decide (m ≠ 0) := by
    obtain ⟨i, sum, trace, mem, regs⟩ := here
    obtain ⟨d, ran, zf, trace', mem', regs'⟩ := poll_effects L.env L.address k
    rw [trace] at zf trace'
    refine .straight ran ⟨⟨i + 1, by omega, trace', mem'.trans mem, fun r notRax notRdx => ?_⟩, zf.trans ?_⟩
    · exact (regs' r notRax notRdx).trans (regs r notRax notRdx)
    · refine decide_eq_decide.mpr ⟨?_, fun more => Nat.find_min found (show i < n by omega)⟩
      rintro busy rfl
      obtain rfl : i = n := by omega
      exact busy (Nat.find_spec found)
  have start : I (n + 1) c := ⟨0, by omega, rfl, rfl, fun _ _ _ => rfl⟩
  refine (Listing.Meets.repeated (show jumpCondition "eq" = some .e by decide) round start).mono fun d left => ?_
  obtain ⟨i, sum, trace, mem, regs⟩ := left
  obtain rfl : i = n + 1 := by omega
  obtain ⟨vs, shape⟩ := polled_inputs L.env c.trace n
  exact ⟨vs, _, Nat.find_spec found, by rw [trace, polled, shape]; rfl, mem, regs⟩

/-- The events of a byte sent, the last one first. -/
def sentByte (vs : List Byte) (v b : Byte) : List Event :=
  .output LINE_DATA b :: .input LINE_STATUS v :: vs.map (.input LINE_STATUS)

/-- The byte in RAX waits on the stack until the line is free. -/
theorem wait_meets (eventually : EventuallyFree L.env) (wait : String) :
    L.Meets (saving [.rax] (repeated "eq" wait pollCalls)) c fun d => ∃ (vs : List Byte) (v : Byte), Free v ∧
      d.trace = .input LINE_STATUS v :: vs.map (.input LINE_STATUS) ++ c.trace ∧
      SameAbove (c.reg .rsp) 8 c.mem d.mem ∧ ∀ r, r ≠ .rdx → d.reg r = c.reg r := by
  refine .saving (by decide) (by decide) (by decide) fun m saved => ?_
  refine (poll_meets eventually wait).mono fun k left => ?_
  obtain ⟨vs, v, free, trace, mem, regs⟩ := left
  refine ⟨regs .rsp (by decide) (by decide), mem ▸ .refl _ _ _, fun d back => ⟨vs, v, free, ?_, ?_, fun r notRdx => ?_⟩⟩
  · rw [back.trace, trace, saved.trace]
  · rw [back.mem, mem]
    exact saved.sameAbove
  · by_cases isRax : r = .rax
    · exact back.saved r (by simp [isRax])
    · by_cases isSp : r = .rsp
      · rw [isSp, back.sp]
      · rw [back.others r (by simpa using isRax) isSp, regs r isRax notRdx, saved.regs r isSp]

theorem putc_meets (eventually : EventuallyFree L.env) (wait : String) :
    L.Meets (putcCalls wait) c fun d => ∃ (vs : List Byte) (v : Byte), Free v ∧
      d.trace = sentByte vs v (BitVec.ofNat 8 (c.reg .r15).toNat) ++ c.trace ∧
      SameAbove (c.reg .rsp) 24 c.mem d.mem ∧ ∀ r, d.reg r = c.reg r := by
  refine .saving (by decide) (by decide) (by decide) fun m saved => ?_
  obtain ⟨j, held⟩ : ∃ j, m.set .rax (m.reg SCRATCH) = j := ⟨_, rfl⟩
  have ran : effects L.env L.address [.movRegReg .rax SCRATCH] m = some j := by simp [← held]
  have waited : L.Meets ([.movRegReg .rax SCRATCH] ++ saving [.rax] (repeated "eq" wait pollCalls)) m fun k =>
      ∃ (vs : List Byte) (v : Byte), Free v ∧ k.trace = .input LINE_STATUS v :: vs.map (.input LINE_STATUS) ++ j.trace ∧
        SameAbove (j.reg .rsp) 8 j.mem k.mem ∧ ∀ r, r ≠ .rdx → k.reg r = j.reg r :=
    .append (P := fun k => k = j) (.straight ran rfl) fun k same => by rw [same]; exact wait_meets eventually wait
  refine waited.append fun k left => ?_
  obtain ⟨vs, v, free, trace, mem, regs⟩ := left
  have sp : k.reg .rsp = m.reg .rsp := by simp [regs, ← held]
  have mem : SameAbove (m.reg .rsp) 8 m.mem k.mem := by simpa [← held] using mem
  have port : BitVec.ofNat 64 (((k.set .rdx (BitVec.ofInt 64 0x3F8)).reg .rdx).toNat % 2 ^ 16) = LINE_DATA := by simp; rfl
  refine .straight (by rw [effects_cons, effect_movRegImm64, Option.bind_some, effects_cons, effect_outDxAl,
    X64.Instr.exec, port, Option.bind_some, effects_nil]) ⟨?_, ?_, fun d back => ⟨vs, v, free, ?_, ?_, fun r => ?_⟩⟩
  · simpa using sp
  · intro x inside
    have near : (x - m.reg .rsp).toNat < 16 := inside
    exact mem x (by omega)
  · have byte : k.reg .rax = c.reg .r15 := by simp [regs, ← held, SCRATCH, saved.regs]
    have before : j.trace = c.trace := by simp [← held, saved.trace]
    rw [back.trace]
    simp [sentByte, trace, byte, before]
  · rw [back.mem]
    have lowered := mem
    rw [saved.sp] at lowered
    exact (saved.sameAbove.mono (by simp)).trans ((lowered.lower (by decide)).mono (by simp))
  · by_cases isSp : r = .rsp
    · rw [isSp, back.sp]
    · by_cases kept : r ∈ [Reg.rax, .rdx]
      · exact back.saved r kept
      · obtain ⟨notRax, notRdx⟩ : r ≠ .rax ∧ r ≠ .rdx := by simpa using kept
        rw [back.others r kept isSp]
        simp [notRdx, regs r notRdx, ← held, notRax, saved.regs r isSp]

/-- The cursor has gone over `i` bytes from `p` on, and they are sent. -/
structure Printing (m : Cpu) (p : Word) (i : Nat) (k : Cpu) : Prop where
  cursor : k.reg .r12 = p + BitVec.ofNat 64 i
  events : ∃ es, k.trace = es.reverse ++ m.trace ∧ Sends (m.mem.bytes p i) es
  mem : SameAbove (m.reg .rsp) 24 m.mem k.mem
  regs : ∀ r, r ≠ .r12 → r ≠ .r15 → k.reg r = m.reg r

theorem Printing.next {p : Word} {i : Nat} {m k d : Cpu} (here : Printing m p i k) (cursor : d.reg .r12 = k.reg .r12 + 1)
    {vs : List Byte} {v : Byte} (free : Free v)
    (trace : d.trace = sentByte vs v (m.mem (p + BitVec.ofNat 64 i)) ++ k.trace)
    (mem : SameAbove (m.reg .rsp) 24 k.mem d.mem) (regs : ∀ r, r ≠ .r12 → r ≠ .r15 → d.reg r = k.reg r) :
    Printing m p (i + 1) d := by
  obtain ⟨es, before, sends⟩ := here.events
  refine ⟨?_, ⟨es ++ (sentByte vs v (m.mem (p + BitVec.ofNat 64 i))).reverse, ?_, ?_⟩, here.mem.trans mem,
    fun r notR12 notR15 => (regs r notR12 notR15).trans (here.regs r notR12 notR15)⟩
  · rw [cursor, here.cursor, BitVec.add_assoc, BitVec.ofNat_add]
    rfl
  · rw [trace, before]
    simp
  · have bytes : m.mem.bytes p (i + 1) = m.mem.bytes p i ++ [m.mem (p + BitVec.ofNat 64 i)] := by
      simp [X64.Memory.bytes, List.range_succ]
    have sent := Sends.byte sends vs.reverse free (m.mem (p + BitVec.ofNat 64 i))
    rw [bytes]
    simpa [sentByte] using sent

theorem print_meets (eventually : EventuallyFree L.env) {p : Word} {n : Nat} (string : Terminated c.mem p n)
    (clear : Separate (c.reg .rsp - 24) 24 p (n + 1)) (here : c.reg .r12 = p) (loop done wait : String) :
    L.Meets (guarded "eq" loop done [load8 SCRATCH .r12 0, testRegReg SCRATCH SCRATCH]
      (putcCalls wait ++ [addRegImm .r12 1])) c (Printing c p n) := by
  let I (m : Nat) (k : Cpu) : Prop := ∃ i, i + m = n ∧ Printing c p i k
  let T (m : Nat) (k : Cpu) : Prop := ∃ i, i + m = n ∧ Printing c p i k ∧ k.reg .r15 = c.mem.load (p + BitVec.ofNat 64 i) 1
  have tests (m : Nat) (k : Cpu) (at' : I m k) : L.Meets [load8 SCRATCH .r12 0, testRegReg SCRATCH SCRATCH] k
      fun d => T m d ∧ X64.Cond.e.holds d.flags = decide (m = 0) := by
    obtain ⟨i, sum, printing⟩ := at'
    obtain ⟨far, fits⟩ := clear
    have byte : k.mem (p + BitVec.ofNat 64 i) = c.mem (p + BitVec.ofNat 64 i) := printing.mem _ (by bv_omega)
    obtain ⟨f, ran, zf⟩ := @loadTest_effects L.env L.address .r12 k
    refine .straight ran ⟨⟨i, sum, ⟨?_, ?_, ?_, fun r notR12 notR15 => ?_⟩, ?_⟩, ?_⟩
    · simpa [SCRATCH] using printing.cursor
    · exact printing.events
    · exact printing.mem
    · simpa [SCRATCH, notR15] using printing.regs r notR12 notR15
    · rw [X64.Cpu.setFlags_reg, X64.Cpu.set_reg, if_pos (show Reg.r15 = SCRATCH from rfl), printing.cursor]
      exact X64.Memory.load_byte_inj.mpr byte
    · rw [X64.Cpu.setFlags_flags, zf, printing.cursor, byte]
      refine decide_eq_decide.mpr ((string.nul_iff (by omega)).trans ?_)
      omega
  have round (m : Nat) (k : Cpu) (at' : T (m + 1) k) : L.Meets (putcCalls wait ++ [addRegImm .r12 1]) k (I m) := by
    obtain ⟨i, sum, printing, r15⟩ := at'
    refine (putc_meets eventually wait).append fun d left => ?_
    obtain ⟨vs, v, free, trace, mem, regs⟩ := left
    have byte : BitVec.ofNat 8 (k.reg .r15).toNat = c.mem (p + BitVec.ofNat 64 i) := by
      rw [r15, X64.Memory.load_byte]
      bv_omega
    rw [byte] at trace
    rw [printing.regs .rsp (by decide) (by decide)] at mem
    refine .straight (by rw [effects_cons, effect_addRegImm, Option.bind_some, effects_nil]) ?_
    refine ⟨i + 1, by omega, printing.next ?_ free trace mem fun r notR12 notR15 => ?_⟩
    · simp [regs]
    · simp [notR12, regs]
  have start : I n c := ⟨0, by omega, by simpa using here, ⟨[], rfl, .done⟩, .refl _ _ _, fun _ _ _ => rfl⟩
  refine (Listing.Meets.guarded (show jumpCondition "eq" = some .e by decide) tests round start).mono fun d left => ?_
  obtain ⟨i, sum, printing, -⟩ := left
  obtain rfl : i = n := by omega
  exact printing

end Loops

/-! ### The statement -/

section Statement

variable {L : Listing} {o : Operand} {c : Cpu}

/-- The bytes are printed, and every register but R15 is as it was. -/
structure StringPrinted (bs : List Byte) (c d : Cpu) : Prop where
  events : ∃ es, d.trace = es.reverse ++ c.trace ∧ Printed bs es
  regs : ∀ r, r ≠ SCRATCH → d.reg r = c.reg r
  mem : SameAbove (c.reg .rsp) 32 c.mem d.mem

theorem printk_meets (eventually : EventuallyFree L.env) (outside : o.Outside []) {n : Nat}
    (string : Terminated c.mem (o.value L.address c) n)
    (clear : Separate (c.reg .rsp - 32) 32 (o.value L.address c) (n + 1)) (loop done wait : String) :
    L.Meets (printkCalls o loop done wait) c (StringPrinted (c.mem.bytes (o.value L.address c) n) c) := by
  refine .saving (by decide) (by decide) (by decide) fun m saved => ?_
  have value : o.value L.address m = o.value L.address c :=
    outside.value_user fun r user => saved.regs r ((user_iff r).mp user).1
  obtain ⟨p, here⟩ : ∃ p, o.value L.address c = p := ⟨_, rfl⟩
  rw [here] at string clear ⊢
  obtain ⟨j, held⟩ : ∃ j, m.set .r12 p = j := ⟨_, rfl⟩
  have ran : effects L.env L.address (o.mov .r12) m = some j := by rw [mov_effects, value, here, held]
  have sp : m.reg .rsp = c.reg .rsp - 8 := saved.sp
  have spj : j.reg .rsp = c.reg .rsp - 8 := by simp [← held, sp]
  -- The push of R12 and the three words of the loop are clear of the string.
  have word : Separate (c.reg .rsp - 8) 8 p (n + 1) := by
    obtain ⟨far, fits⟩ := clear
    constructor <;> bv_omega
  have apart : Separate (j.reg .rsp - 24) 24 p (n + 1) := by
    obtain ⟨far, fits⟩ := clear
    rw [spj]
    constructor <;> bv_omega
  have same : SameOn p (n + 1) c.mem j.mem := by
    rw [← held]
    exact saved.sameOn word
  have small := string.below
  refine .append (.straight ran rfl) fun k same' => ?_
  subst same'
  refine (print_meets eventually (string.sameOn same) apart (by simp [← held]) loop done wait).mono fun k printing => ?_
  obtain ⟨es, trace, sends⟩ := printing.events
  rw [(same.mono (Nat.le_succ n)).bytes small.le] at sends
  have mem : SameAbove (m.reg .rsp) 24 m.mem k.mem := by simpa [← held] using printing.mem
  have regs (r : Reg) (notR12 : r ≠ .r12) (notR15 : r ≠ .r15) : k.reg r = m.reg r :=
    (printing.regs r notR12 notR15).trans (by simp [← held, notR12])
  refine ⟨regs .rsp (by decide) (by decide), fun x inside => ?_, fun d back => ⟨⟨es, ?_, sends.printed⟩, fun r hidden => ?_, ?_⟩⟩
  · have near : (x - m.reg .rsp).toNat < 8 := inside
    exact mem x (by omega)
  · rw [back.trace, trace, ← held, X64.Cpu.set_trace, saved.trace]
  -- R12 comes back from the stack, and R15 is the one register that is not kept.
  · by_cases isR12 : r = .r12
    · exact back.saved r (by simp [isR12])
    · by_cases isSp : r = .rsp
      · rw [isSp, back.sp]
      · rw [back.others r (by simpa using isR12) isSp, regs r isR12 hidden, saved.regs r isSp]
  · rw [back.mem]
    rw [sp] at mem
    have lowered : SameAbove (c.reg .rsp) (24 + 8) m.mem k.mem := SameAbove.lower (k := 8) mem (by decide)
    exact (saved.sameAbove.mono (by decide)).trans lowered

end Statement

/-- A line that is always free. -/
def freeLine : Env := { Env.silent with input := fun _ _ => 0x20 }

theorem freeLine_free {env : Env} (known : env = freeLine) : EventuallyFree env := by
  intro trace
  refine ⟨0, ?_⟩
  rw [known]
  exact show (0x20 : Byte) &&& 0x20 ≠ 0 by decide

/-- R12 goes onto the stack before the address goes into it. -/
theorem r12_effects (env : Env) (place : String → Word) (o : Operand) (c : Cpu) :
    effects env place ([Reg.r12].map .pushReg ++ o.mov .r12) c =
      some ((c.push (c.reg .r12)).set .r12 (o.value place (c.push (c.reg .r12)))) := by
  rw [effects_append, List.map_cons, List.map_nil, effects_cons, effect_pushReg, Option.bind_some, effects_nil,
    Option.bind_some, mov_effects]

end Aclm.Codegen
