import Aclm.Codegen.Heap
import Aclm.Codegen.Ring

/-! The helpers for ports, the network card, the heap and the ring load registers of their own before they read their
operands: what each makes of an operand that names one of those registers. -/

set_option autoImplicit false

namespace Aclm.Codegen

open X64 (Word Reg Cpu Env Machine Memory)
open Encoder

/-- The operand has in `d` the value that it has in `c`. -/
def Operand.Same (place : String → Word) (o : Operand) (c d : Cpu) : Prop := o.value place d = o.value place c

section Effects

variable {env : Env} {place : String → Word}

/-- A plain operand is read alike wherever the registers a program can name are the same. -/
theorem Operand.Outside.value_user {o : Operand} (outside : o.Outside []) {c d : Cpu}
    (same : ∀ r, User r → d.reg r = c.reg r) : o.value place d = o.value place c :=
  outside.value_eq fun r user _ => same r user

theorem restored_effects (rs : List Reg) (c : Cpu) :
    ∃ d, effects env place (rs.map .popReg) c = some d ∧ d.mem = c.mem ∧ d.trace = c.trace := by
  induction rs generalizing c with
  | nil => exact ⟨c, rfl, rfl, rfl⟩
  | cons r rs ih =>
    obtain ⟨d, ran, mem, trace⟩ := ih (c.pop.2.set r c.pop.1)
    refine ⟨d, ?_, mem, trace⟩
    rw [List.map_cons, effects_cons, effect_popReg, Option.bind_some, ran]

/-! ### Ports -/

theorem portOut_appends {g : CodeGenerator} {busy : List Reg} {port value : Expr} {p v : Operand}
    (plain : Plain g busy port p) (plain' : Plain g busy value v) :
    Appends (.portOut port value) g (p.mov .rdx ++ v.mov .rax ++ [outDxAl]) := by
  intro g' emission
  simp only [emitOp, portOut, operand_bind_ok plain.operand, operand_bind_ok (plain'.withScript _).operand, asm_ok]
    at emission
  rw [emission]
  simp

/-- The low byte of the value has gone to the port. -/
def PortWritten (place : String → Word) (port value : Operand) (c d : Cpu) : Prop :=
  d.trace = .output (BitVec.ofNat 64 ((port.value place c).toNat % 2 ^ 16)) (BitVec.ofNat 8 (value.value place c).toNat) ::
    c.trace

/-- The value is read after RDX was given the port; only its low byte counts. -/
def PortIntact (place : String → Word) (port value : Operand) (c : Cpu) : Prop :=
  BitVec.ofNat 8 (value.value place (c.set .rdx (port.value place c))).toNat = BitVec.ofNat 8 (value.value place c).toNat

theorem portOut_effects (port value : Operand) (c : Cpu) :
    ∃ d, effects env place (port.mov .rdx ++ value.mov .rax ++ [outDxAl]) c = some d ∧
      (PortWritten place port value c d ↔ PortIntact place port value c) := by
  obtain ⟨m, brought⟩ : ∃ m, c.set .rdx (port.value place c) = m := ⟨_, rfl⟩
  have rdx : m.reg .rdx = port.value place c := by simp [← brought]
  have trace : m.trace = c.trace := by simp [← brought]
  refine ⟨_, by rw [effects_append, effects_append, mov_effects, Option.bind_some, mov_effects, Option.bind_some, brought,
    effects_cons, effect_outDxAl, X64.Instr.exec, Option.bind_some, effects_nil], ?_⟩
  simp only [PortWritten, PortIntact, brought, X64.Cpu.set_reg, reduceCtorEq, if_false, if_true, rdx, X64.Cpu.set_trace,
    trace, List.cons.injEq, X64.Event.output.injEq, true_and, and_true]

/-! ### The network card -/

/-- Where the address of the card's registers is kept. -/
def nicBar : String := data "__nic_bar"

def nicReadFront (offset : Operand) : List Call :=
  [Reg.rdx, .rsi].map .pushReg ++ [.leaRegLabel .rsi nicBar, load64 .rsi .rsi 0] ++ offset.mov .rdx ++ [addRegReg .rsi .rdx]

def nicWriteFront (offset value : Operand) : List Call :=
  [Reg.rax, .rdx, .rcx].map .pushReg ++ [.leaRegLabel .rax nicBar, load64 .rax .rax 0] ++ offset.mov .rdx ++
    [addRegReg .rax .rdx] ++ value.mov .rcx

theorem nicRead_appends {g : CodeGenerator} {busy : List Reg} {dest : String} {dst : Reg} (named : resolve dest = .ok dst)
    {offset : Expr} {o : Operand} (plain : Plain g busy offset o) : Appends (.kernelNicRegRead dest offset) g
      (nicReadFront o ++ load32 dst .rsi 0 :: [Reg.rsi, .rdx].map .popReg) := by
  intro g' emission
  simp only [emitOp, kernelNicRead, reg_bind_ok, named, Except.ok.injEq, exists_eq_left', reserve_bind_ok, asm_bind_ok,
    operand_bind_ok ((plain.reserved "__nic_bar" (zeroBytes 8)).withScript _).operand, asm_ok] at emission
  rw [emission]
  simp [nicReadFront, nicBar]

theorem nicWrite_appends {g : CodeGenerator} {busy : List Reg} {offset value : Expr} {o v : Operand}
    (plain : Plain g busy offset o) (plain' : Plain g busy value v) : Appends (.kernelNicRegWrite offset value) g
      (nicWriteFront o v ++ store32 .rax 0 .rcx :: [Reg.rcx, .rdx, .rax].map .popReg) := by
  intro g' emission
  simp only [emitOp, kernelNicWrite, reserve_bind_ok, asm_bind_ok, CodeGenerator.withScript_withScript,
    operand_bind_ok ((plain.reserved "__nic_bar" (zeroBytes 8)).withScript _).operand,
    operand_bind_ok ((plain'.reserved "__nic_bar" (zeroBytes 8)).withScript _).operand, asm_ok] at emission
  rw [emission]
  simp [nicWriteFront, nicBar]

variable (place) in
/-- The address of the card's registers. -/
def bar (c : Cpu) : Word := c.mem.load (place nicBar) 8

/-- The registers go onto the stack and `base` is given the address of the card's registers. -/
theorem nicBar_effects {rs : List Reg} {base : Reg} (notSp : .rsp ∉ rs) (fits : 8 * rs.length ≤ 2 ^ 64)
    {c : Cpu}
    (clear : X64.Memory.Separate (c.reg .rsp - BitVec.ofNat 64 (8 * rs.length)) (8 * rs.length) (place nicBar) 8) :
    ∃ m, effects env place (rs.map .pushReg ++ [.leaRegLabel base nicBar, load64 base base 0]) c = some m ∧
      ∀ r, r ≠ .rsp → m.reg r = (c.set base (bar place c)).reg r := by
  obtain ⟨k, pushed, saved⟩ := @save_effects env place rs notSp fits c
  have there : k.mem.load (place nicBar) 8 = bar place c := by
    simpa [bar] using (saved.sameOn clear).load (i := 0) (by decide) (by decide)
  refine ⟨_, by rw [effects_append, pushed, Option.bind_some, load64, effects_cons, effect_leaRegLabel, Option.bind_some,
    effects_cons, effect_movRegMem, Option.bind_some, effects_nil], fun r other => ?_⟩
  by_cases isBase : r = base
  · simp [isBase, there]
  · simp [isBase, saved.regs r other]

/-- The card is read at the address that the operand gives. -/
theorem nicRead_effects {offset : Operand} (outside : offset.Outside []) {c : Cpu}
    (clear : X64.Memory.Separate (c.reg .rsp - 16) 16 (place nicBar) 8) :
    ∃ m, effects env place (nicReadFront offset) c = some m ∧
      (m.reg .rsi = bar place c + offset.value place c ↔ offset.Same place c (c.set .rsi (bar place c))) := by
  obtain ⟨k, based, regs⟩ := @nicBar_effects env place [.rdx, .rsi] .rsi (by decide) (by decide) c clear
  have value : offset.value place k = offset.value place (c.set .rsi (bar place c)) :=
    outside.value_user fun r user => regs r ((user_iff r).mp user).1
  refine ⟨_, by rw [nicReadFront, effects_append, effects_append, based, Option.bind_some, mov_effects, Option.bind_some,
    effects_cons, effect_addRegReg, Option.bind_some, effects_nil], ?_⟩
  have base : k.reg .rsi = bar place c := by simp [regs .rsi (by decide)]
  simp [base, value, Operand.Same]

/-- The offset and the value are read after RAX was given the address of the registers, and then the sum of the two. -/
structure NicIntact (place : String → Word) (offset value : Operand) (c : Cpu) : Prop where
  address : offset.Same place c (c.set .rax (bar place c))
  low : (value.value place ((c.set .rax (bar place c + offset.value place c)).set .rdx (offset.value place c))).setWidth 32 =
    (value.value place c).setWidth 32

theorem nicWrite_effects {offset value : Operand} (outside : offset.Outside []) (outside' : value.Outside []) {c : Cpu}
    (clear : X64.Memory.Separate (c.reg .rsp - 24) 24 (place nicBar) 8) :
    ∃ m, effects env place (nicWriteFront offset value) c = some m ∧
      ((m.reg .rax = bar place c + offset.value place c ∧
        (m.reg .rcx).setWidth 32 = (value.value place c).setWidth 32) ↔ NicIntact place offset value c) := by
  obtain ⟨k, based, regs⟩ := @nicBar_effects env place [.rax, .rdx, .rcx] .rax (by decide) (by decide) c clear
  obtain ⟨u, own⟩ : ∃ u, offset.value place (c.set .rax (bar place c)) = u := ⟨_, rfl⟩
  have offsetValue : offset.value place k = u :=
    own ▸ outside.value_user fun r user => regs r ((user_iff r).mp user).1
  obtain ⟨j, summed, others, rax⟩ : ∃ j, effects env place ([addRegReg .rax .rdx]) (k.set .rdx u) = some j ∧
      (∀ r, r ≠ .rsp → j.reg r = ((c.set .rax (bar place c + u)).set .rdx u).reg r) ∧ j.reg .rax = bar place c + u := by
    have base : k.reg .rax = bar place c := by simp [regs .rax (by decide)]
    refine ⟨_, by rw [effects_cons, effect_addRegReg, Option.bind_some, effects_nil], fun r notSp => ?_, by simp [base]⟩
    by_cases isRax : r = .rax
    · simp [isRax, base]
    · simp [isRax, regs r notSp]
  have valueValue : value.value place j = value.value place ((c.set .rax (bar place c + u)).set .rdx u) :=
    outside'.value_user fun r user => others r ((user_iff r).mp user).1
  refine ⟨_, by rw [nicWriteFront, effects_append, effects_append, effects_append, based, Option.bind_some, mov_effects,
    offsetValue, Option.bind_some, summed, Option.bind_some, mov_effects], ?_⟩
  simp only [X64.Cpu.set_reg, reduceCtorEq, if_false, if_true, rax, valueValue]
  constructor
  · rintro ⟨address, low⟩
    have same : u = offset.value place c := by bv_omega
    subst same
    exact ⟨own, low⟩
  · rintro ⟨address, low⟩
    have same : u = offset.value place c := own.symm.trans address
    subst same
    exact ⟨rfl, low⟩

/-! ### The heap -/

variable (place) in
/-- The first free byte. -/
def heapFree (c : Cpu) : Word := c.mem.load (place heapPtr) 8

variable (place) in
/-- The sum of the pointer and the size, which is read after R12 and the destination were given new values. -/
def heapSum (dst : Reg) (size : Operand) (c : Cpu) : Word :=
  heapFree place c + size.value place ((c.set .r12 (place heapPtr)).set dst (heapFree place c))

/-- The sum is the right one; with R12 as the destination it is stored where the pointer points. -/
def HeapIntact (place : String → Word) (dst : Reg) (size : Operand) (c : Cpu) : Prop :=
  (if dst = .r12 then (c.mem.store (heapFree place c) 8 (heapSum place dst size c)).load (place heapPtr) 8
    else heapSum place dst size c) = heapFree place c + size.value place c

theorem heapAlloc_effects {dst : Reg} (user : User dst) {size : Operand} (outside : size.Outside []) {c : Cpu}
    (clear : X64.Memory.Separate (c.reg .rsp - 8) 8 (place heapPtr) 8) :
    ∃ d, effects env place (heapAllocCalls dst size) c = some d ∧
      (d.mem.load (place heapPtr) 8 = heapFree place c + size.value place c ↔ HeapIntact place dst size c) := by
  obtain ⟨notSp, -, notR11, notScratch⟩ := (user_iff dst).mp user
  obtain ⟨m, pushed, saved⟩ := @save_effects env place [.r12] (by decide) (by decide) c
  have pointer : m.mem.load (place heapPtr) 8 = heapFree place c := by
    simpa [heapFree] using (saved.sameOn clear).load (i := 0) (by decide) (by decide)
  obtain ⟨k, found⟩ : ∃ k, ((m.set .r12 (place heapPtr)).set SCRATCH (heapFree place c)).set dst (heapFree place c) = k :=
    ⟨_, rfl⟩
  have front : effects env place [.leaRegLabel .r12 heapPtr, load64 SCRATCH .r12 0, .movRegReg dst SCRATCH] m = some k := by
    simp [load64, SCRATCH, pointer, ← found]
  have regs (r : Reg) (named : User r) :
      k.reg r = ((c.set .r12 (place heapPtr)).set dst (heapFree place c)).reg r := by
    obtain ⟨rNotSp, -, -, rNotScratch⟩ := (user_iff r).mp named
    simp [← found, SCRATCH, rNotScratch, saved.regs r rNotSp]
  have scratch : k.reg .r15 = heapFree place c := by simp [← found, SCRATCH]
  have base : k.reg .r12 = if dst = .r12 then heapFree place c else place heapPtr := by
    by_cases isR12 : dst = .r12
    · simp [← found, isR12]
    · simp [← found, SCRATCH, isR12, Ne.symm isR12]
  have value := @Operand.Outside.value_user place _ outside _ _ regs
  have mem : k.mem = m.mem := by simp [← found]
  obtain ⟨j, stored, memJ⟩ : ∃ j, effects env place (size.mov .r11 ++ [addRegReg SCRATCH .r11, store64 .r12 0 SCRATCH]) k =
      some j ∧ j.mem = m.mem.store (k.reg .r12) 8 (heapSum place dst size c) := by
    refine ⟨_, by rw [effects_append, mov_effects, value, Option.bind_some, effects_cons, effect_addRegReg, Option.bind_some,
      store64, effects_cons, effect_movMemReg, Option.bind_some, effects_nil], ?_⟩
    simp [scratch, mem, heapSum, SCRATCH]
  obtain ⟨d, popped, memD, -⟩ := @restored_effects env place [.r12] j
  refine ⟨d, ?_, ?_⟩
  · rw [heapAllocCalls, saving, effects_append, effects_append, pushed, Option.bind_some, List.append_assoc, effects_append,
      front, Option.bind_some, stored, Option.bind_some]
    exact popped
  · rw [memD, memJ, base, HeapIntact]
    by_cases isR12 : dst = .r12
    · have same := (saved.sameOn clear).store (heapFree place c) 8 (heapSum place dst size c)
      have kept := same.load (i := 0) (k := 8) (by decide) (by decide)
      rw [if_pos isR12, if_pos isR12]
      simpa using Eq.congr_left kept
    · rw [if_neg isR12, if_neg isR12, X64.Memory.load_store_word]

end Effects

/-! ### The ring -/

section Ring

variable (L : Listing) (c : Cpu)

def ringHead : Word := c.mem.load (ringBase L) 4

/-- A slot is free: the head after the next entry is not the tail. -/
def RingRoom : Prop :=
  (ringHead L c + 1) &&& c.mem.load (ringBase L + 8) 4 ≠ c.mem.load (ringBase L + 4) 4

/-- The registers that are loaded before the operands are read: the ring, its head, the address of the slot in R10, and
`v` in RAX. -/
def ringSeen (slot v : Word) : Cpu := (((c.set .r8 (ringBase L)).set .r9 (ringHead L c)).set .r10 slot).set .rax v

/-- The operands do not name what is loaded before they are read, or it is what they had at entry. -/
def RingIntact (addr length : Operand) : Prop :=
  let slot := ringBase L + BitVec.ofNat 64 (16 + 16 * (ringHead L c).toNat)
  addr.Same L.address c (ringSeen L c slot slot) ∧ length.Same L.address c (ringSeen L c slot (addr.value L.address c))

end Ring

section RingPush

variable {L : Listing} {c : Cpu}

theorem pushedHeader_meets {m : Cpu} (words : ∀ i ∈ [0, 4, 8], m.mem.load (ringBase L + BitVec.ofNat 64 i) 4 =
      c.mem.load (ringBase L + BitVec.ofNat 64 i) 4) (regs : ∀ r, r ≠ .rsp → m.reg r = c.reg r) :
    L.Meets ([.leaRegLabel .r8 (data "__dmaring"), load32 .r9 .r8 0, load32 .r10 .r8 4, load32 .r11 .r8 8] ++
      nextHead ++ [cmpRegReg .rax .r10]) m fun k =>
        (∀ r, User r → r ∉ [Reg.rax, .r10] → k.reg r = ((c.set .r8 (ringBase L)).set .r9 (ringHead L c)).reg r) ∧
          k.mem = m.mem ∧ (X64.Cond.e.holds k.flags = true ↔ ¬RingRoom L c) := by
  have head := words 0 (by decide)
  have tail := words 4 (by decide)
  have mask := words 8 (by decide)
  simp only [ringBase, BitVec.add_zero] at head tail mask
  refine .straight (by simp [nextHead, load32]; rfl) ⟨fun r user other => ?_, ?_, ?_⟩
  · obtain ⟨notSp, -, notR11, -⟩ := (user_iff r).mp user
    simp only [List.mem_cons, List.not_mem_nil, or_false, not_or] at other
    by_cases isR9 : r = .r9
    · simp [isR9, head, ringHead, ringBase]
    · simp [other, notR11, isR9, ringBase, regs r notSp]
  · simp
  · simp [X64.Cond.holds, X64.sub_zf, head, tail, mask, RingRoom, ringHead, ringBase]

theorem slotWord_stores (o : Operand) (disp : Int) (k : Cpu) : L.Meets (slotWord o disp) k fun k' =>
    k'.reg .rax = o.value L.address k ∧ (∀ r, r ≠ .rax → k'.reg r = k.reg r) ∧
      k'.mem = k.mem.store (k.reg .r10 + BitVec.ofInt 64 disp) 8 (o.value L.address k) := by
  refine .append (P := (· = k.set .rax (o.value L.address k))) (.straight (mov_effects o .rax k) rfl) fun _ there => ?_
  subst there
  refine .straight (by simp [store64]; rfl) ⟨?_, fun r other => ?_, ?_⟩
  · simp
  · simp [other]
  · simp

/-- What the two operands give when they are read goes into the slot. -/
theorem slot_stores {a l : Operand} (outside : a.Outside []) (outside' : l.Outside []) {k : Cpu}
    (regs : ∀ r, User r → r ∉ [Reg.rax, .r10] → k.reg r = ((c.set .r8 (ringBase L)).set .r9 (ringHead L c)).reg r) {h : Nat}
    (head : ringHead L c = BitVec.ofNat 64 h) (small : h < 2 ^ 32) {slot : Word}
    (there : ringBase L + BitVec.ofNat 64 (16 + 16 * h) = slot) :
    L.Meets ((slotAddress .r9 ++ [.movRegReg .r10 .rax]) ++ (slotWord a 0 ++ (slotWord l 8 ++
        (nextHead ++ [store32 .r8 0 .rax, xorRegReg .rax .rax])))) k fun d =>
      slotAt d.mem (ringBase L) h = (a.value L.address (ringSeen L c slot slot),
        l.value L.address (ringSeen L c slot (a.value L.address (ringSeen L c slot slot)))) := by
  have r8 : k.reg .r8 = ringBase L := by simp [regs .r8 (by decide) (by decide)]
  have r9 : k.reg .r9 = BitVec.ofNat 64 h := by simp [regs .r9 (by decide) (by decide), head]
  -- RAX and R10 lead to the slot, R8 to the ring and R9 is the head: what the operands then name is lost.
  have pointed : L.Meets (slotAddress .r9 ++ [.movRegReg .r10 .rax]) k fun k' =>
      ∀ r, User r → k'.reg r = (ringSeen L c slot slot).reg r := by
    refine .append (slotAddress_meets .r9 k) fun k₁ pointer => ?_
    obtain ⟨rax, others, -⟩ := pointer
    rw [r8, r9, slot_address, there] at rax
    refine .straight (d := k₁.set .r10 slot) (by simp [rax]) fun r user => ?_
    by_cases isRax : r = .rax
    · simp [ringSeen, isRax, rax]
    · by_cases isR10 : r = .r10
      · simp [ringSeen, isR10]
      · simp [ringSeen, isRax, isR10, others r isRax, regs r user (by simp [isRax, isR10])]
  refine pointed.append fun k₁ seen => ?_
  refine .append (slotWord_stores a 0 k₁) fun k₂ first => ?_
  obtain ⟨rax₂, others₂, mem₂⟩ := first
  rw [outside.value_user seen] at rax₂ mem₂
  -- The second operand also sees the first value in RAX.
  have seen₂ (r : Reg) (user : User r) :
      k₂.reg r = (ringSeen L c slot (a.value L.address (ringSeen L c slot slot))).reg r := by
    by_cases isRax : r = .rax
    · simp [isRax, rax₂, ringSeen]
    · simp [others₂ r isRax, seen r user, ringSeen, isRax]
  refine .append (slotWord_stores l 8 k₂) fun k₃ second => ?_
  obtain ⟨-, others₃, mem₃⟩ := second
  rw [outside'.value_user seen₂, seen₂ .r10 (by decide), mem₂, seen .r10 (by decide)] at mem₃
  have base : k₃.reg .r8 = ringBase L := by
    rw [others₃ .r8 (by decide), seen₂ .r8 (by decide)]
    simp [ringSeen]
  obtain ⟨w, stored⟩ : ∃ w, L.Meets (nextHead ++ [store32 .r8 0 .rax, xorRegReg .rax .rax]) k₃ fun d =>
      d.mem = k₃.mem.store (ringBase L + BitVec.ofNat 64 0) 4 w :=
    ⟨_, .straight (by simp [nextHead, store32]; rfl) (by simp [base]; rfl)⟩
  refine stored.mono fun d mem => ?_
  have zero : slot + BitVec.ofInt 64 0 = ringBase L + BitVec.ofNat 64 (16 + 16 * h) := by simp [there]
  have eight : slot + BitVec.ofInt 64 8 = ringBase L + BitVec.ofNat 64 (16 + 16 * h + 8) := by
    rw [BitVec.ofNat_add _ 8, ← BitVec.add_assoc, there]
    rfl
  -- The store of the head misses the slots.
  have slots (i : Nat) (m : Memory) (inside : 16 ≤ i) (fits : i + 8 ≤ 2 ^ 64) :
      (m.store (ringBase L + BitVec.ofNat 64 0) 4 w).load (ringBase L + BitVec.ofNat 64 i) 8 =
        m.load (ringBase L + BitVec.ofNat 64 i) 8 :=
    load_store_offsets _ _ (by omega) (by decide) (by decide) (by omega) (by omega) w
  simp only [ringSeen, X64.Cpu.set_reg, reduceCtorEq, if_false, if_true, zero, eight] at mem₃
  rw [mem, mem₃, slotAt, slots _ _ (by omega) (by omega), slots _ _ (by omega) (by omega), X64.Memory.load_store_word,
    load_store_offsets _ _ (by omega) (by decide) (by decide) (by omega) (by omega), X64.Memory.load_store_word]
  rfl

/-- The slot at the head has the operands' values where they do not name what is loaded before they are read. -/
theorem ringPush_stores (clear : StackClear L c 32 "__dmaring" 16) (room : RingRoom L c) {a l : Operand}
    (outside : a.Outside []) (outside' : l.Outside []) (full ok : String) :
    L.Meets (ringPushCalls a l full ok) c fun d =>
      slotAt d.mem (ringBase L) (ringHead L c).toNat = (a.value L.address c, l.value L.address c) ↔ RingIntact L c a l := by
  have clear' : X64.Memory.Separate (c.reg .rsp - BitVec.ofNat 64 32) 32 (ringBase L) 16 := clear
  obtain ⟨m, pushed, saved⟩ := @save_effects L.env L.address RING_TEMPS (by decide) (by decide) c
  have words : ∀ i ∈ [0, 4, 8], m.mem.load (ringBase L + BitVec.ofNat 64 i) 4 =
      c.mem.load (ringBase L + BitVec.ofNat 64 i) 4 := by
    intro i member
    simp only [List.mem_cons, List.not_mem_nil, or_false] at member
    exact (saved.sameOn clear').load (by omega) (by decide)
  obtain ⟨h, head⟩ : ∃ h, (ringHead L c).toNat = h := ⟨_, rfl⟩
  have number : ringHead L c = BitVec.ofNat 64 h := by rw [← head, BitVec.ofNat_toNat, BitVec.setWidth_eq]
  have small : h < 2 ^ 32 := by
    have below := X64.leValue_lt (c.mem.bytes (ringBase L) 4)
    rw [X64.Memory.bytes_length] at below
    rw [← head, ringHead, X64.Memory.load, BitVec.toNat_ofNat]
    exact Nat.lt_of_le_of_lt (Nat.mod_le _ _) below
  obtain ⟨slot, there⟩ : ∃ slot, ringBase L + BitVec.ofNat 64 (16 + 16 * h) = slot := ⟨_, rfl⟩
  have body : L.Meets (RING_TEMPS.map .pushReg ++ (([.leaRegLabel .r8 (data "__dmaring"), load32 .r9 .r8 0, load32 .r10 .r8 4,
      load32 .r11 .r8 8] ++ nextHead ++ [cmpRegReg .rax .r10]) ++
      either "eq" full ok ((slotAddress .r9 ++ [.movRegReg .r10 .rax]) ++ (slotWord a 0 ++ (slotWord l 8 ++
        (nextHead ++ [store32 .r8 0 .rax, xorRegReg .rax .rax])))) [.movRegImm64 .rax 1])) c fun d =>
      slotAt d.mem (ringBase L) h = (a.value L.address (ringSeen L c slot slot),
        l.value L.address (ringSeen L c slot (a.value L.address (ringSeen L c slot slot)))) := by
    refine .append (P := (· = m)) (.straight pushed rfl) fun _ same => ?_
    subst same
    refine .append (pushedHeader_meets words saved.regs) fun k header => ?_
    obtain ⟨regs, -, isFull⟩ := header
    exact .either (by decide : jumpCondition "eq" = some .e) (fun _ => slot_stores outside outside' regs number small there)
      fun holds => absurd room (isFull.mp holds)
  refine body.append fun k stored => ?_
  obtain ⟨d, popped, mem, -⟩ := @restored_effects L.env L.address RING_TEMPS.reverse k
  refine .straight popped ?_
  rw [mem, head, stored, RingIntact, head, there, Prod.mk.injEq]
  constructor
  · rintro ⟨first, second⟩
    rw [first] at second
    exact ⟨first, second⟩
  · rintro ⟨first, second⟩
    rw [first]
    exact ⟨rfl, second⟩

end RingPush

/-! ### When the operands are read in time -/

/-- The run of the code at `i` from `c` comes to `call` in the state `m`, and goes on to the end. -/
def Passes (L : Listing) (M : Machine) (i : Nat) (calls : List Call) (c : Cpu) (call : Call) (m : Cpu) : Prop :=
  ∃ k d, calls[k]? = some call ∧
    M.Inside (L.offset i) (L.offset (i + calls.length)) ⟨L.offset i, c⟩ ⟨L.offset (i + k), m⟩ ∧
    M.Inside (L.offset i) (L.offset (i + calls.length)) ⟨L.offset (i + k), m⟩ ⟨L.offset (i + calls.length), d⟩

theorem passes_of_effects {L : Listing} {M : Machine} (loaded : L.Loaded M) {i : Nat} {front back : List Call} {call : Call}
    (here : L.At i (front ++ call :: back)) {c m d : Cpu} (ran : effects L.env L.address front c = some m)
    (rest : effects L.env L.address (call :: back) m = some d) : Passes L M i (front ++ call :: back) c call m := by
  obtain ⟨first, second⟩ := here.append _
  have whole : L.Inside i (i + (front ++ call :: back).length) (i + front.length, m)
      (i + (front ++ call :: back).length, d) := by
    rw [List.length_append, ← Nat.add_assoc]
    exact .straight second rest (by simp) (Nat.le_refl _)
  exact ⟨front.length, d, by simp, loaded.inside (.straight first ran (Nat.le_refl i) (by simp)), loaded.inside whole⟩

/-- Each helper works on its operands' values at entry where they do not name what it loads before it reads them. -/
theorem captured_iff {L : Listing} {M : Machine} (loaded : L.Loaded M) {g : CodeGenerator} {i : Nat} {calls : List Call}
    {c : Cpu} :
    (∀ (port value : Expr) (p v : Operand), Plain g [] port p → Plain g [] value v →
      Stands L g (.portOut port value) i calls → ∃ d, M.Completes (L.offset i) (L.offset (i + calls.length)) c d ∧
        (PortWritten L.address p v c d ↔ PortIntact L.address p v c)) ∧
    (∀ (dest : String) (dst : Reg) (offset : Expr) (o : Operand), resolve dest = .ok dst → Plain g [] offset o →
      Stands L g (.kernelNicRegRead dest offset) i calls → StackClear L c 16 "__nic_bar" 8 →
        ∃ m, Passes L M i calls c (load32 dst .rsi 0) m ∧ (m.reg .rsi = bar L.address c + o.value L.address c ↔
          o.Same L.address c (c.set .rsi (bar L.address c)))) ∧
    (∀ (offset value : Expr) (o v : Operand), Plain g [] offset o → Plain g [] value v →
      Stands L g (.kernelNicRegWrite offset value) i calls → StackClear L c 24 "__nic_bar" 8 →
        ∃ m, Passes L M i calls c (store32 .rax 0 .rcx) m ∧
          ((m.reg .rax = bar L.address c + o.value L.address c ∧
            (m.reg .rcx).setWidth 32 = (v.value L.address c).setWidth 32) ↔ NicIntact L.address o v c)) ∧
    (∀ (dest : String) (dst : Reg) (size : Expr) (o : Operand), resolve dest = .ok dst → Plain g [] size o →
      Stands L g (.kernelHeapAlloc dest size) i calls → StackClear L c 8 "__kheap_ptr" 8 →
        ∃ d, M.Completes (L.offset i) (L.offset (i + calls.length)) c d ∧
          (d.mem.load (L.address heapPtr) 8 = heapFree L.address c + o.value L.address c ↔
            HeapIntact L.address dst o c)) ∧
    (∀ (addr length : Expr) (a l : Operand), Plain g [] addr a → Plain g [] length l →
      Stands L g (.kernelDmaRingPush addr length) i calls → StackClear L c 32 "__dmaring" 16 → RingRoom L c →
        ∃ d, M.Completes (L.offset i) (L.offset (i + calls.length)) c d ∧
          (slotAt d.mem (ringBase L) (ringHead L c).toNat = (a.value L.address c, l.value L.address c) ↔
            RingIntact L c a l)) := by
  refine ⟨fun port value p v plain plain' stands => ?_, fun dest dst offset o named plain stands clear => ?_,
    fun offset value o v plain plain' stands clear => ?_, fun dest dst size o named plain stands clear => ?_,
    fun addr length a l plain plain' stands clear room => ?_⟩
  · obtain ⟨d, ran, right⟩ := @portOut_effects L.env L.address p v c
    exact stands.executes loaded (portOut_appends plain plain') (.straight ran right)
  · obtain rfl := stands.calls_eq (nicRead_appends named plain)
    obtain ⟨m, ran, right⟩ := @nicRead_effects L.env L.address _ plain.outside c clear
    -- Behind the access there are only the pops.
    obtain ⟨d, popped, -⟩ := @restored_effects L.env L.address [.rsi, .rdx]
      (m.set dst (m.mem.load (m.reg .rsi + BitVec.ofInt 64 0) 4))
    exact ⟨m, passes_of_effects loaded stands.here ran
      (by rw [load32, effects_cons, effect_mov32RegMem, Option.bind_some, popped]), right⟩
  · obtain rfl := stands.calls_eq (nicWrite_appends plain plain')
    obtain ⟨m, ran, right⟩ := @nicWrite_effects L.env L.address _ _ plain.outside plain'.outside c clear
    obtain ⟨d, popped, -⟩ := @restored_effects L.env L.address [.rcx, .rdx, .rax]
      (m.setMem (m.mem.store (m.reg .rax + BitVec.ofInt 64 0) 4 (m.reg .rcx)))
    exact ⟨m, passes_of_effects loaded stands.here ran
      (by rw [store32, effects_cons, effect_mov32MemReg, Option.bind_some, popped]), right⟩
  · obtain ⟨d, ran, right⟩ := @heapAlloc_effects L.env L.address _ (user_of_resolve named) _ plain.outside c clear
    exact stands.executes loaded (heapAlloc_appends named plain.operand) (.straight ran right)
  · obtain ⟨full, ok, appends⟩ := ringPush_appends plain plain'
    exact stands.executes loaded appends (ringPush_stores clear room plain.outside plain'.outside full ok)

/-- The helpers with `reg2` and `reg9`, which none of them loads, and the stack at 2 ^ 20, the data at 2 ^ 12. -/
theorem captured_iff_apart : ∃ c : Cpu,
    (∃ (L : Listing) (M : Machine) (n : Nat) (d : Cpu), L.Loaded M ∧ M.Completes (L.offset 0) (L.offset n) c d ∧
      PortWritten L.address (.reg .rbx) (.reg .r10) c d) ∧
    (∃ (L : Listing) (M : Machine) (calls : List Call) (m : Cpu), L.Loaded M ∧
      Passes L M 0 calls c (load32 .rbx .rsi 0) m ∧ m.reg .rsi = bar L.address c + c.reg .r10) ∧
    (∃ (L : Listing) (M : Machine) (calls : List Call) (m : Cpu), L.Loaded M ∧
      Passes L M 0 calls c (store32 .rax 0 .rcx) m ∧ m.reg .rax = bar L.address c + c.reg .rbx) ∧
    (∃ (L : Listing) (M : Machine) (n : Nat) (d : Cpu), L.Loaded M ∧ M.Completes (L.offset 0) (L.offset n) c d ∧
      d.mem.load (L.address heapPtr) 8 = heapFree L.address c + c.reg .r10) ∧
    ∃ (L : Listing) (M : Machine) (n : Nat) (d : Cpu), L.Loaded M ∧ M.Completes (L.offset 0) (L.offset n) c d ∧
      slotAt d.mem (ringBase L) 0 = (c.reg .rbx, c.reg .rbx) := by
  let c : Cpu := (Cpu.filled 0x100000).setMem ((Cpu.filled 0).mem.store 0x1008 4 3)
  let g := CodeGenerator.new false
  have two : Plain g [] (.reg "reg2") (.reg .rbx) := .reg (by decide) (by simp)
  have nine : Plain g [] (.reg "reg9") (.reg .r10) := .reg (by decide) (by simp)
  have apart (n : Nat) (few : n ≤ 32) (k : Nat) (few' : k ≤ 32) :
      X64.Memory.Separate ((0x100000 : Word) - BitVec.ofNat 64 n) n 0x1000 k := by
    constructor <;> bv_omega
  refine ⟨c, ?_, ?_, ?_, ?_, ?_⟩
  · obtain ⟨L, M, loaded, -, stands⟩ := exists_stands g (.portOut (.reg "reg2") (.reg "reg9")) .silent
      ((Operand.reg .rbx).mov .rdx ++ (Operand.reg .r10).mov .rax ++ [outDxAl]) ⟨_, rfl, by decide⟩ (by decide)
    obtain ⟨d, run, right⟩ := (captured_iff loaded (c := c)).1 _ _ _ _ two nine stands
    exact ⟨L, M, _, d, loaded, run, right.mpr rfl⟩
  · obtain ⟨L, M, loaded, -, stands, placed⟩ := exists_stands_data g (.kernelNicRegRead "reg2" (.reg "reg9")) .silent
      [(nicBar, 0x1000)] (nicReadFront (.reg .r10) ++ load32 .rbx .rsi 0 :: [Reg.rsi, .rdx].map .popReg)
      ⟨_, rfl, by decide⟩ (by decide)
    have base : L.address nicBar = 0x1000 := placed _ (by decide)
    have clear : StackClear L c 16 "__nic_bar" 8 := by
      unfold StackClear
      rw [show data "__nic_bar" = nicBar from rfl, base]
      exact apart 16 (by decide) 8 (by decide)
    obtain ⟨m, passes, right⟩ := (captured_iff loaded (c := c)).2.1 _ .rbx _ _ (by decide) nine stands clear
    exact ⟨L, M, _, m, loaded, passes, right.mpr rfl⟩
  · obtain ⟨L, M, loaded, -, stands, placed⟩ := exists_stands_data g (.kernelNicRegWrite (.reg "reg2") (.reg "reg9")) .silent
      [(nicBar, 0x1000)] (nicWriteFront (.reg .rbx) (.reg .r10) ++ store32 .rax 0 .rcx :: [Reg.rcx, .rdx, .rax].map .popReg)
      ⟨_, rfl, by decide⟩ (by decide)
    have base : L.address nicBar = 0x1000 := placed _ (by decide)
    have clear : StackClear L c 24 "__nic_bar" 8 := by
      unfold StackClear
      rw [show data "__nic_bar" = nicBar from rfl, base]
      exact apart 24 (by decide) 8 (by decide)
    obtain ⟨m, passes, right⟩ := (captured_iff loaded (c := c)).2.2.1 _ _ _ _ two nine stands clear
    exact ⟨L, M, _, m, loaded, passes, (right.mpr ⟨rfl, rfl⟩).1⟩
  · obtain ⟨L, M, loaded, -, stands, placed⟩ := exists_stands_data g (.kernelHeapAlloc "reg2" (.reg "reg9")) .silent
      [(heapPtr, 0x1000)] (heapAllocCalls .rbx (.reg .r10)) ⟨_, rfl, by decide⟩ (by decide)
    have base : L.address heapPtr = 0x1000 := placed _ (by decide)
    have clear : StackClear L c 8 "__kheap_ptr" 8 := by
      unfold StackClear
      rw [show data "__kheap_ptr" = heapPtr from rfl, base]
      exact apart 8 (by decide) 8 (by decide)
    obtain ⟨d, run, right⟩ := (captured_iff loaded (c := c)).2.2.2.1 _ .rbx _ _ (by decide) nine stands clear
    exact ⟨L, M, _, d, loaded, run, right.mpr rfl⟩
  · obtain ⟨L, M, loaded, -, stands, placed⟩ := exists_stands_data g (.kernelDmaRingPush (.reg "reg2") (.reg "reg2")) .silent
      [(data "__dmaring", 0x1000)] (ringPushCalls (.reg .rbx) (.reg .rbx) (freshLabel "dmf" 1) (freshLabel "dmo" 2))
      ⟨_, rfl, by decide⟩ (by decide +kernel)
    have base : ringBase L = 0x1000 := placed _ (by decide)
    have clear : StackClear L c 32 "__dmaring" 16 := by
      unfold StackClear
      rw [show L.address (data "__dmaring") = 0x1000 from base]
      exact apart 32 (by decide) 16 (by decide)
    have zero : ringHead L c = 0 := by
      rw [ringHead, base]
      decide
    have room : RingRoom L c := by
      rw [RingRoom, zero, base]
      decide
    obtain ⟨d, run, right⟩ := (captured_iff loaded (c := c)).2.2.2.2 _ _ _ _ two two stands clear room
    have stored := right.mpr ⟨rfl, rfl⟩
    rw [zero] at stored
    exact ⟨L, M, _, d, loaded, run, stored⟩

/-- `port:out reg1, reg4`: RDX is given the port before it is read as the value. -/
theorem captured_wrong : ¬∀ (L : Listing) (M : Machine) (g : CodeGenerator) (port value : Expr) (p v : Operand) (i : Nat)
    (calls : List Call) (c d : Cpu), L.Loaded M → Plain g [] port p → Plain g [] value v →
      Stands L g (.portOut port value) i calls → M.Completes (L.offset i) (L.offset (i + calls.length)) c d →
      PortWritten L.address p v c d := by
  intro always
  obtain ⟨L, M, loaded, -, stands⟩ := exists_stands (.new false) (.portOut (.reg "reg1") (.reg "reg4")) .silent
    ((Operand.reg .rax).mov .rdx ++ (Operand.reg .rdx).mov .rax ++ [outDxAl]) ⟨_, rfl, by decide⟩ (by decide)
  let c := (Cpu.filled 0).set .rdx 1
  obtain ⟨d, ran, right⟩ := @portOut_effects L.env L.address (.reg .rax) (.reg .rdx) c
  have run := loaded.inside (.straight stands.here ran (Nat.le_refl _) (Nat.le_refl _))
  have written := always L M _ _ _ (.reg .rax) (.reg .rdx) 0 _ c d loaded (.reg (by decide) (by simp))
    (.reg (by decide) (by simp)) stands run
  have intact : BitVec.ofNat 8 (0 : Word).toNat = BitVec.ofNat 8 (1 : Word).toNat := right.mp written
  exact absurd intact (by decide)

end Aclm.Codegen
