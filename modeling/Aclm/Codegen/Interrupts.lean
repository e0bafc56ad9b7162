import Aclm.Codegen.Run
import Aclm.X64.Gate

/-! The interrupt table: filling it with the default handler, and installing the handlers of single vectors. -/

set_option autoImplicit false

namespace Aclm.Codegen

open X64 (Word Byte Reg Cpu Machine Memory leBytes gateBytes gateBytes_length gateAt interruptGate)
open X64.Memory (Separate SameOn OnlyIn write_append)
open Encoder

/-! ### One gate -/

section Gate

variable {env : X64.Env} {place : String → Word}

/-- The six stores of a gate write its bytes one behind the other. -/
theorem gate_stores (m : Memory) (a s : Word) :
    ((((((m.store a 2 s).store (a + BitVec.ofNat 64 2) 2 8#64).store (a + BitVec.ofNat 64 4) 2 0x8E00#64).store
      (a + BitVec.ofNat 64 6) 2 (s >>> 16)).store (a + BitVec.ofNat 64 8) 4 (s >>> 32)).store
      (a + BitVec.ofNat 64 12) 4 0#64) = m.write a (gateBytes s) := by
  have behind {m : Memory} {bs : List Byte} {k : Nat} (n : Nat) (v : Word) (size : bs.length = k) (fits : k + n ≤ 2 ^ 64) :
      (m.write a bs).store (a + BitVec.ofNat 64 k) n v = m.write a (bs ++ leBytes n v.toNat) := by
    subst size
    exact write_append (by simpa using fits)
  rw [show m.store a 2 s = m.write a (leBytes 2 s.toNat) from rfl, behind 2 _ (by simp) (by decide),
    behind 2 _ (by simp) (by decide), behind 2 _ (by simp) (by decide), behind 4 _ (by simp) (by decide),
    behind 4 _ (by simp) (by decide)]
  simp only [List.append_assoc]
  rfl

/-- Nothing has changed but RAX, the flags and the memory. -/
structure OnlyRax (mem : Memory) (c d : Cpu) : Prop where
  regs : ∀ r, r ≠ .rax → d.reg r = c.reg r
  mem : d.mem = mem
  trace : d.trace = c.trace

variable {L : Listing}

theorem gateStores_meets (c : Cpu) :
    L.Meets gateStores c (OnlyRax (c.mem.write (c.reg .rdi) (gateBytes (c.reg .rsi))) c) := by
  obtain ⟨a, rdi⟩ : ∃ a, c.reg .rdi = a := ⟨_, rfl⟩
  obtain ⟨s, rsi⟩ : ∃ s, c.reg .rsi = s := ⟨_, rfl⟩
  rw [rdi, rsi, ← gate_stores]
  -- The address is shifted twice, each time from RSI again.
  have split : gateStores =
      [store16 .rdi 0 .rsi, .movRegImm64 .rax 0x08, store16 .rdi 2 .rax, .movRegImm64 .rax 0x8E00, store16 .rdi 4 .rax,
        .movRegReg .rax .rsi] ++ ([shrRegImm8 .rax 16, store16 .rdi 6 .rax, .movRegReg .rax .rsi] ++
      [shrRegImm8 .rax 32, store32 .rdi 8 .rax, xorRegReg .rax .rax, store32 .rdi 12 .rax]) := rfl
  rw [split]
  refine .append (P := fun k => k.reg .rax = s ∧ OnlyRax (((c.mem.store a 2 s).store (a + BitVec.ofNat 64 2) 2 8#64).store
    (a + BitVec.ofNat 64 4) 2 0x8E00#64) c k) (.straight (by simp [store16]; rfl) ⟨?_, ?_, ?_, ?_⟩) fun k first => ?_
  · simp [rsi]
  · intro r other
    simp [other]
  · simp [rdi, rsi]
  · rfl
  obtain ⟨rax, kept, mem, trace⟩ := first
  refine .append (P := fun l => l.reg .rax = s ∧ OnlyRax (k.mem.store (a + BitVec.ofNat 64 6) 2 (s >>> 16)) c l) ?_
    fun l second => ?_
  · obtain ⟨f, shifted⟩ := @effect_shrRegImm8 L.env L.address k .rax 16 (by decide)
    refine .straight (by simp [store16, shifted]; rfl) ⟨?_, fun r other => ?_, ?_, ?_⟩
    · simp [kept, rsi]
    · simpa [other] using kept r other
    · simp [kept, rdi, rax]
    · exact trace
  obtain ⟨rax', kept', mem', trace'⟩ := second
  obtain ⟨f, shifted⟩ := @effect_shrRegImm8 L.env L.address l .rax 32 (by decide)
  refine .straight (by simp [store32, shifted]; rfl) ⟨fun r other => ?_, ?_, ?_⟩
  · simpa [other] using kept' r other
  · simp [kept', rdi, rax', mem', mem]
  · exact trace'

end Gate

/-! ### The statements -/

variable {L : Listing} {M : Machine}

def idt (L : Listing) : Word := L.address (data "__idt")
def idtr (L : Listing) : Word := L.address (data "__idtr")

/-- The stack below, the table and the descriptor of the table do not overlap. -/
structure TablesApart (L : Listing) (c : Cpu) : Prop where
  table : StackClear L c 40 "__idt" 4096
  descriptor : StackClear L c 40 "__idtr" 10
  both : Separate (idt L) 4096 (idtr L) 10

/-- Every register is as before, and so is the memory outside the tables and the 40 bytes below the stack pointer. -/
structure TablesOnly (L : Listing) (c d : Cpu) : Prop where
  regs : ∀ r, d.reg r = c.reg r
  mem : ∀ x : Word, 4096 ≤ (x - idt L).toNat → 10 ≤ (x - idtr L).toNat → 40 ≤ (x - (c.reg .rsp - 40)).toNat →
    d.mem x = c.mem x

theorem TablesOnly.trans {c d e : Cpu} (first : TablesOnly L c d) (second : TablesOnly L d e) : TablesOnly L c e := by
  refine ⟨fun r => (second.regs r).trans (first.regs r), fun x table descriptor below => ?_⟩
  rw [second.mem x table descriptor (first.regs .rsp ▸ below), first.mem x table descriptor below]

theorem TablesApart.of_sp {c d : Cpu} (apart : TablesApart L c) (same : d.reg .rsp = c.reg .rsp) : TablesApart L d := by
  obtain ⟨table, descriptor, both⟩ := apart
  simp only [StackClear, ← same] at table descriptor
  exact ⟨table, descriptor, both⟩

/-- The code that installs a handler. -/
def patchCalls (stub : String) (vector : Nat) : List Call :=
  saving [.rax, .rdi, .rsi] ([.leaRegLabel .rsi stub, .leaRegLabel .rdi (data "__idt"), addRegImm .rdi ((vector : Int) * 16)] ++
    gateStores)

/-- The gate of one vector has changed, and nothing else in the tables. -/
structure Patched (L : Listing) (stub : String) (vector : Nat) (c d : Cpu) : Prop where
  only : TablesOnly L c d
  gate : gateAt d.mem (idt L) vector = interruptGate (L.address stub)
  others : ∀ v < 256, v ≠ vector → gateAt d.mem (idt L) v = gateAt c.mem (idt L) v
  descriptor : SameOn (idtr L) 10 c.mem d.mem
  trace : d.trace = c.trace

theorem patch_meets {c : Cpu} (apart : TablesApart L c) (stub : String) {vector : Nat} (small : vector < 256) :
    L.Meets (patchCalls stub vector) c (Patched L stub vector c) := by
  have entry : BitVec.ofInt 64 ((vector : Int) * 16) = BitVec.ofNat 64 (16 * vector) := by
    rw [← BitVec.ofInt_natCast]
    congr 1
    omega
  have clear : StackClear L c 24 "__idt" 4096 := apart.table.mono (by decide) (by decide)
  refine .saving (by decide) (by decide) (by decide) fun m saved => ?_
  refine .append (P := fun k => k.reg .rdi = idt L + BitVec.ofNat 64 (16 * vector) ∧ k.reg .rsi = L.address stub ∧
    (∀ r, r ∉ [Reg.rdi, .rsi] → k.reg r = m.reg r) ∧ k.mem = m.mem ∧ k.trace = m.trace)
    (.straight (by simp; rfl) ⟨?_, ?_, ?_, ?_, ?_⟩) fun k ready => ?_
  · simp [entry, idt]
  · simp
  · intro r other
    simp only [List.mem_cons, List.not_mem_nil, or_false, not_or] at other
    simp [other]
  · rfl
  · rfl
  obtain ⟨rdi, rsi, kept, mem, trace⟩ := ready
  refine .mono (gateStores_meets k) fun l stored => ?_
  rw [rdi, rsi, mem] at stored
  -- Of the table only the sixteen bytes of this gate are written.
  have one : OnlyIn (idt L + BitVec.ofNat 64 (16 * vector)) 16 m.mem l.mem := by
    rw [stored.mem, ← gateBytes_length (L.address stub)]
    exact X64.Memory.write_onlyIn _ _ _
  have whole : OnlyIn (idt L) 4096 m.mem l.mem := one.widen (by omega) (by decide)
  have sp : l.reg .rsp = m.reg .rsp := by rw [stored.regs .rsp (by decide), kept .rsp (by decide)]
  refine ⟨sp, saved.keeps clear (by decide) whole, fun d back => ?_⟩
  have regs (r : Reg) : d.reg r = c.reg r := by
    -- RAX, RDI and RSI come back from the stack, and no other register is written.
    by_cases inside : r ∈ [Reg.rax, .rdi, .rsi]
    · exact back.saved r inside
    by_cases isSp : r = .rsp
    · rw [isSp, back.sp]
    · have outside := inside
      simp only [List.mem_cons, List.not_mem_nil, or_false, not_or] at outside
      rw [back.others r inside isSp, stored.regs r outside.1, kept r (by simp [outside]), saved.regs r isSp]
  have table : SameOn (idt L) 4096 c.mem m.mem := saved.sameOn clear
  have descriptor : SameOn (idtr L) 10 c.mem m.mem := saved.sameOn (apart.descriptor.mono (by decide) (by decide))
  refine ⟨⟨regs, fun x outside _ below => ?_⟩, ?_, fun v inside other => ?_, ?_, ?_⟩
  · rw [back.mem, whole x outside]
    refine saved.mem x ?_
    rw [saved.sp]
    change 24 ≤ (x - (c.reg .rsp - BitVec.ofNat 64 24)).toNat
    bv_omega
  · rw [back.mem, stored.mem]
    exact X64.gateAt_write _ _ _ _
  · rw [back.mem, X64.gateAt_other one other ⟨small, inside⟩]
    exact X64.gateAt_congr table inside
  · rw [back.mem]
    exact descriptor.trans (whole.sameOn apart.both)
  · rw [back.trace, stored.trace, trace, saved.trace]

/-! ### Filling the table -/

/-- One round of the loop, up to its jump. -/
def fillRound : List Call :=
  [.movRegReg .rax .rsi, store64 .rdi 0 .rax] ++ gateStores ++ [addRegImm .rdi 16, subRegImm .rcx 1, testRegReg .rcx .rcx]

/-- The code that fills the table and loads its descriptor. -/
def installCalls (loop : String) : List Call :=
  saving [.rax, .rcx, .rdx, .rdi, .rsi] ([.leaRegLabel .rsi "__isr_default", .leaRegLabel .rdi (data "__idt"),
    .movRegImm64 .rcx 256] ++ repeated "neq" loop fillRound ++ [.leaRegLabel .rax (data "__idt"),
    .leaRegLabel .rdi (data "__idtr"), .movRegImm64 .rcx (256 * 16 - 1), store16 .rdi 0 .rcx, store64 .rdi 2 .rax,
    lidtMem .rdi 0])

/-- All but the last `n` gates have been written. -/
structure Filled (L : Listing) (m : Cpu) (n : Nat) (k : Cpu) : Prop where
  le : n ≤ 256
  rcx : k.reg .rcx = BitVec.ofNat 64 n
  rdi : k.reg .rdi = idt L + BitVec.ofNat 64 (16 * (256 - n))
  rsi : k.reg .rsi = L.address "__isr_default"
  regs : ∀ r, r ∉ [Reg.rax, .rcx, .rdi, .rsi] → k.reg r = m.reg r
  mem : OnlyIn (idt L) 4096 m.mem k.mem
  gates : ∀ v < 256 - n, gateAt k.mem (idt L) v = interruptGate (L.address "__isr_default")
  trace : k.trace = m.trace

theorem fillRound_meets {m k : Cpu} {n : Nat} (filled : Filled L m (n + 1) k) :
    L.Meets fillRound k fun l => Filled L m n l ∧ X64.Cond.ne.holds l.flags = decide (n ≠ 0) := by
  obtain ⟨le, rcx, rdi, rsi, regs, mem, gates, trace⟩ := filled
  obtain ⟨v, position⟩ : ∃ v, 256 - (n + 1) = v := ⟨_, rfl⟩
  rw [position] at rdi gates
  -- The first store is covered by the gate, so the round writes the bytes of a gate.
  have written : L.Meets ([.movRegReg .rax .rsi, store64 .rdi 0 .rax] ++ gateStores) k
      (OnlyRax (k.mem.write (idt L + BitVec.ofNat 64 (16 * v)) (gateBytes (L.address "__isr_default"))) k) := by
    refine .append (P := OnlyRax (k.mem.store (idt L + BitVec.ofNat 64 (16 * v)) 8 (L.address "__isr_default")) k)
      (.straight (by simp [store64]; rfl) ⟨?_, ?_, ?_⟩) fun l scratch => ?_
    · intro r other
      simp [other]
    · simp [rdi, rsi]
    · rfl
    refine .mono (gateStores_meets l) fun d stored => ?_
    obtain ⟨kept, covered, same⟩ := stored
    rw [scratch.regs .rdi (by decide), scratch.regs .rsi (by decide), rdi, rsi, scratch.mem,
      X64.Memory.write_cover 8 _ (by rw [gateBytes_length]; decide)] at covered
    exact ⟨fun r other => (kept r other).trans (scratch.regs r other), covered, same.trans scratch.trace⟩
  refine .append written fun l stored => ?_
  have one : OnlyIn (idt L + BitVec.ofNat 64 (16 * v)) 16 k.mem l.mem := by
    rw [stored.mem, ← gateBytes_length (L.address "__isr_default")]
    exact X64.Memory.write_onlyIn _ _ _
  have count : BitVec.ofNat 64 (n + 1) - 1#64 = BitVec.ofNat 64 n := by bv_omega
  refine .straight (by simp; rfl) ⟨⟨by omega, ?_, ?_, ?_, ?_, ?_, ?_, ?_⟩, ?_⟩
  · simp [stored.regs, rcx, count]
  · have next : idt L + BitVec.ofNat 64 (16 * v) + 16#64 = idt L + BitVec.ofNat 64 (16 * (256 - n)) := by bv_omega
    simpa [stored.regs, rdi] using next
  · simp [stored.regs, rsi]
  · intro r other
    have outside := other
    simp only [List.mem_cons, List.not_mem_nil, or_false, not_or] at outside
    simpa [outside, stored.regs] using regs r other
  · exact mem.trans (one.widen (by omega) (by decide))
  · intro w inside
    change gateAt l.mem (idt L) w = _
    -- The gate of this round, or one of the rounds before.
    by_cases last : w = v
    · rw [last, stored.mem]
      exact X64.gateAt_write _ _ _ _
    · rw [X64.gateAt_other one last (by omega)]
      exact gates w (by omega)
  · exact stored.trace.trans trace
  · have zero : BitVec.ofNat 64 n = 0#64 ↔ n = 0 := by
      constructor
      · intro same
        bv_omega
      · intro same
        rw [same]
    have flag : (BitVec.ofNat 64 n == 0#64) = decide (n = 0) := by
      rw [Bool.eq_iff_iff, beq_iff_eq, decide_eq_true_iff, zero]
    simp [X64.Cond.holds, X64.Flags.logic, X64.Flags.ofResult, stored.regs, rcx, count, flag]

/-- The table is filled with the default handler, and the processor has its descriptor. -/
structure Installed (L : Listing) (c d : Cpu) : Prop where
  only : TablesOnly L c d
  gates : ∀ v < 256, gateAt d.mem (idt L) v = interruptGate (L.address "__isr_default")
  limit : d.mem.load (idtr L) 2 = 4095
  base : d.mem.load (idtr L + 2) 8 = idt L
  trace : d.trace = .lidt 4095 (idt L) :: c.trace

theorem install_meets {c : Cpu} (apart : TablesApart L c) (loop : String) :
    L.Meets (installCalls loop) c (Installed L c) := by
  refine .saving (by decide) (by decide) (by decide) fun m saved => ?_
  have entered : L.Meets [.leaRegLabel .rsi "__isr_default", .leaRegLabel .rdi (data "__idt"), .movRegImm64 .rcx 256] m
      (Filled L m (255 + 1)) := by
    refine .straight (by simp; rfl) ⟨Nat.le_refl _, ?_, ?_, ?_, ?_, ?_, ?_, ?_⟩
    · simp
    · simp [idt]
    · simp
    · intro r other
      simp only [List.mem_cons, List.not_mem_nil, or_false, not_or] at other
      simp [other]
    · exact .refl _ _ _
    · intro v inside
      omega
    · rfl
  refine .append (.append entered fun k filled => .repeated (by decide) (fun n l => fillRound_meets) filled) fun k filled => ?_
  obtain ⟨-, -, -, -, regs, mem, gates, trace⟩ := filled
  have eight : (idtr L + BitVec.ofInt 64 2) = idtr L + BitVec.ofNat 64 2 := rfl
  obtain ⟨table, stored⟩ : ∃ table, (k.mem.store (idtr L) 2 4095#64).store (idtr L + BitVec.ofNat 64 2) 8 (idt L) = table :=
    ⟨_, rfl⟩
  -- The limit is not overwritten by the base behind it.
  have limit : table.load (idtr L) 2 = 4095 := by
    have apart := @X64.Memory.separate_offsets (idtr L) 8 2 2 0 (.inr (by decide)) (by decide) (by decide) (by decide) (by decide)
    rw [BitVec.add_zero] at apart
    rw [← stored, X64.Memory.load_store_apart apart, X64.Memory.load_store _ _ _ _ (by decide)]
    rfl
  have base : table.load (idtr L + 2#64) 8 = idt L := by
    rw [← stored]
    exact X64.Memory.load_store_word _ _ _
  have descriptor : OnlyIn (idtr L) 10 k.mem table := by
    have first := @OnlyIn.store (idtr L) 10 2 k.mem 0 (by decide) (by decide) 4095#64
    rw [BitVec.add_zero] at first
    rw [← stored]
    exact first.trans (.store _ (by decide) (by decide) _)
  refine .mono (P := fun l => (∀ r, r ∉ [Reg.rax, .rcx, .rdi, .rsi] → l.reg r = m.reg r) ∧ l.mem = table ∧
    l.trace = .lidt 4095 (idt L) :: m.trace) (.straight (by simp [store16, store64, X64.Instr.exec]; rfl) ⟨?_, ?_, ?_⟩)
    fun l left => ?_
  · intro r other
    have outside := other
    simp only [List.mem_cons, List.not_mem_nil, or_false, not_or] at outside
    simpa [outside] using regs r other
  · simpa [idt, idtr] using stored
  · have address : L.address (data "__idtr") = idtr L := rfl
    have place : L.address (data "__idt") = idt L := rfl
    simp [X64.Cpu.address, address, place, stored, limit, base, trace]
  obtain ⟨kept, mem', event⟩ := left
  -- The five saved words are clear of the table and of the descriptor.
  have both : SameOn (m.reg .rsp) 40 m.mem l.mem := by
    have clear : Separate (m.reg .rsp) 40 (idtr L) 10 := by
      rw [saved.sp]
      exact apart.descriptor
    rw [mem']
    exact (saved.keeps apart.table (by decide) mem).trans (descriptor.sameOn (clear.symm (by decide)))
  refine ⟨kept .rsp (by decide), both, fun d back => ⟨⟨fun r => ?_, fun x table' descriptor' below => ?_⟩, fun v inside => ?_,
    ?_, ?_, ?_⟩⟩
  · by_cases inside : r ∈ [Reg.rax, .rcx, .rdx, .rdi, .rsi]
    · exact back.saved r inside
    by_cases isSp : r = .rsp
    · rw [isSp, back.sp]
    · have outside := inside
      simp only [List.mem_cons, List.not_mem_nil, or_false, not_or] at outside
      rw [back.others r inside isSp, kept r (by simp [outside]), saved.regs r isSp]
  · rw [back.mem, mem', descriptor x descriptor', mem x table']
    refine saved.mem x ?_
    rw [saved.sp]
    exact below
  · rw [back.mem, mem', X64.gateAt_congr (descriptor.sameOn (apart.both.symm (by decide))) inside]
    exact gates v inside
  · rw [back.mem, mem', limit]
  · rw [back.mem, mem']
    exact base
  · rw [back.trace, event, saved.trace]

/-! ### What is emitted -/

/-- Code with a jump around it. -/
def around (after : String) (calls : List Call) : List Call := [.jmp after] ++ calls ++ [.label after]

theorem around_meets (after : String) (calls : List Call) (c : Cpu) : L.Meets (around after calls) c (· = c) := by
  intro i here
  obtain ⟨front, target⟩ := here.append _
  obtain ⟨jump, -⟩ := front.append _
  have length : (around after calls).length = calls.length + 2 := by simp [around]
  simp only [List.length_append, List.length_cons, List.length_nil] at target
  rw [length]
  refine ⟨c, ?_, rfl⟩
  refine (Listing.Inside.jmp jump target (Nat.le_refl i) (by omega)).trans ?_
  rw [show i + (calls.length + 2) = i + (0 + 1 + calls.length) + 1 by omega]
  exact .single (show i ≤ _ by omega) (show _ < _ by omega) (.straight target (effect_label ..))

/-- The code of a stub, where it has not been emitted before. -/
theorem onced_script (g : CodeGenerator) (stub : Stub) (after : String) (calls : List Call) :
    ∃ skip, (onced g stub (around after calls)).script = g.script ++ skip ∧
      ∀ (L : Listing) (c : Cpu), L.Meets skip c (· = c) := by
  unfold onced
  split
  · exact ⟨[], by simp, fun L c => .straight rfl rfl⟩
  · exact ⟨_, rfl, fun L c => around_meets after calls c⟩

theorem onced_first {g : CodeGenerator} {stub : Stub} (first : stub ∉ g.emitted) (calls : List Call) :
    (onced g stub calls).script = g.script ++ calls := by
  rw [onced, if_neg first]
  rfl

theorem reserved_emitted (g : CodeGenerator) (name : String) (bytes : List X64.Byte) :
    (reserved g name bytes).emitted = g.emitted := by
  unfold reserved
  split <;> rfl

/-- A label has one place in the text. -/
theorem offset_unique {L : Listing} {M : X64.Machine} (loaded : L.Loaded M) {i j : Nat} {name : String}
    (first : L.Defines i name) (second : L.Defines j name) : L.offset i = L.offset j :=
  Int.ofNat_inj.mp (Option.some.inj ((loaded.labels i _ first).symm.trans (loaded.labels j _ second)))

/-- The handler that counts a tick. -/
def irq0Stub : List Call :=
  [.label "__irq0_stub", .pushReg .rax, .pushReg .rdx, .leaRegLabel .rax (data "__tick"), load64 .rdx .rax 0,
    addRegImm .rdx 1, store64 .rax 0 .rdx] ++ outPort 0x20 0x20 ++ [.popReg .rdx, .popReg .rax, iretq]

/-- The handler that also keeps every register in memory. -/
def irq0Full : List Call :=
  [.label "__irq0_full", .pushReg .r15, .leaRegLabel .r15 (data "__irq_gprs")] ++ contextStores IRQ_GPRS 0 ++
    [load64 .rax .rsp 0, store64 .r15 104 .rax, .leaRegLabel .rax (data "__tick"), load64 .rdx .rax 0,
      addRegImm .rdx 1, store64 .rax 0 .rdx] ++ outPort 0x20 0x20 ++ [.leaRegLabel .r15 (data "__irq_gprs")] ++
    contextLoads IRQ_GPRS 0 ++ [.popReg .r15, iretq]

theorem stopStub_eq (stub after : String) : stopStub stub after = around after [.label stub, cli, .hlt, .jmp stub] := rfl

theorem kernelTickInstall_eq : kernelTickInstall = (do
    reserve "__tick" (zeroBytes 8)
    once .irq0 (around "__after_irq0" irq0Stub)
    patchGate "__irq0_stub" 32) := rfl

theorem kernelIrqFullSaveOn_eq : kernelIrqFullSaveOn = (do
    reserve "__irq_gprs" (zeroBytes 128)
    reserve "__tick" (zeroBytes 8)
    once .irq0Full (around "__after_irq0_full" irq0Full)
    patchGate "__irq0_full" 32) := rfl

/-- The statements that install a handler. -/
inductive Install where
  | tick | irqFullSave | pf | nmi
  deriving DecidableEq, Repr

def Install.op : Install → Op
  | tick => .kernelTickInstall
  | irqFullSave => .kernelIrqFullSave
  | pf => .kernelPfInstall
  | nmi => .kernelNmiInstall

def Install.stub : Install → String
  | tick => "__irq0_stub"
  | irqFullSave => "__irq0_full"
  | pf => "__pf_stub"
  | nmi => "__nmi_stub"

def Install.vector : Install → Nat
  | tick | irqFullSave => 32
  | pf => 14
  | nmi => 2

theorem Install.vector_lt (install : Install) : install.vector < 256 := by cases install <;> decide

/-- The layout of `g` is kept. -/
def LayoutKept (g g' : CodeGenerator) : Prop :=
  ∀ name o, g.dataLayout.get? name = some o → g'.dataLayout.get? name = some o

theorem LayoutKept.contains {g g' : CodeGenerator} (kept : LayoutKept g g') {name : String}
    (known : g.dataLayout.contains name = true) : g'.dataLayout.contains name = true := by
  obtain ⟨o, found⟩ := Option.isSome_iff_exists.mp known
  exact Option.isSome_iff_exists.mpr ⟨o, kept name o found⟩

/-- A stub and the patch of its gate. -/
theorem patched_ok {g g' : CodeGenerator} {flag : Stub} {after stub : String} {calls : List Call} {vector : Nat}
    (known : g.dataLayout.contains "__idt" = true)
    (emission : (do once flag (around after calls); patchGate stub vector : Gen Unit) g = .ok () g') :
    ∃ skip, g'.script = g.script ++ (skip ++ patchCalls stub vector) ∧
      (∀ (L : Listing) (c : Cpu), L.Meets skip c (· = c)) ∧ LayoutKept g g' := by
  obtain ⟨skip, script, skips⟩ := onced_script g flag after calls
  rw [once_bind_ok] at emission
  simp only [patchGate, get_bind_ok, onced_dataLayout, known, if_true, asm_ok] at emission
  refine ⟨skip, ?_, skips, fun name o found => ?_⟩
  · rw [emission, CodeGenerator.withScript_script, script]
    simp [patchCalls, saving]
  · rw [emission]
    simpa using found

theorem install_ok (install : Install) {g g' : CodeGenerator} (known : g.dataLayout.contains "__idt" = true)
    (emission : emitOp install.op g = .ok () g') :
    ∃ skip, g'.script = g.script ++ (skip ++ patchCalls install.stub install.vector) ∧
      (∀ (L : Listing) (c : Cpu), L.Meets skip c (· = c)) ∧ LayoutKept g g' := by
  have reserve (g : CodeGenerator) (name : String) (bytes : List Byte) : LayoutKept g (reserved g name bytes) :=
    fun _ _ => reserved_get? bytes
  cases install with
  | tick =>
    simp only [Install.op, emitOp, kernelTickInstall_eq, reserve_bind_ok] at emission
    have kept := reserve g "__tick" (zeroBytes 8)
    obtain ⟨skip, script, skips, later⟩ := patched_ok (kept.contains known) emission
    rw [reserved_script] at script
    exact ⟨skip, script, skips, fun name o found => later name o (kept name o found)⟩
  | irqFullSave =>
    simp only [Install.op, emitOp, kernelIrqFullSaveOn_eq, reserve_bind_ok] at emission
    have first := reserve g "__irq_gprs" (zeroBytes 128)
    have second := reserve (reserved g "__irq_gprs" (zeroBytes 128)) "__tick" (zeroBytes 8)
    obtain ⟨skip, script, skips, later⟩ := patched_ok (second.contains (first.contains known)) emission
    rw [reserved_script, reserved_script] at script
    exact ⟨skip, script, skips, fun name o found => later name o (second name o (first name o found))⟩
  | pf =>
    simp only [Install.op, emitOp, kernelPfInstall, stopStub_eq] at emission
    exact patched_ok known emission
  | nmi =>
    simp only [Install.op, emitOp, kernelNmiInstall, stopStub_eq] at emission
    exact patched_ok known emission

/-! ### Sequences of statements -/

def emitEach (ops : List Op) : Gen Unit := ops.forM emitOp

/-- The label of the handler that is in the gate of a vector, from the ones there before. -/
def handlers (before : Nat → String) (installs : List Install) : Nat → String :=
  installs.foldl (fun stubs install v => if v = install.vector then install.stub else stubs v) before

/-- The gates lead to the handlers. -/
structure GatesAt (L : Listing) (stubs : Nat → String) (c d : Cpu) : Prop where
  only : TablesOnly L c d
  gates : ∀ v < 256, gateAt d.mem (idt L) v = interruptGate (L.address (stubs v))
  descriptor : SameOn (idtr L) 10 c.mem d.mem
  trace : d.trace = c.trace

theorem installs_meets {installs : List Install} {g g' : CodeGenerator} (known : g.dataLayout.contains "__idt" = true)
    (emission : emitEach (installs.map Install.op) g = .ok () g') :
    ∃ calls, g'.script = g.script ++ calls ∧ LayoutKept g g' ∧ ∀ (L : Listing) (stubs : Nat → String) (c : Cpu),
      TablesApart L c → GatesAt L stubs c c → L.Meets calls c (GatesAt L (handlers stubs installs) c) := by
  induction installs generalizing g with
  | nil =>
    obtain ⟨-, rfl⟩ := pure_ok.mp emission
    exact ⟨[], by simp, fun _ _ => id, fun L stubs c _ start => .straight rfl start⟩
  | cons install rest ih =>
    obtain ⟨_, m, first, emission⟩ := bind_ok.mp emission
    obtain ⟨skip, script, skips, kept⟩ := install_ok install known first
    obtain ⟨calls, script', kept', meets⟩ := ih (kept.contains known) emission
    refine ⟨skip ++ patchCalls install.stub install.vector ++ calls, ?_, fun name o found => kept' name o (kept name o found),
      fun L stubs c apart start => ?_⟩
    · rw [script', script, List.append_assoc]
    have patches : L.Meets (skip ++ patchCalls install.stub install.vector) c (Patched L install.stub install.vector c) := by
      refine .append (skips L c) fun m same => ?_
      rw [same]
      exact patch_meets apart install.stub install.vector_lt
    refine .append patches fun d patched => ?_
    have next : GatesAt L (fun v => if v = install.vector then install.stub else stubs v) d d := by
      refine ⟨⟨fun _ => rfl, fun _ _ _ _ => rfl⟩, fun v inside => ?_, .refl _ _ _, rfl⟩
      by_cases here : v = install.vector
      · rw [if_pos here, here, patched.gate]
      · rw [if_neg here, patched.others v inside here, start.gates v inside]
    refine .mono (meets L _ d (apart.of_sp (patched.only.regs .rsp)) next) fun e left => ?_
    exact ⟨patched.only.trans left.only, left.gates, patched.descriptor.trans left.descriptor, left.trace.trans patched.trace⟩

/-- The data of `g` are linked one behind the other, as they are laid out. -/
def LinkedData (L : Listing) (g : CodeGenerator) : Prop :=
  ∃ start : Int, ∀ name o, g.dataLayout.get? name = some o → L.offs.get? (data name) = some (start + o)

/-- Every vector has its gate, and the processor has the descriptor of the table. -/
structure InterruptsReady (L : Listing) (stubs : Nat → String) (c d : Cpu) : Prop where
  gates : ∀ v < 256, gateAt d.mem (idt L) v = interruptGate (L.address (stubs v))
  limit : d.mem.load (idtr L) 2 = 4095
  base : d.mem.load (idtr L + 2) 8 = idt L
  loaded : d.trace = .lidt 4095 (idt L) :: c.trace
  only : TablesOnly L c d

/-- The table and its descriptor are laid out one behind the other. -/
theorem tables_layout {g : CodeGenerator} (fresh : g.dataLayout.contains "__idt" = false)
    (fresh' : g.dataLayout.contains "__idtr" = false) {table : List Byte} (size : table.length = 4096) (descriptor : List Byte) :
    ∃ o : Int, (reserved (reserved g "__idt" table) "__idtr" descriptor).dataLayout.get? "__idt" = some o ∧
      (reserved (reserved g "__idt" table) "__idtr" descriptor).dataLayout.get? "__idtr" = some (o + 4096) := by
  have other : (g.dataLayout.set "__idt" g.dataBytes.length).contains "__idtr" = false := by
    simpa [Dict.contains, Dict.get?_set] using fresh'
  have first : reserved g "__idt" table = { g with
      dataLayout := g.dataLayout.set "__idt" g.dataBytes.length, dataBytes := g.dataBytes ++ table } := by
    simp [reserved, fresh]
  refine ⟨g.dataBytes.length, ?_, ?_⟩
  · refine reserved_get? _ ?_
    simp [first, Dict.get?_set]
  · rw [first, reserved]
    simp [other, Dict.get?_set, size]

theorem idtInstall_ok {g g' : CodeGenerator} (fresh : g.dataLayout.contains "__idt" = false)
    (fresh' : g.dataLayout.contains "__idtr" = false) (emission : emitOp .kernelIdtInstall g = .ok () g') :
    ∃ skip loop, g'.script = g.script ++ (skip ++ installCalls loop) ∧ (∀ (L : Listing) (c : Cpu), L.Meets skip c (· = c)) ∧
      ∃ o : Int, g'.dataLayout.get? "__idt" = some o ∧ g'.dataLayout.get? "__idtr" = some (o + 4096) := by
  obtain ⟨skip, script, skips⟩ := onced_script g .idtHandler "__idt_after_handler"
    [.label "__isr_default", cli, .hlt, .jmp "__isr_default"]
  have layout := onced_dataLayout g .idtHandler
    (around "__idt_after_handler" [.label "__isr_default", cli, .hlt, .jmp "__isr_default"])
  simp only [emitOp, kernelIdtInstall, stopStub_eq, once_bind_ok] at emission
  generalize onced g .idtHandler _ = h at emission script layout
  obtain ⟨o, table, descriptor⟩ := tables_layout (g := h) (layout ▸ fresh) (layout ▸ fresh')
    (show (zeroBytes (256 * 16)).length = 4096 from List.length_replicate) (zeroBytes 10)
  simp only [reserve_bind_ok, asm_bind_ok, newLabel_bind_ok, asm_ok, nextLabel_withScript,
    CodeGenerator.withScript_withScript, CodeGenerator.withScript_script, reserved_script, script] at emission
  refine ⟨skip, freshLabel "idtf" (h.labelI + 1), ?_, skips, o, ?_, ?_⟩
  · rw [emission, CodeGenerator.withScript_script]
    simp [installCalls, saving, repeated, fillRound]
  · rw [emission]
    exact table
  · rw [emission]
    exact descriptor

theorem interrupt_gates {g g' : CodeGenerator} (fresh : g.dataLayout.contains "__idt" = false)
    (fresh' : g.dataLayout.contains "__idtr" = false) {installs : List Install} {calls : List Call}
    (emission : emitEach (.kernelIdtInstall :: installs.map Install.op) g = .ok () g') (script : g'.script = g.script ++ calls)
    (placed : LinkedData L g') (loaded : L.Loaded M) {i : Nat} (here : L.At i calls) {c : Cpu}
    (table : StackClear L c 40 "__idt" 4096) (descriptor : StackClear L c 40 "__idtr" 10) :
    ∃ d, M.Completes (L.offset i) (L.offset (i + calls.length)) c d ∧
      InterruptsReady L (handlers (fun _ => "__isr_default") installs) c d := by
  obtain ⟨_, m, first, emission⟩ := bind_ok.mp emission
  obtain ⟨skip, loop, script', skips, o, tableAt, descriptorAt⟩ := idtInstall_ok fresh fresh' first
  have known : m.dataLayout.contains "__idt" = true := Option.isSome_iff_exists.mpr ⟨o, tableAt⟩
  obtain ⟨more, script'', kept, meets⟩ := installs_meets known emission
  obtain ⟨start, linked⟩ := placed
  -- The descriptor follows the table at once.
  have behind : idtr L = idt L + BitVec.ofNat 64 4096 := by
    simp only [idtr, idt, Listing.address, linked _ _ (kept _ _ tableAt), linked _ _ (kept _ _ descriptorAt), Option.getD_some]
    rw [← Int.add_assoc, BitVec.ofInt_add, ← BitVec.add_assoc]
    rfl
  have both : Separate (idt L) 4096 (idtr L) 10 := by
    rw [behind]
    constructor <;> bv_omega
  have apart : TablesApart L c := ⟨table, descriptor, both⟩
  have shape : calls = skip ++ installCalls loop ++ more := by
    rw [script'', script', List.append_assoc, List.append_cancel_left_eq] at script
    exact script.symm
  have whole : L.Meets calls c (InterruptsReady L (handlers (fun _ => "__isr_default") installs) c) := by
    rw [shape]
    refine .append (P := Installed L c) (.append (skips L c) fun d same => ?_) fun d installed => ?_
    · rw [same]
      exact install_meets apart loop
    have ready : GatesAt L (fun _ => "__isr_default") d d :=
      ⟨⟨fun _ => rfl, fun _ _ _ _ => rfl⟩, installed.gates, .refl _ _ _, rfl⟩
    refine .mono (meets L _ d (apart.of_sp (installed.only.regs .rsp)) ready) fun e left => ?_
    have limit := left.descriptor.load (i := 0) (k := 2) (by decide) (by decide)
    have base := left.descriptor.load (i := 2) (k := 8) (by decide) (by decide)
    rw [BitVec.add_zero] at limit
    exact ⟨left.gates, limit.trans installed.limit, base.trans installed.base, left.trace.trans installed.trace,
      installed.only.trans left.only⟩
  obtain ⟨d, run, ready⟩ := whole i here
  exact ⟨d, loaded.inside run, ready⟩

/-- The generator after these statements. -/
def afterInstalls (installs : List Install) : CodeGenerator :=
  match emitEach (.kernelIdtInstall :: installs.map Install.op) (.new false) with
  | .ok _ g => g
  | .error _ g => g

theorem interrupt_gates_two : ∃ (L : Listing) (c d : Cpu),
    InterruptsReady L (handlers (fun _ => "__isr_default") [.pf, .tick]) c d := by
  have emission : emitEach (.kernelIdtInstall :: [Install.pf, .tick].map Install.op) (.new false) =
      .ok () (afterInstalls [.pf, .tick]) := rfl
  obtain ⟨L, M, loaded, calls, -, base, offs⟩ := Listing.exists_loaded_data (afterInstalls [.pf, .tick]).script
    [(data "__idt", 10000), (data "__idtr", 14096), (data "__tick", 14106)] .silent (by decide +kernel)
  have table := offs (data "__idt") (by decide)
  have descriptor := offs (data "__idtr") (by decide)
  have tick := offs (data "__tick") (by decide)
  have layout : (afterInstalls [.pf, .tick]).dataLayout = [("__idt", 0), ("__idtr", 4096), ("__tick", 4106)] := by
    decide +kernel
  have placed : LinkedData L (afterInstalls [.pf, .tick]) := by
    refine ⟨10000, fun name o found => ?_⟩
    rw [layout] at found
    simp only [Dict.get?] at found
    split at found
    · next here =>
        cases found
        rw [← here, table]
        rfl
    split at found
    · next here =>
        cases found
        rw [← here, descriptor]
        rfl
    split at found
    · next here =>
        cases found
        rw [← here, tick]
        rfl
    cases found
  have idtAt : L.address (data "__idt") = 10000 := by
    rw [Listing.address, base, table]
    rfl
  have idtrAt : L.address (data "__idtr") = 14096 := by
    rw [Listing.address, base, descriptor]
    rfl
  have here : L.At 0 (afterInstalls [.pf, .tick]).script := calls ▸ List.prefix_refl _
  have stack : StackClear L (Cpu.filled 5000) 40 "__idt" 4096 := by
    rw [StackClear, idtAt]
    constructor <;> decide
  have descriptorStack : StackClear L (Cpu.filled 5000) 40 "__idtr" 10 := by
    rw [StackClear, idtrAt]
    constructor <;> decide
  obtain ⟨d, -, ready⟩ := @interrupt_gates L M (.new false) _ rfl rfl [.pf, .tick] _ emission (List.nil_append _).symm placed
    loaded 0 here (Cpu.filled 5000) stack descriptorStack
  exact ⟨L, _, d, ready⟩

end Aclm.Codegen
