import Aclm.Codegen.Run
import Aclm.Parser
import Aclm.RingBuffer
import Mathlib.Order.Bounds.Basic

/-! The DMA ring is a bounded queue. -/

set_option autoImplicit false

namespace Aclm.Codegen

open X64 (Word Reg Cpu Env Machine Memory)
open X64.Memory (Separate SameOn OnlyIn Zeros)
open Encoder

/-! ### The code -/

def ringInitCalls (slots : Int) : List Call :=
  saving [.rax, .rdi] [.leaRegLabel .rdi (data "__dmaring"), xorRegReg .rax .rax, store64 .rdi 0 .rax,
    store64 .rdi 4 .rax, .movRegImm64 .rax (slots - 1), store32 .rdi 8 .rax]

/-- The slot whose number is in `index` is addressed by RAX. -/
def slotAddress (index : Reg) : List Call :=
  [.movRegReg .rax index, shlRegImm8 .rax 4, addRegImm .rax 16, addRegReg .rax .r8]

/-- The head after the next entry, in RAX. -/
def nextHead : List Call := [.movRegReg .rax .r9, addRegImm .rax 1, andRegReg .rax .r11]

/-- A word of the slot that R10 points to. -/
def slotWord (o : Operand) (disp : Int) : List Call := o.mov .rax ++ [store64 .r10 disp .rax]

def ringPushCalls (addr length : Operand) (full ok : String) : List Call :=
  saving RING_TEMPS (([.leaRegLabel .r8 (data "__dmaring"), load32 .r9 .r8 0, load32 .r10 .r8 4, load32 .r11 .r8 8] ++
    nextHead ++ [cmpRegReg .rax .r10]) ++
    either "eq" full ok ((slotAddress .r9 ++ [.movRegReg .r10 .rax]) ++ (slotWord addr 0 ++ (slotWord length 8 ++
      (nextHead ++ [store32 .r8 0 .rax, xorRegReg .rax .rax])))) [.movRegImm64 .rax 1])

def ringPopCalls (da dl : Reg) (empty ok : String) : List Call :=
  saving RING_TEMPS ([.leaRegLabel .r8 (data "__dmaring"), load32 .r9 .r8 0, load32 .r10 .r8 4, cmpRegReg .r9 .r10] ++
    either "eq" empty ok ((load32 .r11 .r8 8 :: slotAddress .r10) ++ ([load64 da .rax 0, load64 dl .rax 8] ++
      [addRegImm .r10 1, andRegReg .r10 .r11, store32 .r8 4 .r10, xorRegReg .rax .rax])) [.movRegImm64 .rax 1])

/-- The registers that the operands of the ring stay out of. -/
def RING_BUSY : List Reg := [.rax, .r8, .r9, .r10]

/-- The generator after `reserveRing`. -/
def ringReserved (g : CodeGenerator) (n : Int) : CodeGenerator :=
  if g.dataLayout.contains "__dmaring" then g
  else
    let h := reserved g "__dmaring" (zeroBytes (16 + n * 16))
    { h with dataLayout := h.dataLayout.set "__dmaring_slots" n }

theorem reserveRing_bind_ok {g g' : CodeGenerator} {n : Int} {f : Unit → Gen Unit} :
    (reserveRing n >>= f) g = .ok () g' ↔ f () (ringReserved g n) = .ok () g' := by
  by_cases known : g.dataLayout.contains "__dmaring"
  · simp [reserveRing, ringReserved, known, bind_assoc, get_bind_ok]
  · simp [reserveRing, ringReserved, known, bind_assoc, get_bind_ok, reserve_bind_ok, modify_bind_ok]

/-- The first ring is given the bytes of its header and of its slots, all zero, behind the data that are there. -/
theorem ringReserved_data {g : CodeGenerator} (fresh : g.dataLayout.contains "__dmaring" = false) (n : Int) :
    (ringReserved g n).dataLayout.get? "__dmaring" = some (g.dataBytes.length : Int) ∧
      (ringReserved g n).dataBytes = g.dataBytes ++ zeroBytes (16 + n * 16) := by
  simp [ringReserved, reserved, fresh, Dict.get?_set]

theorem ringInit_appends (slots : Int) (g : CodeGenerator) : Appends (.kernelDmaRingInit slots) g (ringInitCalls slots) := by
  intro g' emission
  simp only [emitOp, kernelDmaRingInit, reserveRing_bind_ok, asm_ok] at emission
  have script : (ringReserved g slots).script = g.script := by
    unfold ringReserved
    split
    · rfl
    · exact reserved_script ..
  rw [emission, script]
  simp [ringInitCalls, saving]

theorem ringPush_appends_operand {g : CodeGenerator} {addr length : Expr} {a l : Operand} (known : g.operand addr = .ok a)
    (known' : g.operand length = .ok l) :
    ∃ full ok, Appends (.kernelDmaRingPush addr length) g (ringPushCalls a l full ok) := by
  have named : resolve "reg1" = .ok .rax := by decide
  refine ⟨freshLabel "dmf" (g.labelI + 1), freshLabel "dmo" (g.labelI + 1 + 1), fun g' emission => ?_⟩
  have found (script : List Call) : (g.nextLabel.nextLabel.withScript script).operand addr = .ok a := by simpa using known
  have found' (script : List Call) : (g.nextLabel.nextLabel.withScript script).operand length = .ok l := by simpa using known'
  simp only [emitOp, kernelDmaRingPush, asm_bind_ok, newLabel_bind_ok, reg_bind_ok, named, Except.ok.injEq,
    exists_eq_left', asm_ok, nextLabel_withScript, CodeGenerator.withScript_withScript, operand_bind_ok (found _),
    operand_bind_ok (found' _)] at emission
  rw [emission]
  simp [ringPushCalls, saving, either, slotAddress, slotWord, nextHead, RING_TEMPS, pushes]

theorem ringPush_appends {g : CodeGenerator} {busy : List Reg} {addr length : Expr} {a l : Operand}
    (plain : Plain g busy addr a) (plain' : Plain g busy length l) :
    ∃ full ok, Appends (.kernelDmaRingPush addr length) g (ringPushCalls a l full ok) :=
  ringPush_appends_operand plain.operand plain'.operand

theorem ringPop_appends {g : CodeGenerator} {destAddr destLen : String} {da dl : Reg}
    (named : resolve destAddr = .ok da) (named' : resolve destLen = .ok dl) :
    ∃ empty ok, Appends (.kernelDmaRingPop destAddr destLen) g (ringPopCalls da dl empty ok) := by
  have status : resolve "reg1" = .ok .rax := by decide
  refine ⟨freshLabel "dme" (g.labelI + 1), freshLabel "dmok" (g.labelI + 1 + 1), fun g' emission => ?_⟩
  simp only [emitOp, kernelDmaRingPop, asm_bind_ok, newLabel_bind_ok, reg_bind_ok, named, named', status,
    Except.ok.injEq, exists_eq_left', asm_ok] at emission
  rw [emission]
  simp [ringPopCalls, saving, either, slotAddress, RING_TEMPS, pushes]

/-! ### The ring in memory -/

/-- The bytes of a ring. -/
def ringBytes (slots : Nat) : Nat := 16 + 16 * slots

/-- The pair in a slot. -/
def slotAt (m : Memory) (ring : Word) (j : Nat) : Word × Word :=
  (m.load (ring + BitVec.ofNat 64 (16 + 16 * j)) 8, m.load (ring + BitVec.ofNat 64 (16 + 16 * j + 8)) 8)

/-- The ring of 2 ^ `bits` slots holds `q` from the slot `tail` on. -/
structure RingAt (m : Memory) (ring : Word) (bits tail : Nat) (q : List (Word × Word)) : Prop where
  headWord : m.load (ring + BitVec.ofNat 64 0) 4 = BitVec.ofNat 64 ((tail + q.length) % 2 ^ bits)
  tailWord : m.load (ring + BitVec.ofNat 64 4) 4 = BitVec.ofNat 64 tail
  maskWord : m.load (ring + BitVec.ofNat 64 8) 4 = BitVec.ofNat 64 (2 ^ bits - 1)
  below : tail < 2 ^ bits
  room : q.length < 2 ^ bits
  holds : RingBuffer.Holds (slotAt m ring) (2 ^ bits) tail q

section Words

variable {m : Memory} {ring : Word} {bits tail : Nat} {q : List (Word × Word)}

theorem load_store_small (m : Memory) (a : Word) {n k : Nat} (fits : n ≤ 8) (small : k < 256 ^ n) :
    (m.store a n (BitVec.ofNat 64 k)).load a n = BitVec.ofNat 64 k := by
  have le : 256 ^ n ≤ 256 ^ 8 := Nat.pow_le_pow_right (by decide) fits
  rw [X64.Memory.load_store m a n _ fits, BitVec.toNat_ofNat, Nat.mod_eq_of_lt (show k < 2 ^ 64 by omega), Nat.mod_eq_of_lt small]

theorem load_store_zero (m : Memory) (a : Word) {n k : Nat} (le : k ≤ n) (fits : n ≤ 2 ^ 64) :
    (m.store a n 0).load a k = 0 := by
  simpa using (X64.Memory.zeros_store m a n).load (i := 0) (k := k) (by omega) fits

/-- A load at one offset does not see a store at another. -/
theorem load_store_offsets (m : Memory) (ring : Word) {i j n k : Nat} (before : i + n ≤ j ∨ j + k ≤ i) (positive : 0 < n)
    (one : 0 < k) (lower : i + n ≤ 2 ^ 64) (upper : j + k ≤ 2 ^ 64) (v : Word) :
    (m.store (ring + BitVec.ofNat 64 i) n v).load (ring + BitVec.ofNat 64 j) k = m.load (ring + BitVec.ofNat 64 j) k :=
  X64.Memory.load_store_apart (X64.Memory.separate_offsets before positive lower upper one) v

theorem two_pow_le {bits : Nat} (small : bits ≤ 27) : 2 ^ bits ≤ 2 ^ 27 := Nat.pow_le_pow_right (by decide) small

theorem ofNat_inj {i j : Nat} (left : i < 2 ^ 64) (right : j < 2 ^ 64) :
    BitVec.ofNat 64 i = BitVec.ofNat 64 j ↔ i = j := by
  rw [← BitVec.toNat_inj, BitVec.toNat_ofNat, BitVec.toNat_ofNat, Nat.mod_eq_of_lt left, Nat.mod_eq_of_lt right]

/-- A slot's address as the code computes it. -/
theorem slot_address (ring : Word) (j : Nat) :
    BitVec.ofNat 64 j <<< 4 + 16#64 + ring = ring + BitVec.ofNat 64 (16 + 16 * j) := by
  have shifted : BitVec.ofNat 64 j <<< 4 = BitVec.ofNat 64 (16 * j) := by
    apply BitVec.eq_of_toNat_eq
    simp only [BitVec.toNat_shiftLeft, BitVec.toNat_ofNat, Nat.shiftLeft_eq]
    omega
  rw [shifted]
  bv_omega

/-- A successor that is masked. -/
theorem masked_succ {bits : Nat} (small : bits ≤ 27) (j : Nat) :
    (BitVec.ofNat 64 j + 1#64) &&& BitVec.ofNat 64 (2 ^ bits - 1) = BitVec.ofNat 64 ((j + 1) % 2 ^ bits) := by
  have le := two_pow_le small
  have divides : 2 ^ bits ∣ 2 ^ 64 := Nat.pow_dvd_pow 2 (by omega)
  have positive : 0 < 2 ^ bits := Nat.two_pow_pos bits
  have below : (j + 1) % 2 ^ bits < 2 ^ bits := Nat.mod_lt _ positive
  apply BitVec.eq_of_toNat_eq
  rw [← BitVec.ofNat_add, BitVec.toNat_and, BitVec.toNat_ofNat, BitVec.toNat_ofNat, BitVec.toNat_ofNat,
    Nat.mod_eq_of_lt (show 2 ^ bits - 1 < 2 ^ 64 by omega), Nat.and_two_pow_sub_one_eq_mod, Nat.mod_mod_of_dvd _ divides,
    Nat.mod_eq_of_lt (show (j + 1) % 2 ^ bits < 2 ^ 64 by omega)]

namespace RingAt

theorem of_sameOn {m' : Memory} (held : RingAt m ring bits tail q) (small : bits ≤ 27)
    (same : SameOn ring (ringBytes (2 ^ bits)) m m') : RingAt m' ring bits tail q := by
  have le := two_pow_le small
  have fits : ringBytes (2 ^ bits) ≤ 2 ^ 64 := by
    unfold ringBytes
    omega
  have inside (i k : Nat) (within : i + k ≤ ringBytes (2 ^ bits)) :
      m'.load (ring + BitVec.ofNat 64 i) k = m.load (ring + BitVec.ofNat 64 i) k := same.load within fits
  unfold ringBytes at inside
  refine ⟨(inside 0 4 (by omega)).trans held.headWord, (inside 4 4 (by omega)).trans held.tailWord,
    (inside 8 4 (by omega)).trans held.maskWord, held.below, held.room, ?_⟩
  refine held.holds.congr (Nat.two_pow_pos bits) fun j less => ?_
  rw [slotAt, slotAt, inside _ 8 (by omega), inside _ 8 (by omega)]

/-- The ring that is left by the initialisation. -/
theorem init (m : Memory) (ring : Word) (small : bits ≤ 27) :
    RingAt (((m.store (ring + BitVec.ofNat 64 0) 8 0).store (ring + BitVec.ofNat 64 4) 8 0).store
      (ring + BitVec.ofNat 64 8) 4 (BitVec.ofNat 64 (2 ^ bits - 1))) ring bits 0 [] := by
  have le := two_pow_le small
  refine ⟨?_, ?_, load_store_small _ _ (by decide) (by omega), Nat.two_pow_pos bits, Nat.two_pow_pos bits, .empty _ _ _⟩
  · rw [load_store_offsets _ _ (by decide) (by decide) (by decide) (by decide) (by decide),
      load_store_offsets _ _ (by decide) (by decide) (by decide) (by decide) (by decide), load_store_zero _ _ (by decide) (by decide)]
    simp
  · rw [load_store_offsets _ _ (by decide) (by decide) (by decide) (by decide) (by decide), load_store_zero _ _ (by decide) (by decide)]
    rfl

/-- An entry goes into the slot at the head, and the head moves on. -/
theorem push (held : RingAt m ring bits tail q) (small : bits ≤ 27) (room : q.length + 1 < 2 ^ bits) (a l : Word) {h : Nat}
    (head : h = (tail + q.length) % 2 ^ bits) :
    RingAt (((m.store (ring + BitVec.ofNat 64 (16 + 16 * h)) 8 a).store (ring + BitVec.ofNat 64 (16 + 16 * h + 8)) 8 l).store
      (ring + BitVec.ofNat 64 0) 4 (BitVec.ofNat 64 ((h + 1) % 2 ^ bits))) ring bits tail (q ++ [(a, l)]) := by
  have le := two_pow_le small
  have positive := Nat.two_pow_pos bits
  have slot : h < 2 ^ bits := head ▸ Nat.mod_lt _ positive
  have next : (h + 1) % 2 ^ bits = (tail + (q ++ [(a, l)]).length) % 2 ^ bits := by
    rw [head]
    exact RingBuffer.head_push tail _ q (a, l)
  have below := Nat.mod_lt (h + 1) positive
  -- The header and the slots are apart from each other.
  have header (i k : Nat) (v : Word) (m : Memory) (lower : k = 16 + 16 * h ∨ k = 16 + 16 * h + 8) (inside : i + 4 ≤ 16) :
      (m.store (ring + BitVec.ofNat 64 k) 8 v).load (ring + BitVec.ofNat 64 i) 4 = m.load (ring + BitVec.ofNat 64 i) 4 :=
    load_store_offsets _ _ (by omega) (by decide) (by decide) (by omega) (by omega) v
  have slots (i : Nat) (v : Word) (m : Memory) (inside : 16 ≤ i) (fits : i + 8 ≤ 2 ^ 64) :
      (m.store (ring + BitVec.ofNat 64 0) 4 v).load (ring + BitVec.ofNat 64 i) 8 = m.load (ring + BitVec.ofNat 64 i) 8 :=
    load_store_offsets _ _ (by omega) (by decide) (by decide) (by omega) (by omega) v
  refine ⟨?_, ?_, ?_, held.below, by simpa using room, ?_⟩
  · rw [load_store_small _ _ (by decide) (by omega), next]
  · rw [load_store_offsets _ _ (by decide) (by decide) (by decide) (by decide) (by decide), header _ _ _ _ (.inr rfl) (by decide),
      header _ _ _ _ (.inl rfl) (by decide), held.tailWord]
  · rw [load_store_offsets _ _ (by decide) (by decide) (by decide) (by decide) (by decide), header _ _ _ _ (.inr rfl) (by decide),
      header _ _ _ _ (.inl rfl) (by decide), held.maskWord]
  · refine held.holds.push held.below held.room (fun j less other => ?_) ?_
    · rw [← head] at other
      rw [slotAt, slotAt, slots _ _ _ (by omega) (by omega), slots _ _ _ (by omega) (by omega)]
      have apart (i k : Nat) (v : Word) (m : Memory) (left : i = 16 + 16 * h ∨ i = 16 + 16 * h + 8)
          (right : k = 16 + 16 * j ∨ k = 16 + 16 * j + 8) :
          (m.store (ring + BitVec.ofNat 64 i) 8 v).load (ring + BitVec.ofNat 64 k) 8 = m.load (ring + BitVec.ofNat 64 k) 8 :=
        load_store_offsets _ _ (by omega) (by decide) (by decide) (by omega) (by omega) v
      rw [apart _ _ _ _ (.inr rfl) (.inl rfl), apart _ _ _ _ (.inl rfl) (.inl rfl), apart _ _ _ _ (.inr rfl) (.inr rfl),
        apart _ _ _ _ (.inl rfl) (.inr rfl)]
    · rw [← head, slotAt, slots _ _ _ (by omega) (by omega), slots _ _ _ (by omega) (by omega), X64.Memory.load_store_word,
        load_store_offsets _ _ (by omega) (by decide) (by decide) (by omega) (by omega), X64.Memory.load_store_word]

/-- The free slot at the head may hold anything. -/
theorem setFree (held : RingAt m ring bits tail q) (small : bits ≤ 27) (v : Word) {h : Nat}
    (head : h = (tail + q.length) % 2 ^ bits) :
    RingAt (m.store (ring + BitVec.ofNat 64 (16 + 16 * h)) 8 v) ring bits tail q := by
  have le := two_pow_le small
  have slot : h < 2 ^ bits := head ▸ Nat.mod_lt _ (Nat.two_pow_pos bits)
  have other (i k : Nat) (before : i + k ≤ 16 + 16 * h ∨ 16 + 16 * h + 8 ≤ i) (one : 0 < k) (fits : i + k ≤ 2 ^ 64) :
      (m.store (ring + BitVec.ofNat 64 (16 + 16 * h)) 8 v).load (ring + BitVec.ofNat 64 i) k = m.load (ring + BitVec.ofNat 64 i) k :=
    load_store_offsets _ _ (by omega) (by decide) one (by omega) fits v
  refine ⟨?_, ?_, ?_, held.below, held.room, fun i x found => ?_⟩
  · rw [other 0 4 (by omega) (by decide) (by decide), held.headWord]
  · rw [other 4 4 (by omega) (by decide) (by decide), held.tailWord]
  · rw [other 8 4 (by omega) (by decide) (by decide), held.maskWord]
  · have inside : i < q.length := (List.getElem?_eq_some_iff.mp found).1
    have apart : (tail + i) % 2 ^ bits ≠ h := by
      rw [head]
      exact RingBuffer.slot_ne held.below (inside.trans held.room) held.room inside.ne
    have less := Nat.mod_lt (tail + i) (Nat.two_pow_pos bits)
    rw [slotAt, other _ 8 (by omega) (by decide) (by omega), other _ 8 (by omega) (by decide) (by omega)]
    exact held.holds i x found

/-- The tail moves on past the oldest entry. -/
theorem pop {e : Word × Word} (held : RingAt m ring bits tail (e :: q)) (small : bits ≤ 27) :
    slotAt m ring tail = e ∧ RingAt (m.store (ring + BitVec.ofNat 64 4) 4 (BitVec.ofNat 64 ((tail + 1) % 2 ^ bits))) ring bits
      ((tail + 1) % 2 ^ bits) q := by
  have le := two_pow_le small
  have positive := Nat.two_pow_pos bits
  have below := Nat.mod_lt (tail + 1) positive
  refine ⟨held.holds.oldest held.below, ?_, load_store_small _ _ (by decide) (by omega), ?_, below,
    Nat.lt_of_succ_lt held.room, ?_⟩
  · rw [load_store_offsets _ _ (by decide) (by decide) (by decide) (by decide) (by decide), held.headWord,
      RingBuffer.head_pop tail _ q e]
  · rw [load_store_offsets _ _ (by decide) (by decide) (by decide) (by decide) (by decide), held.maskWord]
  · refine held.holds.pop.congr positive fun j less => ?_
    rw [slotAt, slotAt, load_store_offsets _ _ (by omega) (by decide) (by decide) (by decide) (by omega),
      load_store_offsets _ _ (by omega) (by decide) (by decide) (by decide) (by omega)]

end RingAt

end Words

/-! ### Execution -/

variable {L : Listing} {M : Machine}

/-- Where the ring lies. -/
def ringBase (L : Listing) : Word := L.address (data "__dmaring")

theorem slotAddress_meets (index : Reg) (k : Cpu) : L.Meets (slotAddress index) k fun k' =>
    k'.reg .rax = k.reg index <<< 4 + 16#64 + k.reg .r8 ∧ (∀ r, r ≠ .rax → k'.reg r = k.reg r) ∧ k'.mem = k.mem := by
  obtain ⟨f, shift⟩ : ∃ f, (shlRegImm8 .rax 4).effect L.env L.address (k.set .rax (k.reg index)) = some
      (((k.set .rax (k.reg index)).set .rax (k.reg index <<< 4)).setFlags f) :=
    ⟨_, @effect_shlRegImm8 L.env L.address (k.set .rax (k.reg index)) .rax 4 (by decide)⟩
  change L.Meets ([.movRegReg .rax index, shlRegImm8 .rax 4, addRegImm .rax 16] ++ [addRegReg .rax .r8]) k _
  refine .append (P := fun k' => k'.reg .rax = k.reg index <<< 4 + 16#64 ∧ (∀ r, r ≠ .rax → k'.reg r = k.reg r) ∧
    k'.mem = k.mem) (.straight (by simp [shift]; rfl) ⟨?_, fun r other => ?_, ?_⟩) fun k' there => ?_
  · simp
  · simp [other]
  · simp
  · obtain ⟨rax, others, mem⟩ := there
    refine .straight (by simp; rfl) ⟨?_, fun r other => ?_, ?_⟩
    · simp [rax, others]
    · simpa [other] using others r other
    · simpa using mem

/-- Memory has changed only in the ring and in the four words just below the stack pointer. -/
def RingOnly (L : Listing) (slots : Nat) (c d : Cpu) : Prop :=
  ∀ x : Word, ringBytes slots ≤ (x - ringBase L).toNat → 32 ≤ (x - (c.reg .rsp - 32)).toNat → d.mem x = c.mem x

/-- The registers apart from RAX and the scratch registers. -/
def RingKept (c d : Cpu) : Prop := ∀ r, r ∉ Reg.rax :: RING_TEMPS → d.reg r = c.reg r

theorem slotWord_meets {o : Operand} (outside : o.Outside RING_BUSY) (disp : Int) {m k : Cpu} (kept : RingKept m k) :
    L.Meets (slotWord o disp) k fun k' => RingKept m k' ∧ (∀ r, r ≠ .rax → k'.reg r = k.reg r) ∧
      k'.mem = k.mem.store (k.reg .r10 + BitVec.ofInt 64 disp) 8 (o.value L.address m) := by
  have same : o.value L.address k = o.value L.address m := by
    refine outside.value_eq fun r user other => kept r ?_
    have notScratch := ((user_iff r).mp user).2.2.1
    simp only [RING_BUSY, RING_TEMPS, List.mem_cons, List.not_mem_nil, or_false, not_or] at other ⊢
    exact ⟨other.1, other.2.1, other.2.2.1, other.2.2.2, notScratch⟩
  refine .append (P := (· = k.set .rax (o.value L.address m))) (.straight (by rw [mov_effects, same]) rfl) fun _ there => ?_
  subst there
  refine .straight (by simp [store64]; rfl) ⟨fun r other => ?_, fun r other => ?_, ?_⟩
  · have notRax : r ≠ .rax := fun is => other (is ▸ List.mem_cons_self)
    simpa [notRax] using kept r other
  · simp [other]
  · simp

/-- What a push has in its registers once it has read the header: the ring, its head and its mask. -/
structure PushReady (L : Listing) (bits h : Nat) (m k : Cpu) : Prop where
  r8 : k.reg .r8 = ringBase L
  r9 : k.reg .r9 = BitVec.ofNat 64 h
  r11 : k.reg .r11 = BitVec.ofNat 64 (2 ^ bits - 1)
  kept : RingKept m k

theorem PushReady.congr {bits h : Nat} {m k k' : Cpu} (ready : PushReady L bits h m k) (kept : RingKept m k')
    (same : ∀ r ∈ [Reg.r8, .r9, .r11], k'.reg r = k.reg r) : PushReady L bits h m k' :=
  ⟨(same .r8 (by decide)).trans ready.r8, (same .r9 (by decide)).trans ready.r9,
    (same .r11 (by decide)).trans ready.r11, kept⟩

/-- What a piece of code between the saved registers has done: the registers of `changed` may have changed, RAX holds
a status, and memory has changed in the ring only. -/
structure RingDone (L : Listing) (bits : Nat) (changed : List Reg) (status : Word) (m k : Cpu) : Prop where
  kept : ∀ r, r ∉ changed → r ∉ Reg.rax :: RING_TEMPS → k.reg r = m.reg r
  rax : k.reg .rax = status
  only : OnlyIn (ringBase L) (ringBytes (2 ^ bits)) m.mem k.mem

/-- The same after the registers have been restored. -/
structure RingLeft (L : Listing) (bits : Nat) (changed : List Reg) (status : Word) (c d : Cpu) : Prop where
  kept : ∀ r, r ∉ changed → r ≠ .rax → d.reg r = c.reg r
  rax : d.reg .rax = status
  only : RingOnly L (2 ^ bits) c d

theorem RingDone.restored {bits : Nat} {changed : List Reg} {status : Word} {c m k d : Cpu}
    (done : RingDone L bits changed status m k) (saved : Saved RING_TEMPS c m) (back : Back RING_TEMPS c k d) :
    RingLeft L bits changed status c d := by
  refine ⟨fun r other notRax => ?_, ?_, fun x outside below => ?_⟩
  · by_cases temp : r ∈ RING_TEMPS
    · exact back.saved r temp
    · by_cases sp : r = .rsp
      · rw [sp]
        exact back.sp
      · rw [back.others r temp sp, done.kept r other (by simp [notRax, temp])]
        exact saved.regs r sp
  · rw [back.others .rax (by decide) (by decide)]
    exact done.rax
  · rw [back.mem, done.only x outside]
    refine saved.mem x ?_
    rw [saved.sp]
    exact below

theorem RingDone.keeps {bits : Nat} {changed : List Reg} {status : Word} {c m k : Cpu}
    (done : RingDone L bits changed status m k) (notSp : .rsp ∉ changed) (saved : Saved RING_TEMPS c m)
    (clear : StackClear L c 32 "__dmaring" (ringBytes (2 ^ bits))) :
    k.reg .rsp = m.reg .rsp ∧ SameOn (m.reg .rsp) (8 * RING_TEMPS.length) m.mem k.mem :=
  ⟨done.kept .rsp notSp (by decide), saved.keeps clear (by decide) done.only⟩

section Push

variable {bits tail : Nat} {q : List (Word × Word)} {m : Cpu}

/-- The header is read, and the head after the next entry is compared with the tail. -/
theorem pushHeader_meets (small : bits ≤ 27) (held : RingAt m.mem (ringBase L) bits tail q) :
    L.Meets ([.leaRegLabel .r8 (data "__dmaring"), load32 .r9 .r8 0, load32 .r10 .r8 4, load32 .r11 .r8 8] ++
      nextHead ++ [cmpRegReg .rax .r10]) m fun k => PushReady L bits ((tail + q.length) % 2 ^ bits) m k ∧ k.mem = m.mem ∧
        k.flags.zf = decide (q.length + 1 = 2 ^ bits) := by
  have le := two_pow_le small
  have full := RingBuffer.next_eq_tail_iff held.below held.room
  have headWord := held.headWord
  have tailWord := held.tailWord
  have maskWord := held.maskWord
  have below := held.below
  obtain ⟨h, head⟩ : ∃ h, (tail + q.length) % 2 ^ bits = h := ⟨_, rfl⟩
  rw [head] at full headWord ⊢
  have next := masked_succ small h
  have inRange := Nat.mod_lt (h + 1) (Nat.two_pow_pos bits)
  simp only [ringBase, BitVec.add_zero] at headWord tailWord maskWord
  refine .straight (by simp [nextHead, load32]; rfl) ⟨⟨?_, ?_, ?_, fun r other => ?_⟩, ?_, ?_⟩
  · simp [ringBase]
  · simp [headWord]
  · simp [maskWord]
  · simp only [RING_TEMPS, List.mem_cons, List.not_mem_nil, or_false, not_or] at other
    simp [other]
  · simp
  · simp [X64.sub_zf, headWord, maskWord, tailWord, next, ofNat_inj (show (h + 1) % 2 ^ bits < 2 ^ 64 by omega)
      (show tail < 2 ^ 64 by omega), full]

theorem slotPointer_meets {h : Nat} {k : Cpu} (ready : PushReady L bits h m k) :
    L.Meets (slotAddress .r9 ++ [.movRegReg .r10 .rax]) k fun k' => PushReady L bits h m k' ∧ k'.mem = k.mem ∧
      k'.reg .r10 = ringBase L + BitVec.ofNat 64 (16 + 16 * h) := by
  refine .append (slotAddress_meets .r9 k) fun k' there => ?_
  obtain ⟨rax, others, mem⟩ := there
  rw [ready.r8, ready.r9, slot_address] at rax
  refine .straight (by simp; rfl) ⟨ready.congr (fun r other => ?_) fun r member => ?_, by simpa using mem, by simpa using rax⟩
  · have there := ready.kept r other
    simp only [RING_TEMPS, List.mem_cons, List.not_mem_nil, or_false, not_or] at other
    simpa [other, others r other.1] using there
  · have general : ∀ r ∈ [Reg.r8, .r9, .r11], r ≠ .rax ∧ r ≠ .r10 := by decide
    obtain ⟨notRax, notTop⟩ := general r member
    simpa [notTop] using others r notRax

theorem moveHead_meets (small : bits ≤ 27) {h : Nat} {k : Cpu} (ready : PushReady L bits h m k) :
    L.Meets (nextHead ++ [store32 .r8 0 .rax, xorRegReg .rax .rax]) k fun k' => RingKept m k' ∧ k'.reg .rax = 0 ∧
      k'.mem = k.mem.store (ringBase L + BitVec.ofNat 64 0) 4 (BitVec.ofNat 64 ((h + 1) % 2 ^ bits)) := by
  obtain ⟨r8, r9, r11, kept⟩ := ready
  have next := masked_succ small h
  refine .straight (by simp [nextHead, store32]; rfl) ⟨fun r other => ?_, ?_, ?_⟩
  · have there := kept r other
    simp only [RING_TEMPS, List.mem_cons, List.not_mem_nil, or_false, not_or] at other
    simpa [other] using there
  · simp
  · simp [r8, r9, r11, next]

/-- An entry is appended, with status 0, or the ring is full and stays as it is, with status 1. -/
def RingPushed (L : Listing) (bits tail : Nat) (q : List (Word × Word)) (e : Word × Word) (c d : Cpu) : Prop :=
  if q.length + 1 < 2 ^ bits then RingLeft L bits [] 0 c d ∧ RingAt d.mem (ringBase L) bits tail (q ++ [e])
  else RingLeft L bits [] 1 c d ∧ SameOn (ringBase L) (ringBytes (2 ^ bits)) c.mem d.mem

theorem ringPush_meets {c : Cpu} (small : bits ≤ 27) (held : RingAt c.mem (ringBase L) bits tail q)
    (clear : StackClear L c 32 "__dmaring" (ringBytes (2 ^ bits))) {a l : Operand} (outside : a.Outside RING_BUSY)
    (outside' : l.Outside RING_BUSY) (full ok : String) :
    L.Meets (ringPushCalls a l full ok) c (RingPushed L bits tail q (a.value L.address c, l.value L.address c) c) := by
  have le := two_pow_le small
  have positive := Nat.two_pow_pos bits
  refine .saving (by decide) (by decide) (by decide) fun m saved => ?_
  have same : SameOn (ringBase L) (ringBytes (2 ^ bits)) c.mem m.mem := saved.sameOn clear
  have held := held.of_sameOn small same
  have valueA : a.value L.address m = a.value L.address c :=
    outside.value_eq fun r user _ => saved.regs r ((user_iff r).mp user).1
  have valueL : l.value L.address m = l.value L.address c :=
    outside'.value_eq fun r user _ => saved.regs r ((user_iff r).mp user).1
  refine .append (pushHeader_meets small held) fun k header => ?_
  obtain ⟨ready, mem, zf⟩ := header
  have bound := held.room
  -- The ring is full when the head would meet the tail.
  refine .either (by decide : jumpCondition "eq" = some .e) (fun fails => ?_) fun holds => ?_
  · have room : q.length + 1 ≠ 2 ^ bits := by simpa [X64.Cond.holds, zf] using fails
    have less : q.length + 1 < 2 ^ bits := by omega
    refine .append (slotPointer_meets ready) fun k₁ pointed => ?_
    obtain ⟨ready, mem₁, r10⟩ := pointed
    refine .append (slotWord_meets outside 0 ready.kept) fun k₂ first => ?_
    obtain ⟨kept₂, others₂, mem₂⟩ := first
    have ready₂ := ready.congr kept₂ fun r member => others₂ r fun is => by subst is; exact absurd member (by decide)
    refine .append (slotWord_meets outside' 8 ready₂.kept) fun k₃ second => ?_
    obtain ⟨kept₃, others₃, mem₃⟩ := second
    have ready₃ := ready₂.congr kept₃ fun r member => others₃ r fun is => by subst is; exact absurd member (by decide)
    refine .mono (moveHead_meets small ready₃) fun k₄ moved => ?_
    obtain ⟨kept₄, rax, mem₄⟩ := moved
    obtain ⟨h, head⟩ : ∃ h, (tail + q.length) % 2 ^ bits = h := ⟨_, rfl⟩
    have slot : h < 2 ^ bits := head ▸ Nat.mod_lt _ positive
    have pushed := held.push small less (a.value L.address c) (l.value L.address c) head.symm
    rw [head] at r10 mem₄
    -- The two words of the slot and then the head: nothing else is stored.
    have cells : k₄.mem = ((m.mem.store (ringBase L + BitVec.ofNat 64 (16 + 16 * h)) 8 (a.value L.address c)).store
        (ringBase L + BitVec.ofNat 64 (16 + 16 * h + 8)) 8 (l.value L.address c)).store (ringBase L + BitVec.ofNat 64 0) 4
        (BitVec.ofNat 64 ((h + 1) % 2 ^ bits)) := by
      have zero : BitVec.ofInt 64 0 = 0#64 := rfl
      have eight : ringBase L + BitVec.ofNat 64 (16 + 16 * h) + BitVec.ofInt 64 8 =
          ringBase L + BitVec.ofNat 64 (16 + 16 * h + 8) := by
        rw [BitVec.ofNat_add _ 8, ← BitVec.add_assoc]
        rfl
      rw [mem₄, mem₃, mem₂, mem₁, mem, others₂ .r10 (by decide), r10, zero, BitVec.add_zero, eight, valueA, valueL]
    have only : OnlyIn (ringBase L) (ringBytes (2 ^ bits)) m.mem k₄.mem := by
      rw [cells]
      exact ((OnlyIn.store _ (by unfold ringBytes; omega) (by unfold ringBytes; omega) _).trans
        (.store _ (by unfold ringBytes; omega) (by unfold ringBytes; omega) _)).trans
        (.store _ (by unfold ringBytes; omega) (by unfold ringBytes; omega) _)
    have done : RingDone L bits [] 0 m k₄ := ⟨fun r _ => kept₄ r, rax, only⟩
    obtain ⟨sp, window⟩ := done.keeps (by decide) saved clear
    refine ⟨sp, window, fun d back => ?_⟩
    rw [RingPushed, if_pos less]
    refine ⟨done.restored saved back, ?_⟩
    rw [back.mem, cells]
    exact pushed
  · have full : q.length + 1 = 2 ^ bits := by simpa [X64.Cond.holds, zf] using holds
    refine .straight (by simp; rfl) ?_
    have done : RingDone L bits [] 1 m (k.set .rax 1) := by
      refine ⟨fun r _ other => ?_, rfl, mem ▸ .refl _ _ _⟩
      have notRax : r ≠ .rax := fun is => other (is ▸ List.mem_cons_self)
      simpa [notRax] using ready.kept r other
    obtain ⟨sp, window⟩ := done.keeps (by decide) saved clear
    refine ⟨sp, window, fun d back => ?_⟩
    rw [RingPushed, if_neg (by omega)]
    refine ⟨done.restored saved back, ?_⟩
    rw [back.mem]
    exact same.trans (mem ▸ .refl _ _ _)

end Push

section Pop

variable {bits tail : Nat} {q : List (Word × Word)} {m : Cpu}

/-- What a pop has in its registers once it has read the header. -/
structure PopReady (L : Listing) (tail : Nat) (m k : Cpu) : Prop where
  r8 : k.reg .r8 = ringBase L
  r10 : k.reg .r10 = BitVec.ofNat 64 tail
  kept : RingKept m k
  mem : k.mem = m.mem

theorem popHeader_meets (small : bits ≤ 27) (held : RingAt m.mem (ringBase L) bits tail q) :
    L.Meets [.leaRegLabel .r8 (data "__dmaring"), load32 .r9 .r8 0, load32 .r10 .r8 4, cmpRegReg .r9 .r10] m fun k =>
      PopReady L tail m k ∧ k.flags.zf = decide (q = []) := by
  have le := two_pow_le small
  have none := RingBuffer.head_eq_tail_iff held.below held.room
  have inRange := Nat.mod_lt (tail + q.length) (Nat.two_pow_pos bits)
  have headWord := held.headWord
  have tailWord := held.tailWord
  have below := held.below
  simp only [ringBase, BitVec.add_zero] at headWord tailWord
  refine .straight (by simp [load32]; rfl) ⟨⟨?_, ?_, fun r other => ?_, ?_⟩, ?_⟩
  · simp [ringBase]
  · simp [tailWord]
  · simp only [RING_TEMPS, List.mem_cons, List.not_mem_nil, or_false, not_or] at other
    simp [other]
  · simp
  · simp [X64.sub_zf, headWord, tailWord, ofNat_inj (show (tail + q.length) % 2 ^ bits < 2 ^ 64 by omega)
      (show tail < 2 ^ 64 by omega), none]

/-- The pair of the slot at the tail goes to the destinations. -/
theorem popSlot_meets (held : RingAt m.mem (ringBase L) bits tail q) {k : Cpu} (ready : PopReady L tail m k)
    {da dl : Reg} (free : da ∉ Reg.rax :: RING_TEMPS) (free' : dl ∉ Reg.rax :: RING_TEMPS) (distinct : da ≠ dl) :
    L.Meets ((load32 .r11 .r8 8 :: slotAddress .r10) ++ [load64 da .rax 0, load64 dl .rax 8]) k fun k' =>
      k'.reg .r8 = ringBase L ∧ k'.reg .r10 = BitVec.ofNat 64 tail ∧ k'.reg .r11 = BitVec.ofNat 64 (2 ^ bits - 1) ∧
        (k'.reg da, k'.reg dl) = slotAt m.mem (ringBase L) tail ∧
        (∀ r, r ∉ [da, dl] → r ∉ Reg.rax :: RING_TEMPS → k'.reg r = m.reg r) ∧ k'.mem = m.mem := by
  obtain ⟨r8, r10, kept, mem⟩ := ready
  have maskWord := held.maskWord
  have first : L.Meets ([load32 .r11 .r8 8] ++ slotAddress .r10) k fun k' =>
      k'.reg .r8 = ringBase L ∧ k'.reg .r10 = BitVec.ofNat 64 tail ∧ k'.reg .r11 = BitVec.ofNat 64 (2 ^ bits - 1) ∧
        k'.reg .rax = ringBase L + BitVec.ofNat 64 (16 + 16 * tail) ∧ RingKept m k' ∧ k'.mem = m.mem := by
    refine .append (P := (· = k.set .r11 (BitVec.ofNat 64 (2 ^ bits - 1)))) (.straight (by simp [load32]; rfl) ?_)
      fun _ loaded => ?_
    · simp [r8, mem, maskWord]
    · subst loaded
      refine .mono (slotAddress_meets .r10 _) fun k' there => ?_
      obtain ⟨rax, others, mem'⟩ := there
      refine ⟨?_, ?_, ?_, ?_, fun r other => ?_, mem'.trans mem⟩
      · simpa [r8] using others .r8 (by decide)
      · simpa [r10] using others .r10 (by decide)
      · simpa using others .r11 (by decide)
      · have pointer := slot_address (ringBase L) tail
        simpa [r8, r10, pointer] using rax
      · have same := kept r other
        simp only [RING_TEMPS, List.mem_cons, List.not_mem_nil, or_false, not_or] at other
        simpa [other, same] using others r other.1
  refine .append first fun k' there => ?_
  obtain ⟨r8', r10', r11', rax', kept', mem'⟩ := there
  simp only [RING_TEMPS, List.mem_cons, List.not_mem_nil, or_false, not_or] at free free'
  refine .straight (by simp [load64]; rfl) ⟨?_, ?_, ?_, ?_, fun r other notTemp => ?_, ?_⟩
  · simpa [Ne.symm free.2.1, Ne.symm free'.2.1] using r8'
  · simpa [Ne.symm free.2.2.2.1, Ne.symm free'.2.2.2.1] using r10'
  · simpa [Ne.symm free.2.2.2.2, Ne.symm free'.2.2.2.2] using r11'
  · have eight : ringBase L + BitVec.ofNat 64 (16 + 16 * tail) + 8#64 =
        ringBase L + BitVec.ofNat 64 (16 + 16 * tail + 8) := by
      rw [BitVec.ofNat_add (16 + 16 * tail) 8, ← BitVec.add_assoc]
    simp [slotAt, distinct, Ne.symm free.1, rax', mem', eight]
  · have there := kept' r notTemp
    simp only [List.mem_cons, List.not_mem_nil, or_false, not_or] at other
    simpa [other] using there
  · simpa using mem'

/-- The tail moves on past the slot. -/
theorem moveTail_meets (small : bits ≤ 27) {k : Cpu} (r8 : k.reg .r8 = ringBase L) (r10 : k.reg .r10 = BitVec.ofNat 64 tail)
    (r11 : k.reg .r11 = BitVec.ofNat 64 (2 ^ bits - 1)) :
    L.Meets [addRegImm .r10 1, andRegReg .r10 .r11, store32 .r8 4 .r10, xorRegReg .rax .rax] k fun k' =>
      k'.reg .rax = 0 ∧ (∀ r, r ∉ Reg.rax :: RING_TEMPS → k'.reg r = k.reg r) ∧
        k'.mem = k.mem.store (ringBase L + BitVec.ofNat 64 4) 4 (BitVec.ofNat 64 ((tail + 1) % 2 ^ bits)) := by
  have next := masked_succ small tail
  refine .straight (by simp [store32]; rfl) ⟨?_, fun r other => ?_, ?_⟩
  · simp
  · simp only [RING_TEMPS, List.mem_cons, List.not_mem_nil, or_false, not_or] at other
    simp [other]
  · simp [r8, r10, r11, next]

/-- The oldest entry goes to the destinations, with status 0, or there is none and the ring stays as it is, with
status 1. -/
def RingPopped (L : Listing) (bits tail : Nat) (q : List (Word × Word)) (da dl : Reg) (c d : Cpu) : Prop :=
  match q with
  | [] => RingLeft L bits [] 1 c d ∧ SameOn (ringBase L) (ringBytes (2 ^ bits)) c.mem d.mem
  | e :: rest => RingLeft L bits [da, dl] 0 c d ∧ (d.reg da, d.reg dl) = e ∧
      RingAt d.mem (ringBase L) bits ((tail + 1) % 2 ^ bits) rest

theorem ringPop_meets {c : Cpu} (small : bits ≤ 27) (held : RingAt c.mem (ringBase L) bits tail q)
    (clear : StackClear L c 32 "__dmaring" (ringBytes (2 ^ bits))) {da dl : Reg} (user : User da) (user' : User dl)
    (free : da ∉ RING_BUSY) (free' : dl ∉ RING_BUSY) (distinct : da ≠ dl) (empty ok : String) :
    L.Meets (ringPopCalls da dl empty ok) c (RingPopped L bits tail q da dl c) := by
  have le := two_pow_le small
  -- The two destinations are none of the registers that the code writes or restores.
  have apart (r : Reg) (user : User r) (free : r ∉ RING_BUSY) : r ∉ Reg.rax :: RING_TEMPS ∧ r ≠ .rsp := by
    obtain ⟨notSp, -, notScratch, -⟩ := (user_iff r).mp user
    simp only [RING_BUSY, RING_TEMPS, List.mem_cons, List.not_mem_nil, or_false, not_or] at free ⊢
    exact ⟨⟨free.1, free.2.1, free.2.2.1, free.2.2.2, notScratch⟩, notSp⟩
  obtain ⟨freeA, notSpA⟩ := apart da user free
  obtain ⟨freeL, notSpL⟩ := apart dl user' free'
  refine .saving (by decide) (by decide) (by decide) fun m saved => ?_
  have same : SameOn (ringBase L) (ringBytes (2 ^ bits)) c.mem m.mem := saved.sameOn clear
  have held := held.of_sameOn small same
  refine .append (popHeader_meets small held) fun k header => ?_
  obtain ⟨ready, zf⟩ := header
  -- The ring is empty when the head meets the tail.
  refine .either (by decide : jumpCondition "eq" = some .e) (fun fails => ?_) fun holds => ?_
  · have some : q ≠ [] := by simpa [X64.Cond.holds, zf] using fails
    obtain ⟨e, rest, shape⟩ := List.exists_cons_of_ne_nil some
    subst shape
    obtain ⟨oldest, popped⟩ := held.pop small
    rw [← List.append_assoc]
    refine .append (popSlot_meets held ready freeA freeL distinct) fun k₁ there => ?_
    obtain ⟨r8, r10, r11, values, kept, mem⟩ := there
    refine .mono (moveTail_meets small r8 r10 r11) fun k₂ moved => ?_
    obtain ⟨rax, others, mem₂⟩ := moved
    rw [mem] at mem₂
    have only : OnlyIn (ringBase L) (ringBytes (2 ^ bits)) m.mem k₂.mem := by
      rw [mem₂]
      exact .store _ (by unfold ringBytes; omega) (by unfold ringBytes; omega) _
    have done : RingDone L bits [da, dl] 0 m k₂ :=
      ⟨fun r other notTemp => (others r notTemp).trans (kept r other notTemp), rax, only⟩
    obtain ⟨sp, window⟩ := done.keeps (by simp [Ne.symm notSpA, Ne.symm notSpL]) saved clear
    refine ⟨sp, window, fun d back => ⟨done.restored saved back, ?_, ?_⟩⟩
    · rw [back.others da (fun temp => freeA (List.mem_cons_of_mem _ temp)) notSpA, others da freeA,
        back.others dl (fun temp => freeL (List.mem_cons_of_mem _ temp)) notSpL, others dl freeL, values, oldest]
    · rw [back.mem, mem₂]
      exact popped
  · have none : q = [] := by simpa [X64.Cond.holds, zf] using holds
    subst none
    refine .straight (by simp; rfl) ?_
    have done : RingDone L bits [] 1 m (k.set .rax 1) := by
      refine ⟨fun r _ other => ?_, rfl, ready.mem ▸ .refl _ _ _⟩
      have notRax : r ≠ .rax := fun is => other (is ▸ List.mem_cons_self)
      simpa [notRax] using ready.kept r other
    obtain ⟨sp, window⟩ := done.keeps (by decide) saved clear
    refine ⟨sp, window, fun d back => ⟨done.restored saved back, ?_⟩⟩
    rw [back.mem]
    exact same.trans (ready.mem ▸ .refl _ _ _)

end Pop

/-! ### Initialisation and runs -/

theorem ringInit_meets {bits : Nat} (small : bits ≤ 27) {c : Cpu}
    (clear : StackClear L c 16 "__dmaring" (ringBytes (2 ^ bits))) :
    L.Meets (ringInitCalls (2 ^ bits)) c fun d => RingOnly L (2 ^ bits) c d ∧ RingAt d.mem (ringBase L) bits 0 [] := by
  have le := two_pow_le small
  refine .saving (by decide) (by decide) (by decide) fun m saved => ?_
  obtain ⟨mem, cells⟩ : ∃ mem, ((m.mem.store (ringBase L + BitVec.ofNat 64 0) 8 0).store (ringBase L + BitVec.ofNat 64 4) 8
      0).store (ringBase L + BitVec.ofNat 64 8) 4 (BitVec.ofNat 64 (2 ^ bits - 1)) = mem := ⟨_, rfl⟩
  have holds := RingAt.init m.mem (ringBase L) small
  rw [cells] at holds
  have only : OnlyIn (ringBase L) (ringBytes (2 ^ bits)) m.mem mem := by
    rw [← cells]
    exact ((OnlyIn.store _ (by unfold ringBytes; omega) (by unfold ringBytes; omega) _).trans
      (.store _ (by unfold ringBytes; omega) (by unfold ringBytes; omega) _)).trans
      (.store _ (by unfold ringBytes; omega) (by unfold ringBytes; omega) _)
  have mask : BitVec.ofInt 64 (2 ^ bits - 1) = BitVec.ofNat 64 (2 ^ bits - 1) := by
    rw [show (2 ^ bits - 1 : Int) = ((2 ^ bits - 1 : Nat) : Int) by
      rw [Nat.cast_sub (Nat.one_le_two_pow)]; push_cast; rfl, BitVec.ofInt_natCast]
  have body : L.Meets [.leaRegLabel .rdi (data "__dmaring"), xorRegReg .rax .rax, store64 .rdi 0 .rax, store64 .rdi 4 .rax,
      .movRegImm64 .rax (2 ^ bits - 1), store32 .rdi 8 .rax] m fun k => k.reg .rsp = m.reg .rsp ∧ k.mem = mem := by
    refine .straight (by simp [store64, store32]; rfl) ⟨by simp, ?_⟩
    simp [← cells, mask, ringBase]
  refine .mono body fun k there => ?_
  obtain ⟨sp, same⟩ := there
  refine ⟨sp, saved.keeps clear (by decide) (same ▸ only), fun d back => ⟨fun x outside below => ?_, ?_⟩⟩
  · rw [back.mem, same, only x outside]
    refine saved.mem x ?_
    rw [saved.sp]
    have nearer : (x - (c.reg .rsp - BitVec.ofNat 64 (8 * [Reg.rax, .rdi].length))).toNat ≥ 16 := by
      simp only [List.length_cons, List.length_nil]
      bv_omega
    exact nearer
  · rw [back.mem, same]
    exact holds

/-- The parser's number of slots is the least power of two that is at least two and at least what is asked for. -/
theorem ringSlots_isLeast (n : Int) : IsLeast {s : Nat | (∃ k, s = 2 ^ k) ∧ 2 ≤ s ∧ n ≤ s} (Parser.ringSlots n) := by
  unfold Parser.ringSlots
  obtain ⟨m, asked⟩ : ∃ m, (if n < 2 then 2 else n).toNat = m := ⟨_, rfl⟩
  have two : 2 ≤ m := by
    rw [← asked]
    split <;> omega
  have enough (s : Nat) : 2 ≤ s ∧ n ≤ s ↔ m ≤ s := by
    rw [← asked]
    split <;> omega
  simp only [asked, enough]
  by_cases power : m &&& (m - 1) = 0
  · obtain ⟨k, is⟩ := (Nat.and_sub_one_eq_zero_iff_isPowerOfTwo (by omega)).mp power
    rw [if_neg (by simpa using power)]
    exact ⟨⟨⟨k, is⟩, le_refl m⟩, fun s member => member.2⟩
  · rw [if_pos (by simpa using power), Nat.one_shiftLeft]
    refine ⟨⟨⟨m.size, rfl⟩, (Nat.lt_size_self m).le⟩, fun s member => ?_⟩
    obtain ⟨⟨k, rfl⟩, le⟩ := member
    have different : m ≠ 2 ^ k := fun is => power ((Nat.and_sub_one_eq_zero_iff_isPowerOfTwo (by omega)).mpr ⟨k, is⟩)
    exact Nat.pow_le_pow_right (by decide) (Nat.size_le.mpr (by omega))

/-- A run that begins with `kernel:dma_ring_init n` for a ring of `size` slots, and the queue that it has left: pushes
put entries into a queue of `size` - 1 entries, pops take them out. In between the program may do anything but write to
the ring. -/
inductive RingRun (L : Listing) (M : Machine) (n : Int) (size : Nat) : Cpu → List (Word × Word) → Prop where
  | init {g : CodeGenerator} {c d : Cpu} (clear : StackClear L c 16 "__dmaring" (ringBytes size))
      (executes : Executes L M g (Parser.dmaRingInit n) c d) : RingRun L M n size d []
  | push {g : CodeGenerator} {addr length : Expr} {a l : Operand} {c d : Cpu} {q : List (Word × Word)}
      (run : RingRun L M n size c q) (plain : Plain g RING_BUSY addr a) (plain' : Plain g RING_BUSY length l)
      (clear : StackClear L c 32 "__dmaring" (ringBytes size))
      (executes : Executes L M g (.kernelDmaRingPush addr length) c d) :
      RingRun L M n size d (Fifo.push (size - 1) q (a.value L.address c, l.value L.address c)).2
  | pop {g : CodeGenerator} {destAddr destLen : String} {da dl : Reg} {c d : Cpu} {q : List (Word × Word)}
      (run : RingRun L M n size c q) (named : resolve destAddr = .ok da) (named' : resolve destLen = .ok dl)
      (free : da ∉ RING_BUSY) (free' : dl ∉ RING_BUSY) (distinct : da ≠ dl)
      (clear : StackClear L c 32 "__dmaring" (ringBytes size))
      (executes : Executes L M g (.kernelDmaRingPop destAddr destLen) c d) : RingRun L M n size d (Fifo.pop q).2
  | other {c d : Cpu} {q : List (Word × Word)} (run : RingRun L M n size c q)
      (kept : SameOn (ringBase L) (ringBytes size) c.mem d.mem) : RingRun L M n size d q

theorem RingRun.held (loaded : L.Loaded M) {n : Int} {bits : Nat} (small : bits ≤ 27)
    (slots : Parser.ringSlots n = 2 ^ bits) {c : Cpu} {q : List (Word × Word)} (run : RingRun L M n (2 ^ bits) c q) :
    ∃ tail, RingAt c.mem (ringBase L) bits tail q := by
  induction run with
  | @init g c d clear executes =>
    have appends := ringInit_appends (Parser.ringSlots n) g
    rw [slots] at appends
    have op : Parser.dmaRingInit n = .kernelDmaRingInit (2 ^ bits : Nat) := by rw [Parser.dmaRingInit, slots]
    rw [op] at executes
    have cast : ((2 ^ bits : Nat) : Int) = 2 ^ bits := by push_cast; rfl
    rw [cast] at appends executes
    exact ⟨0, (executes.post loaded appends (ringInit_meets small clear)).2⟩
  | @push g addr length a l c d q _ plain plain' clear executes ih =>
    obtain ⟨tail, held⟩ := ih
    obtain ⟨full, ok, appends⟩ := ringPush_appends plain plain'
    have pushed := executes.post loaded appends (ringPush_meets small held clear plain.outside plain'.outside full ok)
    have bound := held.room
    unfold RingPushed at pushed
    unfold Fifo.push
    split at pushed
    · next room =>
      rw [if_pos (by omega)]
      exact ⟨tail, pushed.2⟩
    · next full =>
      rw [if_neg (by omega)]
      exact ⟨tail, held.of_sameOn small pushed.2⟩
  | @pop g destAddr destLen da dl c d q _ named named' free free' distinct clear executes ih =>
    obtain ⟨tail, held⟩ := ih
    obtain ⟨empty, ok, appends⟩ := @ringPop_appends g _ _ _ _ named named'
    have popped := executes.post loaded appends
      (ringPop_meets small held clear (user_of_resolve named) (user_of_resolve named') free free' distinct empty ok)
    cases q with
    | nil => exact ⟨tail, held.of_sameOn small popped.2⟩
    | cons e rest => exact ⟨_, popped.2.2⟩
  | other _ kept ih =>
    obtain ⟨tail, held⟩ := ih
    exact ⟨tail, held.of_sameOn small kept⟩

/-- The size asked for fits into the 27 bits that keep the ring in an image. -/
theorem exists_bits {n : Int} (fits : n ≤ 2 ^ 27) {size : Nat}
    (least : IsLeast {s : Nat | (∃ k, s = 2 ^ k) ∧ 2 ≤ s ∧ n ≤ s} size) :
    ∃ bits ≤ 27, size = 2 ^ bits ∧ Parser.ringSlots n = 2 ^ bits := by
  have same := least.unique (ringSlots_isLeast n)
  obtain ⟨⟨⟨bits, rfl⟩, -⟩, lower⟩ := least
  have le : 2 ^ bits ≤ 2 ^ 27 := lower ⟨⟨27, rfl⟩, by decide, by exact_mod_cast fits⟩
  exact ⟨bits, (Nat.pow_le_pow_iff_right (by decide)).mp le, rfl, same.symm⟩

/-- The ring is a queue of one entry fewer than it has slots: the number of its slots is the least power of two that is at
least two and the size asked for, a push succeeds exactly where the queue has room, a pop returns the oldest entry, and
nothing is written outside the ring but the words saved on the stack. -/
theorem dma_ring_fifo (loaded : L.Loaded M) {n : Int} (fits : n ≤ 2 ^ 27) {size : Nat}
    (least : IsLeast {s : Nat | (∃ k, s = 2 ^ k) ∧ 2 ≤ s ∧ n ≤ s} size) :
    (∀ (g : CodeGenerator) (c : Cpu) (i : Nat) (calls : List Call), Stands L g (Parser.dmaRingInit n) i calls →
      StackClear L c 16 "__dmaring" (ringBytes size) →
      ∃ d, M.Completes (L.offset i) (L.offset (i + calls.length)) c d ∧ RingOnly L size c d) ∧
    ∀ (c : Cpu) (q : List (Word × Word)), RingRun L M n size c q → q.length ≤ size - 1 ∧
      (∀ (g : CodeGenerator) (addr length : Expr) (a l : Operand) (i : Nat) (calls : List Call),
        Plain g RING_BUSY addr a → Plain g RING_BUSY length l → StackClear L c 32 "__dmaring" (ringBytes size) →
        Stands L g (.kernelDmaRingPush addr length) i calls →
        ∃ d, M.Completes (L.offset i) (L.offset (i + calls.length)) c d ∧ RingOnly L size c d ∧
          (∀ r, r ≠ .rax → d.reg r = c.reg r) ∧
          if q.length < size - 1 then d.reg .rax = 0
          else d.reg .rax = 1 ∧ SameOn (ringBase L) (ringBytes size) c.mem d.mem) ∧
      ∀ (g : CodeGenerator) (destAddr destLen : String) (da dl : Reg) (i : Nat) (calls : List Call),
        resolve destAddr = .ok da → resolve destLen = .ok dl → da ∉ RING_BUSY → dl ∉ RING_BUSY → da ≠ dl →
        StackClear L c 32 "__dmaring" (ringBytes size) → Stands L g (.kernelDmaRingPop destAddr destLen) i calls →
        ∃ d, M.Completes (L.offset i) (L.offset (i + calls.length)) c d ∧ RingOnly L size c d ∧
          match (Fifo.pop q).1 with
          | some e => d.reg .rax = 0 ∧ (d.reg da, d.reg dl) = e ∧ ∀ r, r ∉ [da, dl] → r ≠ .rax → d.reg r = c.reg r
          | none => d.reg .rax = 1 ∧ (∀ r, r ≠ .rax → d.reg r = c.reg r) ∧
              SameOn (ringBase L) (ringBytes size) c.mem d.mem := by
  obtain ⟨bits, small, rfl, slots⟩ := exists_bits fits least
  refine ⟨fun g c i calls stands clear => ?_, fun c q run => ?_⟩
  · have appends := ringInit_appends (Parser.ringSlots n) g
    rw [Parser.dmaRingInit] at stands
    rw [slots] at appends stands
    have cast : ((2 ^ bits : Nat) : Int) = 2 ^ bits := by push_cast; rfl
    rw [cast] at appends stands
    obtain ⟨d, completes, only, -⟩ := stands.executes loaded appends (ringInit_meets small clear)
    exact ⟨d, completes, only⟩
  -- The run invariant: the ring holds the entries of the queue from its tail on.
  · obtain ⟨tail, held⟩ := run.held loaded small slots
    refine ⟨Nat.le_sub_one_of_lt held.room, fun g addr length a l i calls plain plain' clear stands => ?_,
      fun g destAddr destLen da dl i calls named named' free free' distinct clear stands => ?_⟩
    · obtain ⟨full, ok, appends⟩ := ringPush_appends plain plain'
      obtain ⟨d, completes, pushed⟩ :=
        stands.executes loaded appends (ringPush_meets small held clear plain.outside plain'.outside full ok)
      unfold RingPushed at pushed
      split at pushed
      · next room =>
        obtain ⟨⟨kept, rax, only⟩, -⟩ := pushed
        refine ⟨d, completes, only, fun r => kept r List.not_mem_nil, ?_⟩
        rwa [if_pos (by omega)]
      · next full =>
        obtain ⟨⟨kept, rax, only⟩, same⟩ := pushed
        refine ⟨d, completes, only, fun r => kept r List.not_mem_nil, ?_⟩
        rw [if_neg (by omega)]
        exact ⟨rax, same⟩
    · obtain ⟨empty, ok, appends⟩ := @ringPop_appends g _ _ _ _ named named'
      obtain ⟨d, completes, popped⟩ := stands.executes loaded appends
        (ringPop_meets small held clear (user_of_resolve named) (user_of_resolve named') free free' distinct empty ok)
      cases q with
      | nil =>
        obtain ⟨⟨kept, rax, only⟩, same⟩ := popped
        exact ⟨d, completes, only, rax, fun r => kept r List.not_mem_nil, same⟩
      | cons e rest =>
        obtain ⟨⟨kept, rax, only⟩, values, -⟩ := popped
        exact ⟨d, completes, only, rax, values, kept⟩

/-- A ring of four slots: the pair 5, 7 is pushed and popped. -/
theorem dma_ring_fifo_one : ∃ (L : Listing) (M : Machine) (c d : Cpu) (i j : Nat), RingRun L M 3 4 c [(5, 7)] ∧
    M.Completes (L.offset i) (L.offset j) c d ∧ d.reg .rax = 0 ∧ (d.reg .rbx, d.reg .rcx) = (5, 7) := by
  obtain ⟨L, M, loaded, calls, -, -⟩ := Listing.exists_loaded (ringInitCalls 4 ++
    (ringPushCalls (.imm 5) (.imm 7) (freshLabel "dmf" 1) (freshLabel "dmo" 2) ++
      ringPopCalls .rbx .rcx (freshLabel "dme" 1) (freshLabel "dmok" 2))) [(data "__dmaring", 1000)] .silent (by decide +kernel)
  have here : L.At 0 (ringInitCalls 4 ++ (ringPushCalls (.imm 5) (.imm 7) (freshLabel "dmf" 1) (freshLabel "dmo" 2) ++
    ringPopCalls .rbx .rcx (freshLabel "dme" 1) (freshLabel "dmok" 2))) := calls ▸ List.prefix_refl _
  obtain ⟨first, rest⟩ := here.append _
  obtain ⟨second, third⟩ := rest.append _
  have least : IsLeast {s : Nat | (∃ k, s = 2 ^ k) ∧ 2 ≤ s ∧ (3 : Int) ≤ s} 4 := by
    have is : Parser.ringSlots 3 = 4 := by decide
    exact is ▸ ringSlots_isLeast 3
  obtain ⟨inits, runs⟩ := dma_ring_fifo loaded (by decide) least
  have clear (n : Nat) (small : n < 2 ^ 32) (c : Cpu) : StackClear L (c.set .rsp (ringBase L)) n "__dmaring" (ringBytes 4) := by
    change Separate (ringBase L - BitVec.ofNat 64 n) n (ringBase L) 80
    constructor <;> bv_omega
  have init : Stands L (.new false) (Parser.dmaRingInit 3) 0 (ringInitCalls 4) := ⟨⟨_, rfl, rfl⟩, first⟩
  obtain ⟨d₀, initialised, -⟩ := inits _ _ _ _ init (clear 16 (by decide) (Cpu.filled 0))
  have empty : RingRun L M 3 4 (d₀.set .rsp (ringBase L)) [] :=
    .other (.init (clear 16 (by decide) (Cpu.filled 0)) ⟨_, _, init, initialised⟩) (.refl _ _ _)
  have push : Stands L (.new false) (.kernelDmaRingPush (.number 5) (.number 7)) _ _ := ⟨⟨_, rfl, rfl⟩, second⟩
  obtain ⟨d₁, pushed, -⟩ := (runs _ _ empty).2.1 _ _ _ _ _ _ _ (.number 5) (.number 7) (clear 32 (by decide) d₀) push
  have one : RingRun L M 3 4 (d₁.set .rsp (ringBase L)) [(5, 7)] :=
    .other (.push empty (.number 5) (.number 7) (clear 32 (by decide) d₀) ⟨_, _, push, pushed⟩) (.refl _ _ _)
  have pop : Stands L (.new false) (.kernelDmaRingPop "reg2" "reg3") _ _ := ⟨⟨_, rfl, rfl⟩, third⟩
  obtain ⟨d₂, popped, -, rax, values, -⟩ := (runs _ _ one).2.2 _ _ _ .rbx .rcx _ _ (by decide) (by decide) (by decide) (by decide)
    (by decide) (clear 32 (by decide) d₁) pop
  exact ⟨L, M, _, d₂, _, _, one, popped, rax, values⟩

end Aclm.Codegen
