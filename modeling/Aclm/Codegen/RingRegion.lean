import Aclm.Codegen.Ring
import Aclm.Codegen.Offsets

/-! The memory that pushes and pops of the DMA ring touch, when it is initialised again and again. -/

set_option autoImplicit false

namespace Aclm.Codegen

open X64 (Word Reg Cpu Env Machine Memory Covered covered_nil covered_cons)
open X64.Memory (Separate SameOn OnlyIn Zeros range mem_range)
open Encoder

variable {L : Listing} {M : Machine} {slots : Nat}

/-! ### The header -/

/-- The head, the tail and the mask of the ring are numbers of slots. -/
structure RingSound (m : Memory) (ring : Word) (slots : Nat) : Prop where
  head : (m.load (ring + BitVec.ofNat 64 0) 4).toNat < slots
  tail : (m.load (ring + BitVec.ofNat 64 4) 4).toNat < slots
  mask : (m.load (ring + BitVec.ofNat 64 8) 4).toNat < slots

theorem load_lt (m : Memory) (a : Word) : (m.load a 4).toNat < 2 ^ 32 := by
  have bound := X64.leValue_lt (m.bytes a 4)
  rw [X64.Memory.bytes_length] at bound
  rw [X64.Memory.load, BitVec.toNat_ofNat]
  exact (Nat.mod_le _ _).trans_lt bound

/-- What is loaded from where a word has been stored is at most that word. -/
theorem load_store_le (m : Memory) (a v : Word) : ((m.store a 4 v).load a 4).toNat ≤ v.toNat := by
  rw [X64.Memory.load_store m a 4 v (by decide), BitVec.toNat_ofNat]
  exact (Nat.mod_le _ _).trans (Nat.mod_le _ _)

namespace RingSound

variable {m m' : Memory} {ring : Word}

theorem of_sameOn (sound : RingSound m ring slots) (same : SameOn ring 16 m m') : RingSound m' ring slots := by
  obtain ⟨head, tail, mask⟩ := sound
  rw [← same.load (by decide) (by decide)] at head tail mask
  exact ⟨head, tail, mask⟩

theorem of_zeros (zeros : Zeros ring 16 m) (positive : 0 < slots) : RingSound m ring slots := by
  have zero {i : Nat} (inside : i + 4 ≤ 16) : (m.load (ring + BitVec.ofNat 64 i) 4).toNat < slots := by
    rw [zeros.load inside (by decide)]
    exact positive
  exact ⟨zero (by decide), zero (by decide), zero (by decide)⟩

theorem setHead (sound : RingSound m ring slots) {v : Word} (small : v.toNat < slots) :
    RingSound (m.store (ring + BitVec.ofNat 64 0) 4 v) ring slots := by
  refine ⟨(load_store_le ..).trans_lt small, ?_, ?_⟩
  · rw [load_store_offsets _ _ (by decide) (by decide) (by decide) (by decide) (by decide)]
    exact sound.tail
  · rw [load_store_offsets _ _ (by decide) (by decide) (by decide) (by decide) (by decide)]
    exact sound.mask

theorem setTail (sound : RingSound m ring slots) {v : Word} (small : v.toNat < slots) :
    RingSound (m.store (ring + BitVec.ofNat 64 4) 4 v) ring slots := by
  refine ⟨?_, (load_store_le ..).trans_lt small, ?_⟩
  · rw [load_store_offsets _ _ (by decide) (by decide) (by decide) (by decide) (by decide)]
    exact sound.head
  · rw [load_store_offsets _ _ (by decide) (by decide) (by decide) (by decide) (by decide)]
    exact sound.mask

/-- A store into a slot. -/
theorem setSlot (sound : RingSound m ring slots) {k : Nat} (behind : 16 ≤ k) (fits : k + 8 ≤ 2 ^ 64) (v : Word) :
    RingSound (m.store (ring + BitVec.ofNat 64 k) 8 v) ring slots := by
  have other {i : Nat} (inside : i + 4 ≤ 16) : (m.store (ring + BitVec.ofNat 64 k) 8 v).load (ring + BitVec.ofNat 64 i) 4 =
      m.load (ring + BitVec.ofNat 64 i) 4 :=
    load_store_offsets _ _ (by omega) (by decide) (by decide) (by omega) (by omega) v
  refine ⟨?_, ?_, ?_⟩
  · rw [other (by decide)]
    exact sound.head
  · rw [other (by decide)]
    exact sound.tail
  · rw [other (by decide)]
    exact sound.mask

/-- The header that is left by an initialisation with another number of slots. -/
theorem init (m : Memory) (ring : Word) {v : Word} (small : v.toNat < slots) :
    RingSound (((m.store (ring + BitVec.ofNat 64 0) 8 0).store (ring + BitVec.ofNat 64 4) 8 0).store
      (ring + BitVec.ofNat 64 8) 4 v) ring slots := by
  refine ⟨?_, ?_, (load_store_le ..).trans_lt small⟩
  · rw [load_store_offsets _ _ (by decide) (by decide) (by decide) (by decide) (by decide),
      load_store_offsets _ _ (by decide) (by decide) (by decide) (by decide) (by decide), load_store_zero _ _ (by decide) (by decide)]
    exact Nat.zero_lt_of_lt small
  · rw [load_store_offsets _ _ (by decide) (by decide) (by decide) (by decide) (by decide), load_store_zero _ _ (by decide) (by decide)]
    exact Nat.zero_lt_of_lt small

end RingSound

/-! ### The region -/

/-- The bytes of the ring, and the four words below the stack pointer that the registers are saved in. -/
def ringRegion (L : Listing) (slots : Nat) (c : Cpu) : Set Word :=
  range (ringBase L) (ringBytes slots) ∪ range (c.reg .rsp - BitVec.ofNat 64 32) 32

theorem range_offset {a : Word} {i n k : Nat} (inside : i + n ≤ k) (fits : i + n ≤ 2 ^ 64) :
    range (a + BitVec.ofNat 64 i) n ⊆ range a k := by
  intro x member
  rw [mem_range] at member ⊢
  bv_omega

section Region

variable {c : Cpu}

theorem header_region {i : Nat} (inside : i + 4 ≤ 16) : range (ringBase L + BitVec.ofNat 64 i) 4 ⊆ ringRegion L slots c :=
  (range_offset (by unfold ringBytes; omega) (by omega)).trans Set.subset_union_left

theorem slot_region {j i : Nat} (slot : j < slots) (small : j < 2 ^ 32) (word : i = 0 ∨ i = 8) :
    range (ringBase L + BitVec.ofNat 64 (16 + 16 * j + i)) 8 ⊆ ringRegion L slots c :=
  (range_offset (by unfold ringBytes; omega) (by omega)).trans Set.subset_union_left

end Region

/-! ### A push -/

/-- The number in a word of the header. -/
def headerWord (L : Listing) (m : Memory) (i : Nat) : Word := m.load (ringBase L + BitVec.ofNat 64 i) 4

/-- What a push or a pop has in its registers once it has read the header. -/
structure HeaderRead (L : Listing) (index : Reg) (i : Nat) (m k : Cpu) : Prop where
  r8 : k.reg .r8 = ringBase L
  number : k.reg index = headerWord L m.mem i
  sp : k.reg .rsp = m.reg .rsp
  mem : k.mem = m.mem

theorem pushHeader_confines (c m : Cpu) :
    L.Confines (ringRegion L slots c) ([.leaRegLabel .r8 (data "__dmaring"), load32 .r9 .r8 0, load32 .r10 .r8 4, load32 .r11 .r8 8] ++
      nextHead ++ [cmpRegReg .rax .r10]) m fun k => HeaderRead L .r9 0 m k ∧ k.reg .r11 = headerWord L m.mem 8 := by
  have word {i : Nat} (inside : i + 4 ≤ 16) := @header_region L slots c i inside
  have first := word (i := 0) (by decide)
  have second := word (i := 4) (by decide)
  have third := word (i := 8) (by decide)
  simp only [ringBase, BitVec.add_zero] at first second third
  refine .straight (by simp [nextHead, load32]; rfl) ?_ ⟨⟨?_, ?_, ?_, ?_⟩, ?_⟩
  · simp [nextHead, load32, first, second, third]
  · simp [ringBase]
  · simp [ringBase, headerWord]
  · simp
  · simp
  · simp [ringBase, headerWord]

/-- A word of the pair goes into the slot. -/
theorem slotWord_confines {region : Set Word} {k : Cpu} {disp : Int}
    (inside : range (k.reg .r10 + BitVec.ofInt 64 disp) 8 ⊆ region) (v : Int) :
    L.Confines region (slotWord (.imm v) disp) k fun k' => (∀ r, r ≠ .rax → k'.reg r = k.reg r) ∧
      k'.mem = k.mem.store (k.reg .r10 + BitVec.ofInt 64 disp) 8 (BitVec.ofInt 64 v) := by
  refine .straight (by simp [slotWord, Operand.mov, store64]; rfl) ?_ ⟨fun r other => ?_, ?_⟩
  · simpa [slotWord, Operand.mov, store64] using inside
  · simp [other]
  · simp

/-- The next head is stored. -/
theorem storeHead_confines {region : Set Word} {k : Cpu} (inside : range (k.reg .r8) 4 ⊆ region) :
    L.Confines region (nextHead ++ [store32 .r8 0 .rax, xorRegReg .rax .rax]) k fun k' => k'.reg .rsp = k.reg .rsp ∧
      k'.mem = k.mem.store (k.reg .r8) 4 (k.reg .r9 + 1#64 &&& k.reg .r11) := by
  refine .straight (by simp [nextHead, store32]; rfl) ?_ ⟨?_, ?_⟩
  · simpa [nextHead, store32] using inside
  · simp
  · simp

/-- The pair goes into the slot at the head, and the head becomes another number under the mask. -/
theorem pushSlot_confines {c m k : Cpu} (fits : ringBytes slots ≤ 2 ^ 64) (sound : RingSound m.mem (ringBase L) slots)
    (read : HeaderRead L .r9 0 m k) (mask : k.reg .r11 = headerWord L m.mem 8) (v w : Int) :
    L.Confines (ringRegion L slots c) ((slotAddress .r9 ++ [.movRegReg .r10 .rax]) ++ (slotWord (.imm v) 0 ++ (slotWord (.imm w) 8 ++
      (nextHead ++ [store32 .r8 0 .rax, xorRegReg .rax .rax])))) k fun k' => k'.reg .rsp = m.reg .rsp ∧
        OnlyIn (ringBase L) (ringBytes slots) m.mem k'.mem ∧ RingSound k'.mem (ringBase L) slots := by
  obtain ⟨h, head⟩ : ∃ h, (headerWord L m.mem 0).toNat = h := ⟨_, rfl⟩
  have small : h < 2 ^ 32 := head ▸ load_lt m.mem _
  have slot : h < slots := head ▸ sound.head
  have below : (headerWord L m.mem 8).toNat < slots := sound.mask
  have number : k.reg .r9 = BitVec.ofNat 64 h := by rw [read.number, ← head, BitVec.ofNat_toNat, BitVec.setWidth_eq]
  -- The slot is found without the memory.
  have plain : ∀ call ∈ slotAddress .r9 ++ [.movRegReg .r10 .rax], call.registersOnly = true := by decide
  have pointer : L.Meets (slotAddress .r9 ++ [.movRegReg .r10 .rax]) k fun k₁ =>
      k₁.reg .r10 = ringBase L + BitVec.ofNat 64 (16 + 16 * h) ∧ (∀ r, r ≠ .rax → r ≠ .r10 → k₁.reg r = k.reg r) ∧
        k₁.mem = k.mem := by
    refine .append (slotAddress_meets .r9 k) fun k₁ there => ?_
    obtain ⟨rax, others, mem⟩ := there
    rw [read.r8, number, slot_address] at rax
    refine .straight (by simp; rfl) ⟨by simpa using rax, fun r notRax notTop => ?_, by simpa using mem⟩
    simpa [notTop] using others r notRax
  refine (pointer.confines plain _).append fun k₁ there => ?_
  obtain ⟨r10, others, mem⟩ := there
  have first := slot_region (c := c) (L := L) slot small (.inl rfl)
  have second := slot_region (c := c) (L := L) slot small (.inr rfl)
  have eight : ringBase L + BitVec.ofNat 64 (16 + 16 * h) + BitVec.ofInt 64 8 = ringBase L + BitVec.ofNat 64 (16 + 16 * h + 8) := by
    rw [BitVec.ofNat_add (16 + 16 * h) 8, ← BitVec.add_assoc]
    rfl
  have zero : ringBase L + BitVec.ofNat 64 (16 + 16 * h) + BitVec.ofInt 64 0 = ringBase L + BitVec.ofNat 64 (16 + 16 * h) :=
    BitVec.add_zero _
  -- The two words of the pair.
  refine (slotWord_confines (by rw [r10, zero]; exact first) v).append fun k₂ there => ?_
  obtain ⟨others₂, mem₂⟩ := there
  have r10₂ : k₂.reg .r10 = ringBase L + BitVec.ofNat 64 (16 + 16 * h) := (others₂ .r10 (by decide)).trans r10
  rw [r10, zero, mem, read.mem] at mem₂
  refine (slotWord_confines (by rw [r10₂, eight]; exact second) w).append fun k₃ there => ?_
  obtain ⟨others₃, mem₃⟩ := there
  rw [r10₂, eight, mem₂] at mem₃
  -- The head.
  have same {r : Reg} (notRax : r ≠ .rax) (notTop : r ≠ .r10) : k₃.reg r = k.reg r :=
    (others₃ r notRax).trans <| (others₂ r notRax).trans (others r notRax notTop)
  have r8 : k₃.reg .r8 = ringBase L := (same (by decide) (by decide)).trans read.r8
  have r9 : k₃.reg .r9 = headerWord L m.mem 0 := (same (by decide) (by decide)).trans read.number
  have r11 : k₃.reg .r11 = headerWord L m.mem 8 := (same (by decide) (by decide)).trans mask
  have sp : k₃.reg .rsp = m.reg .rsp := (same (by decide) (by decide)).trans read.sp
  have header := @header_region L slots c 0 (by decide)
  rw [BitVec.add_zero, ← r8] at header
  refine (storeHead_confines header).mono fun k₄ there => ?_
  obtain ⟨sp₄, mem₄⟩ := there
  obtain ⟨next, isNext⟩ : ∃ next, (headerWord L m.mem 0 + 1#64) &&& headerWord L m.mem 8 = next := ⟨_, rfl⟩
  have inside : next.toNat < slots := by
    rw [← isNext, BitVec.toNat_and]
    exact Nat.and_le_right.trans_lt below
  have stored : k₄.mem = ((m.mem.store (ringBase L + BitVec.ofNat 64 (16 + 16 * h)) 8 (BitVec.ofInt 64 v)).store
      (ringBase L + BitVec.ofNat 64 (16 + 16 * h + 8)) 8 (BitVec.ofInt 64 w)).store (ringBase L + BitVec.ofNat 64 0) 4 next := by
    rw [mem₄, r8, r9, r11, isNext, mem₃, BitVec.add_zero (ringBase L)]
  refine ⟨sp₄.trans sp, ?_, ?_⟩
  · unfold ringBytes at fits ⊢
    rw [stored]
    exact ((OnlyIn.store _ (by omega) fits _).trans (.store _ (by omega) fits _)).trans (.store _ (by omega) fits _)
  · rw [stored]
    exact ((sound.setSlot (by omega) (by omega) _).setSlot (by omega) (by omega) _).setHead inside

/-- A push of two integers touches the ring and the words that save the registers, and leaves the header sound. -/
theorem ringPush_confines {c : Cpu} (clear : StackClear L c 32 "__dmaring" (ringBytes slots))
    (sound : RingSound c.mem (ringBase L) slots) (v w : Int) (full ok : String) :
    L.Confines (ringRegion L slots c) (ringPushCalls (.imm v) (.imm w) full ok) c fun d => RingSound d.mem (ringBase L) slots := by
  have fits : ringBytes slots ≤ 2 ^ 64 := Nat.le_of_add_left_le clear.2
  refine .saving (by decide) (by decide) (by decide) Set.subset_union_right fun m saved => ?_
  have same : SameOn (ringBase L) (ringBytes slots) c.mem m.mem := saved.sameOn clear
  have sound : RingSound m.mem (ringBase L) slots := sound.of_sameOn (same.mono (by unfold ringBytes; omega))
  refine .append (pushHeader_confines c m) fun k header => ?_
  obtain ⟨read, mask⟩ := header
  refine .either (by decide : jumpCondition "eq" = some .e) (fun _ => ?_) fun _ => ?_
  · refine .mono (pushSlot_confines fits sound read mask v w) fun k' there => ?_
    obtain ⟨sp, only, sound⟩ := there
    exact ⟨sp, saved.keeps clear (by decide) only, fun d back => back.mem ▸ sound⟩
  · refine .straight (by simp; rfl) (by simp) ⟨by simpa using read.sp, ?_, fun d back => ?_⟩
    · rw [X64.Cpu.set_mem, read.mem]
      exact .refl _ _ _
    · rw [back.mem, X64.Cpu.set_mem, read.mem]
      exact sound

/-! ### A pop -/

theorem popHeader_confines (c m : Cpu) :
    L.Confines (ringRegion L slots c) [.leaRegLabel .r8 (data "__dmaring"), load32 .r9 .r8 0, load32 .r10 .r8 4, cmpRegReg .r9 .r10]
      m fun k => HeaderRead L .r10 4 m k := by
  have word {i : Nat} (inside : i + 4 ≤ 16) := @header_region L slots c i inside
  have first := word (i := 0) (by decide)
  have second := word (i := 4) (by decide)
  simp only [ringBase, BitVec.add_zero] at first second
  refine .straight (by simp [load32]; rfl) ?_ ⟨?_, ?_, ?_, ?_⟩
  · simp [load32, first, second]
  · simp [ringBase]
  · simp [ringBase, headerWord]
  · simp
  · simp

/-- The slot at the tail is found: the mask is read, and RAX points to the slot. -/
theorem popPointer_confines {c m k : Cpu} (read : HeaderRead L .r10 4 m k) {t : Nat}
    (tail : headerWord L m.mem 4 = BitVec.ofNat 64 t) :
    L.Confines (ringRegion L slots c) (load32 .r11 .r8 8 :: slotAddress .r10) k fun k' =>
      k'.reg .rax = ringBase L + BitVec.ofNat 64 (16 + 16 * t) ∧ k'.reg .r11 = headerWord L m.mem 8 ∧
        k'.reg .r8 = ringBase L ∧ k'.reg .rsp = m.reg .rsp ∧ k'.mem = m.mem := by
  have third := @header_region L slots c 8 (by decide)
  have first : L.Confines (ringRegion L slots c) [load32 .r11 .r8 8] k (· = k.set .r11 (headerWord L m.mem 8)) := by
    refine .straight (by simp [load32]; rfl) ?_ ?_
    · simpa [load32, read.r8] using third
    · simp [read.r8, read.mem, headerWord]
  refine first.append fun _ loaded => ?_
  subst loaded
  refine ((slotAddress_meets .r10 _).confines (by decide) _).mono fun k' there => ?_
  obtain ⟨rax, others, mem⟩ := there
  have pointer : k'.reg .rax = BitVec.ofNat 64 t <<< 4 + 16#64 + ringBase L := by
    simpa [read.r8, read.number, tail] using rax
  refine ⟨pointer.trans (slot_address _ t), ?_, ?_, ?_, mem.trans read.mem⟩
  · simpa using others .r11 (by decide)
  · simpa [read.r8] using others .r8 (by decide)
  · simpa [read.sp] using others .rsp (by decide)

/-- Destinations that leave the pointers of a pop alone: the first one is not RAX, and none is R8. -/
structure PopSafe (da dl : Reg) : Prop where
  user : User da
  user' : User dl
  notRax : da ≠ .rax
  notR8 : da ≠ .r8
  notR8' : dl ≠ .r8

theorem popSlot_confines {c m k : Cpu} {da dl : Reg} (safe : PopSafe da dl) (fits : ringBytes slots ≤ 2 ^ 64)
    (sound : RingSound m.mem (ringBase L) slots) (read : HeaderRead L .r10 4 m k) :
    L.Confines (ringRegion L slots c) ((load32 .r11 .r8 8 :: slotAddress .r10) ++ ([load64 da .rax 0, load64 dl .rax 8] ++
      [addRegImm .r10 1, andRegReg .r10 .r11, store32 .r8 4 .r10, xorRegReg .rax .rax])) k fun k' => k'.reg .rsp = m.reg .rsp ∧
        OnlyIn (ringBase L) (ringBytes slots) m.mem k'.mem ∧ RingSound k'.mem (ringBase L) slots := by
  obtain ⟨user, user', notRax, notR8, notR8'⟩ := safe
  obtain ⟨notSp, -, notR11, -⟩ := (user_iff da).mp user
  obtain ⟨notSp', -, notR11', -⟩ := (user_iff dl).mp user'
  obtain ⟨t, tail⟩ : ∃ t, (headerWord L m.mem 4).toNat = t := ⟨_, rfl⟩
  have small : t < 2 ^ 32 := tail ▸ load_lt m.mem _
  have slot : t < slots := tail ▸ sound.tail
  have below : (headerWord L m.mem 8).toNat < slots := sound.mask
  have number : headerWord L m.mem 4 = BitVec.ofNat 64 t := by rw [← tail, BitVec.ofNat_toNat, BitVec.setWidth_eq]
  refine (popPointer_confines read number).append fun k₁ there => ?_
  obtain ⟨rax, r11, r8, sp, mem⟩ := there
  have first := slot_region (c := c) (L := L) slot small (.inl rfl)
  have second := slot_region (c := c) (L := L) slot small (.inr rfl)
  have header := @header_region L slots c 4 (by decide)
  have eight : ringBase L + BitVec.ofNat 64 (16 + 16 * t) + 8#64 = ringBase L + BitVec.ofNat 64 (16 + 16 * t + 8) := by
    rw [BitVec.ofNat_add (16 + 16 * t) 8, ← BitVec.add_assoc]
  -- Whatever R10 holds by now, its successor is masked.
  have loads : L.Confines (ringRegion L slots c) [load64 da .rax 0, load64 dl .rax 8] k₁ fun k₂ =>
      k₂.reg .r11 = headerWord L m.mem 8 ∧ k₂.reg .r8 = ringBase L ∧ k₂.reg .rsp = m.reg .rsp ∧ k₂.mem = m.mem := by
    refine .straight (by simp [load64]; rfl) ?_ ⟨?_, ?_, ?_, ?_⟩
    · simp [load64, rax, Ne.symm notRax, eight, second]
      exact first
    · simpa [Ne.symm notR11, Ne.symm notR11'] using r11
    · simpa [Ne.symm notR8, Ne.symm notR8'] using r8
    · simpa [Ne.symm notSp, Ne.symm notSp'] using sp
    · simpa using mem
  refine loads.append fun k₂ there => ?_
  obtain ⟨r11, r8, sp, mem⟩ := there
  obtain ⟨next, isNext⟩ : ∃ next, (k₂.reg .r10 + 1#64) &&& headerWord L m.mem 8 = next := ⟨_, rfl⟩
  have inside : next.toNat < slots := by
    rw [← isNext, BitVec.toNat_and]
    exact Nat.and_le_right.trans_lt below
  have final : k₂.mem.store (k₂.reg .r8 + 4#64) 4 (k₂.reg .r10 + 1#64 &&& k₂.reg .r11) =
      m.mem.store (ringBase L + BitVec.ofNat 64 4) 4 next := by
    rw [r8, r11, mem, isNext]
  refine .straight (by simp [store32]; rfl) ?_ ⟨?_, ?_, ?_⟩
  · simpa [store32, r8] using header
  · simpa using sp
  · have only : OnlyIn (ringBase L) (ringBytes slots) m.mem (m.mem.store (ringBase L + BitVec.ofNat 64 4) 4 next) :=
      .store _ (by unfold ringBytes; omega) fits _
    simpa [final] using only
  · simpa [final] using sound.setTail inside

/-- A pop touches the ring and the words that save the registers, and leaves the header sound. -/
theorem ringPop_confines {c : Cpu} {da dl : Reg} (safe : PopSafe da dl) (clear : StackClear L c 32 "__dmaring" (ringBytes slots))
    (sound : RingSound c.mem (ringBase L) slots) (empty ok : String) :
    L.Confines (ringRegion L slots c) (ringPopCalls da dl empty ok) c fun d => RingSound d.mem (ringBase L) slots := by
  have fits : ringBytes slots ≤ 2 ^ 64 := Nat.le_of_add_left_le clear.2
  refine .saving (by decide) (by decide) (by decide) Set.subset_union_right fun m saved => ?_
  have same : SameOn (ringBase L) (ringBytes slots) c.mem m.mem := saved.sameOn clear
  have sound : RingSound m.mem (ringBase L) slots := sound.of_sameOn (same.mono (by unfold ringBytes; omega))
  refine .append (popHeader_confines c m) fun k read => ?_
  refine .either (by decide : jumpCondition "eq" = some .e) (fun _ => ?_) fun _ => ?_
  · refine .mono (popSlot_confines safe fits sound read) fun k' there => ?_
    obtain ⟨sp, only, sound⟩ := there
    exact ⟨sp, saved.keeps clear (by decide) only, fun d back => back.mem ▸ sound⟩
  · refine .straight (by simp; rfl) (by simp) ⟨by simpa using read.sp, ?_, fun d back => ?_⟩
    · rw [X64.Cpu.set_mem, read.mem]
      exact .refl _ _ _
    · rw [back.mem, X64.Cpu.set_mem, read.mem]
      exact sound

/-! ### An initialisation -/

/-- An initialisation for no more slots leaves the header sound. -/
theorem ringInit_sound {c : Cpu} {n : Nat} (positive : 0 < n) (le : n ≤ slots)
    (clear : StackClear L c 32 "__dmaring" (ringBytes slots)) :
    L.Meets (ringInitCalls n) c fun d => RingSound d.mem (ringBase L) slots := by
  have clear : StackClear L c 16 "__dmaring" (ringBytes slots) := clear.mono (by decide) (by unfold ringBytes; omega)
  have fits : ringBytes slots ≤ 2 ^ 64 := Nat.le_of_add_left_le clear.2
  refine .saving (by decide) (by decide) (by decide) fun m saved => ?_
  obtain ⟨mask, isMask⟩ : ∃ mask, BitVec.ofInt 64 ((n : Int) - 1) = mask := ⟨_, rfl⟩
  have small : mask.toNat < slots := by
    have cast : (n : Int) - 1 = ((n - 1 : Nat) : Int) := by omega
    rw [← isMask, cast, BitVec.ofInt_natCast, BitVec.toNat_ofNat]
    exact (Nat.mod_le _ _).trans_lt (by omega)
  have sound := @RingSound.init slots m.mem (ringBase L) _ small
  obtain ⟨mem, cells⟩ : ∃ mem, ((m.mem.store (ringBase L + BitVec.ofNat 64 0) 8 0).store (ringBase L + BitVec.ofNat 64 4) 8
      0).store (ringBase L + BitVec.ofNat 64 8) 4 mask = mem := ⟨_, rfl⟩
  have only : OnlyIn (ringBase L) (ringBytes slots) m.mem mem := by
    unfold ringBytes at fits ⊢
    rw [← cells]
    exact ((OnlyIn.store _ (by omega) fits _).trans (.store _ (by omega) fits _)).trans (.store _ (by omega) fits _)
  rw [cells] at sound
  have body : L.Meets [.leaRegLabel .rdi (data "__dmaring"), xorRegReg .rax .rax, store64 .rdi 0 .rax, store64 .rdi 4 .rax,
      .movRegImm64 .rax ((n : Int) - 1), store32 .rdi 8 .rax] m fun k => k.reg .rsp = m.reg .rsp ∧ k.mem = mem := by
    refine .straight (by simp [store64, store32]; rfl) ⟨by simp, ?_⟩
    simp [← cells, isMask, ringBase]
  refine .mono body fun k there => ?_
  obtain ⟨sp, same⟩ := there
  exact ⟨sp, saved.keeps clear (by decide) (same ▸ only), fun d back => by rw [back.mem, same]; exact sound⟩

end Aclm.Codegen
