import Aclm.Codegen.Run
import Aclm.Image.Boot

/-! Entering ring 3: the words that `kernel:enter_user` leaves for `iretq`, and what the page tables of the boot image
let ring 3 use. -/

set_option autoImplicit false

namespace Aclm.Codegen

open X64 (Word Byte Reg Cpu Machine)
open X64.Memory (StackAt)
open X64.Paging (walk)
open X64.Elf (number)
open Encoder Image

section Words

variable {env : X64.Env} {place : String → Word}

/-- The words that `pushCalls` pushes: an operand that is the register it goes through finds there what was pushed last. -/
def pushedWords (place : String → Word) (c : Cpu) (via : Reg) : Word → List Operand → List Word
  | _, [] => []
  | held, o :: os =>
    let w := if o = .reg via then held else o.value place c
    w :: pushedWords place c via w os

theorem pushCalls_words {via : Reg} (notSp : via ≠ .rsp) {os : List Operand}
    (outside : ∀ o ∈ os, o.Outside []) {c m : Cpu} (kept : ∀ r, User r → r ≠ via → m.reg r = c.reg r) {ws : List Word}
    (stack : StackAt m.mem (m.reg .rsp) ws) (fits : 8 * (os.length + ws.length) ≤ 2 ^ 64) :
    ∃ d, effects env place (pushCalls via os) m = some d ∧
      StackAt d.mem (d.reg .rsp) ((pushedWords place c via (m.reg via) os).reverse ++ ws) := by
  induction os generalizing m ws with
  | nil => exact ⟨m, rfl, stack⟩
  | cons o os ih =>
    simp only [List.length_cons] at fits
    have first := outside o List.mem_cons_self
    have word : o.value place m = if o = .reg via then m.reg via else o.value place c := by
      split
      · next same => rw [same]; rfl
      · next other =>
        cases o with
        | reg r => exact kept r first.1 fun same => other (congrArg _ same)
        | slot off => exact first.elim
        | imm value => rfl
        | address label => rfl
    obtain ⟨w, value⟩ : ∃ w, o.value place m = w := ⟨_, rfl⟩
    have pushed := stack.push w (by omega)
    have step : effects env place (o.mov via ++ [.pushReg via]) m = some ((m.set via w).push w) := by
      rw [effects_append, mov_effects, value]
      simp
    obtain ⟨d, ran, all⟩ := @ih (fun p member => outside p (List.mem_cons_of_mem _ member)) ((m.set via w).push w)
      (fun r user other => by
        have same := kept r user other
        simpa [other, ((user_iff r).mp user).1] using same) (w :: ws) (by simpa [Ne.symm notSp] using pushed)
      (by simp only [List.length_cons]; omega)
    refine ⟨d, ?_, ?_⟩
    · rw [pushCalls, List.flatMap_cons, effects_append, step]
      exact ran
    · rw [value] at word
      simpa [pushedWords, ← word, notSp] using all

/-- What is executed before `iretq`. -/
def enterFront (entry stack : Operand) : List Call :=
  [.pushReg .rax] ++ stack.mov .rax ++ [.movRegReg .rsp .rax] ++
    pushCalls .rax [.imm 0x23, stack, .imm 0x202, .imm 0x1B, entry]

theorem imm_mov (dst : Reg) (v : Int) : (Operand.imm v).mov dst = [.movRegImm64 dst v] := rfl

theorem enterUser_appends {g : CodeGenerator} {entry stack : Expr} {oe os : Operand} (he : g.operand entry = .ok oe)
    (hs : g.operand stack = .ok os) : Appends (.kernelEnterUser entry stack) g (enterFront oe os ++ [iretq]) := by
  intro g' emission
  have foundEntry (s : List Call) : (g.withScript s).operand entry = .ok oe := (operand_withScript g s entry).trans he
  have foundStack (s : List Call) : (g.withScript s).operand stack = .ok os := (operand_withScript g s stack).trans hs
  simp only [emitOp, kernelEnterUser, asm_bind_ok, operand_bind_ok (foundEntry _), operand_bind_ok (foundStack _), asm_ok,
    CodeGenerator.withScript_script, CodeGenerator.withScript_withScript] at emission
  rw [emission, CodeGenerator.withScript_script]
  simp [enterFront, pushCalls, imm_mov]

/-- The words that `iretq` takes: RIP, CS, RFLAGS, RSP and SS. -/
def ringFrame (entry stack : Word) : List Word := [entry, 0x1B, 0x202, stack, 0x23]

theorem enterFront_effects {oe os : Operand} (he : oe.Outside []) (hs : os.Outside []) (c : Cpu) :
    ∃ d, effects env place (enterFront oe os) c = some d ∧ StackAt d.mem (d.reg .rsp)
      (ringFrame (if oe = .reg .rax then 0x1B else oe.value place c) (if os = .reg .rax then 0x23 else os.value place c)) := by
  obtain ⟨v, value⟩ : ∃ v, os.value place c = v := ⟨_, rfl⟩
  let m := ((c.push (c.reg .rax)).set .rax v).set .rsp v
  have same : os.value place (c.push (c.reg .rax)) = v := by
    rw [← value]
    exact hs.value_eq fun r user _ => by simp [((user_iff r).mp user).1]
  have enter : effects env place ([.pushReg .rax] ++ os.mov .rax ++ [.movRegReg .rsp .rax]) c = some m := by
    simp [effects_append, mov_effects, same, m]
  have outside : ∀ o ∈ [.imm 0x23, os, .imm 0x202, .imm 0x1B, oe], o.Outside [] := by
    simp only [List.forall_mem_cons, List.not_mem_nil, false_implies, implies_true, and_true]
    exact ⟨trivial, hs, trivial, trivial, he⟩
  obtain ⟨d, ran, stack⟩ := @pushCalls_words env place .rax (by decide) _ outside c m
    (fun r user other => by simp [m, other, ((user_iff r).mp user).1]) [] trivial (show 8 * 5 ≤ 2 ^ 64 by decide)
  refine ⟨d, by rw [enterFront, effects_append, enter]; exact ran, ?_⟩
  have number (n : Int) : (Operand.imm n).value place c = BitVec.ofInt 64 n := rfl
  simpa [pushedWords, ringFrame, value, number] using stack

end Words

/-- The page tables of a boot image let ring 3 use an address. -/
def UserAccessible (image : List Byte) (a : Word) : Prop :=
  ∃ t, walk (number image · 8) (bootAddresses LOAD_ADDR).pml4 a.toNat = some t ∧ t.user = true

/-- Below 1 GiB nothing is open to ring 3: no entry has its user bit. -/
theorem not_userAccessible {image code data : List Byte} (written : buildLongModeKernel code data LOAD_ADDR = .ok image)
    {a : Word} (low : a.toNat < 2 ^ 30) : ¬UserAccessible image a := by
  rintro ⟨t, ends, user⟩
  rw [walk_identity (kernel_boots written) low] at ends
  cases ends
  cases user

/-- The frame that `iretq` takes, with both addresses open to ring 3 as far as the tables map them. -/
def EntersRing3 (image : List Byte) (entry stack : Word) (d : Cpu) : Prop :=
  StackAt d.mem (d.reg .rsp) (ringFrame entry stack) ∧ (entry.toNat < 2 ^ 30 → UserAccessible image entry) ∧
    (stack.toNat < 2 ^ 30 → UserAccessible image stack)

variable {L : Listing} {M : Machine} {g : CodeGenerator} {entry stack : Expr} {oe os : Operand} {image code data : List Byte}
  {i : Nat} {calls : List Call} {c : Cpu}

/-- `iretq` is reached, with the right words where RAX does not lose an operand. -/
theorem enterUser_reaches (loaded : L.Loaded M) (he : Plain g [] entry oe) (hs : Plain g [] stack os)
    (stands : Stands L g (.kernelEnterUser entry stack) i calls) (c : Cpu) :
    ∃ front d, calls = front ++ [iretq] ∧ M.Completes (L.offset i) (L.offset (i + front.length)) c d ∧
      StackAt d.mem (d.reg .rsp) (ringFrame (if oe = .reg .rax then 0x1B else oe.value L.address c)
        (if os = .reg .rax then 0x23 else os.value L.address c)) := by
  have shape := stands.calls_eq (enterUser_appends he.operand hs.operand)
  obtain ⟨d, ran, words⟩ := @enterFront_effects L.env L.address oe os he.outside hs.outside c
  have here := (shape ▸ stands.here).append (enterFront oe os)
  exact ⟨_, d, shape, loaded.inside (.straight here.1 ran (Nat.le_refl i) (Nat.le_refl _)), words⟩

theorem enter_user_iff (written : buildLongModeKernel code data LOAD_ADDR = .ok image) (loaded : L.Loaded M)
    (he : Plain g [] entry oe) (hs : Plain g [] stack os) (stands : Stands L g (.kernelEnterUser entry stack) i calls) :
    ∃ front d, calls = front ++ [iretq] ∧ M.Completes (L.offset i) (L.offset (i + front.length)) c d ∧
      (EntersRing3 image (oe.value L.address c) (os.value L.address c) d ↔
        2 ^ 30 ≤ (oe.value L.address c).toNat ∧ 2 ^ 30 ≤ (os.value L.address c).toNat ∧ oe ≠ .reg .rax ∧ os ≠ .reg .rax) := by
  obtain ⟨front, d, shape, run, words⟩ := enterUser_reaches loaded he hs stands c
  refine ⟨front, d, shape, run, ?_⟩
  constructor
  · rintro ⟨right, openEntry, openStack⟩
    have high {a : Word} (opened : a.toNat < 2 ^ 30 → UserAccessible image a) : 2 ^ 30 ≤ a.toNat := by
      by_contra low
      exact not_userAccessible written (by omega) (opened (by omega))
    have entryHigh := high openEntry
    have stackHigh := high openStack
    refine ⟨entryHigh, stackHigh, fun lost => ?_, fun lost => ?_⟩
    · have top := words.1.symm.trans right.1
      rw [if_pos lost] at top
      rw [← top] at entryHigh
      exact absurd entryHigh (by decide)
    · have third := words.2.2.2.1.symm.trans right.2.2.2.1
      rw [if_pos lost] at third
      rw [← third] at stackHigh
      exact absurd stackHigh (by decide)
  · rintro ⟨entryHigh, stackHigh, entryKept, stackKept⟩
    rw [if_neg entryKept, if_neg stackKept] at words
    exact ⟨words, fun low => absurd entryHigh (by omega), fun low => absurd stackHigh (by omega)⟩

theorem enter_user_high : ∃ (image : List Byte) (L : Listing) (M : Machine) (front : List Call) (d : Cpu),
    M.Completes (L.offset 0) (L.offset (0 + front.length)) (Cpu.filled 0) d ∧
      EntersRing3 image (BitVec.ofNat 64 (2 ^ 32)) (BitVec.ofNat 64 (2 ^ 33)) d := by
  obtain ⟨image, written⟩ := kernel_written [0xF4] [] (by decide)
  obtain ⟨L, M, loaded, calls, -, -⟩ := Listing.exists_loaded
    (enterFront (.imm (2 ^ 32)) (.imm (2 ^ 33)) ++ [iretq]) [] .silent (by decide)
  have stands : Stands L (.new false) (.kernelEnterUser (.number (2 ^ 32)) (.number (2 ^ 33))) 0
      (enterFront (.imm (2 ^ 32)) (.imm (2 ^ 33)) ++ [iretq]) :=
    ⟨⟨_, rfl, rfl⟩, calls ▸ List.prefix_refl _⟩
  obtain ⟨front, d, -, run, right⟩ := @enter_user_iff L M (.new false) _ _ _ _ image _ _ 0 _ (Cpu.filled 0) written loaded
    (.number (2 ^ 32)) (.number (2 ^ 33)) stands
  exact ⟨image, L, M, front, d, run, right.mpr ⟨show 2 ^ 30 ≤ (BitVec.ofInt 64 (2 ^ 32)).toNat by decide,
    show 2 ^ 30 ≤ (BitVec.ofInt 64 (2 ^ 33)).toNat by decide, by decide, by decide⟩⟩

/-- With the entry 0x200000 in RAX, `iretq` goes to 0x1B; and no page is open to ring 3. -/
theorem enter_user_lost : ¬∀ (image code data : List Byte) (L : Listing) (M : Machine) (g : CodeGenerator)
    (entry stack : Expr) (oe os : Operand) (i : Nat) (front : List Call) (c d : Cpu),
    buildLongModeKernel code data LOAD_ADDR = .ok image → L.Loaded M → Plain g [] entry oe → Plain g [] stack os →
      Stands L g (.kernelEnterUser entry stack) i (front ++ [iretq]) →
      M.Completes (L.offset i) (L.offset (i + front.length)) c d →
      EntersRing3 image (oe.value L.address c) (os.value L.address c) d := by
  intro right
  obtain ⟨image, written⟩ := kernel_written [0xF4] [] (by decide)
  obtain ⟨L, M, loaded, calls, -, -⟩ := Listing.exists_loaded
    (enterFront (.reg .rax) (.imm 0x80000) ++ [iretq]) [] .silent (by decide)
  have stands : Stands L (.new false) (.kernelEnterUser (.reg "reg1") (.number 0x80000)) 0
      (enterFront (.reg .rax) (.imm 0x80000) ++ [iretq]) :=
    ⟨⟨_, rfl, rfl⟩, calls ▸ List.prefix_refl _⟩
  have entry : Plain (.new false) [] (.reg "reg1") (.reg .rax) := .reg (by decide) (by decide)
  obtain ⟨front, d, shape, run, words⟩ := enterUser_reaches loaded entry (.number 0x80000) stands (Cpu.filled 0x200000)
  rw [shape] at stands
  obtain ⟨frame, openEntry, -⟩ := right image _ _ L M _ _ _ _ _ 0 front _ d written loaded entry (.number 0x80000) stands run
  have top : (0x1B : Word) = 0x200000 := words.1.symm.trans frame.1
  exact absurd top (by decide)

end Aclm.Codegen
