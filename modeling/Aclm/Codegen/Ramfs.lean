import Aclm.Codegen.Wire
import Aclm.Encoder.Leaves
import Aclm.X64.FileTable

/-! `kernel:ramfs_init`, `kernel:ramfs_put` and `kernel:ramfs_get` on a table of files in memory. -/

set_option autoImplicit false

namespace Aclm.Codegen

open X64 (Word Reg Cpu Env Machine Memory Byte)
open X64.Memory (SameOn OnlyIn Separate Terminated Zeros Spelled Table slot)
open Encoder

/-! ### The code -/

def ramfsInitCalls (top : String) : List Call :=
  saving [.rdi, .rcx] ([Call.leaRegLabel .rdi (data "__ramfs"), .movRegImm64 .rcx 256, xorRegReg .rax .rax] ++
    repeated "neq" top [store8 .rdi 0 .rax, addRegImm .rdi 1, subRegImm .rcx 1, testRegReg .rcx .rcx])

/-- A slot whose first byte is zero is looked for. -/
def freeSlot (top found : String) : List Call :=
  repeated "neq" top ([load8 .rax SCRATCH 0, testRegReg .rax .rax] ++ [Call.jcc "eq" found] ++
    [addRegImm SCRATCH 32, subRegImm .rcx 1, testRegReg .rcx .rcx])

/-- At most fifteen bytes of the name are copied, and a NUL. -/
def copyName (top done : String) : List Call :=
  [Call.movRegReg .rdi SCRATCH, .movRegReg .rsi .r12, .movRegImm64 .rcx 15] ++
    repeated "neq" top ([load8 .rax .rsi 0, store8 .rdi 0 .rax, testRegReg .rax .rax] ++ [Call.jcc "eq" done] ++
      [addRegImm .rsi 1, addRegImm .rdi 1, subRegImm .rcx 1, testRegReg .rcx .rcx]) ++
    [xorRegReg .rax .rax, store8 .rdi 0 .rax]

def ramfsPutCalls (name file length : Operand) (top found done copy : String) : List Call :=
  saving [.r12, .r13, .r14] (name.mov .r12 ++ file.mov .r13 ++ length.mov .r14 ++
    [Call.leaRegLabel SCRATCH (data "__ramfs"), .movRegImm64 .rcx 8] ++
    (freeSlot top found ++ [Call.jmp done] ++ [Call.label found] ++ copyName copy done ++ [Call.label done]) ++
    [store64 SCRATCH 16 .r13, store64 SCRATCH 24 .r14])

/-- The name of a slot is compared with the one that is looked for. -/
def compareName (top ne ok : String) : List Call :=
  [Call.movRegReg .rsi .r13, .movRegReg .rdi .r12, .movRegImm64 .r14 16] ++
    repeated "neq" top ([load8 .rax .rsi 0, load8 .rdx .rdi 0, cmpRegReg .rax .rdx] ++ [Call.jcc "neq" ne] ++
      [testRegReg .rax .rax] ++ [Call.jcc "eq" ok] ++
      [addRegImm .rsi 1, addRegImm .rdi 1, subRegImm .r14 1, testRegReg .r14 .r14]) ++ [Call.jmp ok]

def ramfsGetCalls (dst : Reg) (name : Operand) (top compare ne fail ok done : String) : List Call :=
  saving [.r12, .r13, .r14] (name.mov .r12 ++ [Call.leaRegLabel .r13 (data "__ramfs"), .movRegImm64 .rcx 8] ++
    (repeated "neq" top (compareName compare ne ok ++ [Call.label ne] ++
      [addRegImm .r13 32, subRegImm .rcx 1, testRegReg .rcx .rcx]) ++ [Call.jmp fail] ++ [Call.label ok] ++
      [load64 dst .r13 16] ++ [Call.jmp done] ++ [Call.label fail] ++ [xorRegReg dst dst] ++ [Call.label done]))

section Appended

variable {g : CodeGenerator} {busy : List Reg} {name file length : Expr} {o o₁ o₂ : Operand}

theorem ramfsInit_appends (g : CodeGenerator) :
    Appends .kernelRamfsInit g (ramfsInitCalls (freshLabel "rfz" (g.labelI + 1))) := by
  intro g' emission
  simp only [emitOp, kernelRamfsInit, reserve_bind_ok, asm_bind_ok, newLabel_bind_ok, asm_ok] at emission
  rw [emission]
  simp [ramfsInitCalls, saving, repeated]

theorem ramfsPut_appends (plain : Plain g busy name o) (plain₁ : Plain g busy file o₁) (plain₂ : Plain g busy length o₂) :
    ∃ top found done copy, Appends (.kernelRamfsPut name file length) g (ramfsPutCalls o o₁ o₂ top found done copy) := by
  have here {node : Expr} {o : Operand} (plain : Plain g busy node o) (s : List Call) :
      ((reserved g "__ramfs" (zeroBytes 256)).withScript s).operand node = .ok o :=
    ((plain.reserved "__ramfs" (zeroBytes 256)).withScript s).operand
  refine ⟨freshLabel "rfs" (g.labelI + 1), freshLabel "rff" (g.labelI + 1 + 1), freshLabel "rfd" (g.labelI + 1 + 1 + 1),
    freshLabel "rfc" (g.labelI + 1 + 1 + 1 + 1), fun g' emission => ?_⟩
  simp only [emitOp, kernelRamfsPut, reserve_bind_ok, asm_bind_ok, reserved_script, operand_bind_ok (here plain _),
    operand_bind_ok (here plain₁ _), operand_bind_ok (here plain₂ _), newLabel_bind_ok, asm_ok,
    CodeGenerator.withScript_withScript, CodeGenerator.withScript_script] at emission
  rw [emission]
  simp [ramfsPutCalls, freeSlot, copyName, saving, repeated]

theorem ramfsGet_appends {dest : String} {dst : Reg} (named : resolve dest = .ok dst) (plain : Plain g busy name o) :
    ∃ top compare ne fail ok done,
      Appends (.kernelRamfsGet dest name) g (ramfsGetCalls dst o top compare ne fail ok done) := by
  have found := ((plain.reserved "__ramfs" (zeroBytes 256)).withScript
    (g.script ++ [.pushReg .r12, .pushReg .r13, .pushReg .r14])).operand
  refine ⟨freshLabel "rfgl" (g.labelI + 1), freshLabel "rfgc" (g.labelI + 1 + 1 + 1 + 1 + 1),
    freshLabel "rfgne" (g.labelI + 1 + 1 + 1 + 1 + 1 + 1), freshLabel "rfgf" (g.labelI + 1 + 1),
    freshLabel "rfgok" (g.labelI + 1 + 1 + 1), freshLabel "rfgd" (g.labelI + 1 + 1 + 1 + 1), fun g' emission => ?_⟩
  simp only [emitOp, kernelRamfsGet, reg_bind_ok, named, Except.ok.injEq, exists_eq_left', reserve_bind_ok, asm_bind_ok,
    reserved_script, operand_bind_ok found, newLabel_bind_ok, asm_ok, CodeGenerator.withScript_withScript,
    CodeGenerator.withScript_script] at emission
  rw [emission]
  simp [ramfsGetCalls, compareName, saving, repeated]

end Appended

/-! ### Loops -/

section Loops

variable {L : Listing} {c : Cpu} {a b p : Word} {t : FileTable} {name other : FileName}

/-- A counter goes down by one and is tested. -/
theorem count_effects {env : Env} {place : String → Word} (r : Reg) {n : Nat} (small : n < 2 ^ 64)
    (left : c.reg r = BitVec.ofNat 64 (n + 1)) :
    ∃ f, effects env place [subRegImm r 1, testRegReg r r] c = some ((c.set r (BitVec.ofNat 64 n)).setFlags f) ∧
      X64.Cond.ne.holds f = decide (n ≠ 0) := by
  have value : c.reg r - BitVec.ofInt 64 1 = BitVec.ofNat 64 n := by
    rw [left]
    change BitVec.ofNat 64 (n + 1) - 1#64 = _
    bv_omega
  obtain ⟨f, ran, zf⟩ := test_effects env place ((c.set r (BitVec.ofNat 64 n)).setFlags
    (c.flags.sub (c.reg r) (BitVec.ofInt 64 1) false)) r
  refine ⟨f, ?_, ?_⟩
  · rw [effects_cons, effect_subRegImm, Option.bind_some, value, ran]
    rfl
  · have opposite : X64.Cond.ne.holds f = !X64.Cond.e.holds f := rfl
    rw [opposite, zf, X64.Cpu.setFlags_reg, X64.Cpu.set_reg, if_pos rfl, ← decide_not]
    refine decide_eq_decide.mpr (not_congr ?_)
    constructor <;> intro zero <;> bv_omega

/-- The bytes before the cursor are zero. -/
structure Cleared (m : Cpu) (b : Word) (n : Nat) (d : Cpu) : Prop where
  le : n ≤ 256
  rdi : d.reg .rdi = b + BitVec.ofNat 64 (256 - n)
  rcx : d.reg .rcx = BitVec.ofNat 64 n
  rax : d.reg .rax = 0
  zeros : Zeros b (256 - n) d.mem
  only : OnlyIn b 256 m.mem d.mem
  sp : d.reg .rsp = m.reg .rsp

theorem clearRound_meets {m d : Cpu} {n : Nat} (cleared : Cleared m b (n + 1) d) :
    L.Meets [store8 .rdi 0 .rax, addRegImm .rdi 1, subRegImm .rcx 1, testRegReg .rcx .rcx] d fun e =>
      Cleared m b n e ∧ X64.Cond.ne.holds e.flags = decide (n ≠ 0) := by
  obtain ⟨le, rdi, rcx, rax, zeros, only, sp⟩ := cleared
  obtain ⟨i, sum⟩ : ∃ i, 256 - (n + 1) = i := ⟨_, rfl⟩
  rw [sum] at rdi zeros
  have next : 256 - n = i + 1 := by omega
  let k := ((d.setMem (d.mem.store (b + BitVec.ofNat 64 i) 1 0)).set .rdi (b + BitVec.ofNat 64 (i + 1))).setFlags
    (d.flags.add (b + BitVec.ofNat 64 i) 1 false)
  have front : effects L.env L.address [store8 .rdi 0 .rax, addRegImm .rdi 1] d = some k := by
    simp [store8, rdi, rax, k, BitVec.add_assoc, BitVec.ofNat_add]
  obtain ⟨f, ran, zf⟩ := @count_effects k L.env L.address .rcx n (by omega) (by simpa [k] using rcx)
  refine .straight (d := (k.set .rcx (BitVec.ofNat 64 n)).setFlags f) ?_ ⟨⟨by omega, ?_, ?_, ?_, ?_, ?_, ?_⟩, zf⟩
  · change effects L.env L.address ([store8 .rdi 0 .rax, addRegImm .rdi 1] ++ [subRegImm .rcx 1, testRegReg .rcx .rcx]) d = _
    rw [effects_append, front, Option.bind_some, ran]
  · simp [k, next]
  · simp
  · simpa [k] using rax
  · intro x near
    rw [next] at near
    change d.mem.store (b + BitVec.ofNat 64 i) 1 0 x = 0
    by_cases here : x = b + BitVec.ofNat 64 i
    · rw [here, X64.Memory.store_front Nat.one_pos]
      rfl
    · rw [X64.Strip.store_byte_of_ne here]
      exact zeros x (by bv_omega)
  · exact only.trans (.store _ (by omega) (by decide) _)
  · simpa [k] using sp

theorem ramfsInit_meets (top : String) (clear : StackClear L c 16 "__ramfs" 256) :
    L.Meets (ramfsInitCalls top) c fun d => Zeros (L.address (data "__ramfs")) 256 d.mem ∧ d.reg .rsp = c.reg .rsp := by
  refine .saving (by decide) (by decide) (by decide) fun m saved => ?_
  have entered : L.Meets [.leaRegLabel .rdi (data "__ramfs"), .movRegImm64 .rcx 256, xorRegReg .rax .rax] m
      (Cleared m (L.address (data "__ramfs")) 256) := by
    refine .straight (d := (((m.set .rdi (L.address (data "__ramfs"))).set .rcx 256).set .rax 0).setFlags
      (m.flags.logic (L.env.undefined m.flags (m.reg .rax) (m.reg .rax)) 0)) (by simp) ⟨Nat.le_refl _, ?_, ?_, ?_, ?_, ?_, ?_⟩
    · simp
    · simp
    · simp
    · intro x near
      omega
    · exact .refl _ _ _
    · simp
  refine (entered.append fun k cleared =>
    .repeated (show jumpCondition "neq" = some .ne by decide) (fun n d => clearRound_meets) cleared).mono fun k cleared => ?_
  exact ⟨cleared.sp, saved.keeps clear (by decide) cleared.only, fun d back => ⟨back.mem ▸ cleared.zeros, back.sp⟩⟩

/-! ### Storing -/

/-- The slots before the cursor are taken. -/
structure Searching (c : Cpu) (b : Word) (t : FileTable) (n : Nat) (d : Cpu) : Prop where
  le : n ≤ 8
  passed : 8 - n ≤ t.1.length
  cursor : d.reg .r15 = slot b (8 - n)
  rcx : d.reg .rcx = BitVec.ofNat 64 n
  mem : d.mem = c.mem
  regs : ∀ r, r ∉ [.rax, .rcx, .r15] → d.reg r = c.reg r

/-- The cursor is at the slot behind the files. -/
structure Behind (c : Cpu) (b : Word) (t : FileTable) (d : Cpu) : Prop where
  cursor : d.reg .r15 = slot b t.1.length
  mem : d.mem = c.mem
  regs : ∀ r, r ∉ [.rax, .rcx, .r15] → d.reg r = c.reg r

theorem freeSlot_leaves (table : Table c.mem b t) {d : Cpu} (start : Searching c b t 8 d) (top found : String) :
    L.Leaves (freeSlot top found) d (fun target e => target = found ∧ t.1.length < 8 ∧ Behind c b t e)
      fun e => t.1.length = 8 ∧ Behind c b t e := by
  have round (n : Nat) (k : Cpu) (here : Searching c b t (n + 1) k) :
      L.Leaves ([load8 .rax SCRATCH 0, testRegReg .rax .rax] ++ [.jcc "eq" found] ++
        [addRegImm SCRATCH 32, subRegImm .rcx 1, testRegReg .rcx .rcx]) k
        (fun target e => target = found ∧ t.1.length < 8 ∧ Behind c b t e)
        fun e => Searching c b t n e ∧ X64.Cond.ne.holds e.flags = decide (n ≠ 0) := by
    obtain ⟨le, passed, cursor, rcx, mem, regs⟩ := here
    obtain ⟨i, sum⟩ : ∃ i, 8 - (n + 1) = i := ⟨_, rfl⟩
    rw [sum] at passed cursor
    have below : i < 8 := by omega
    -- The files stand at the front, so a slot is free exactly where they end.
    have free := table.free_iff below
    obtain ⟨f, tested, zf⟩ := test_effects L.env L.address (k.set .rax (c.mem.load (slot b i) 1)) .rax
    obtain ⟨j, shape⟩ : ∃ j, (k.set .rax (c.mem.load (slot b i) 1)).setFlags f = j := ⟨_, rfl⟩
    have ran : effects L.env L.address [load8 .rax SCRATCH 0, testRegReg .rax .rax] k = some j := by
      rw [effects_cons, load8, effect_mov8RegMem, Option.bind_some]
      simpa [SCRATCH, cursor, mem, shape] using tested
    have flags : X64.Cond.e.holds j.flags = decide (c.mem (slot b i) = 0) := by
      rw [← shape, X64.Cpu.setFlags_flags, zf, X64.Cpu.set_reg, if_pos rfl]
      exact decide_eq_decide.mpr X64.Memory.load_byte_eq_zero
    have cursor' : j.reg .r15 = slot b i := by simpa [← shape] using cursor
    have mem' : j.mem = c.mem := by simpa [← shape] using mem
    have regs' (r : Reg) (other : r ∉ [.rax, .rcx, .r15]) : j.reg r = c.reg r := by
      obtain ⟨notRax, -⟩ : r ≠ .rax ∧ r ≠ .rcx ∧ r ≠ .r15 := by simpa using other
      simpa [← shape, notRax] using regs r other
    have looked : L.Leaves ([load8 .rax SCRATCH 0, testRegReg .rax .rax] ++ [.jcc "eq" found]) k
        (fun target e => target = found ∧ t.1.length < 8 ∧ Behind c b t e) fun e => e = j ∧ i < t.1.length := by
      refine .append (.straight ran rfl) fun e same => ?_
      subst same
      refine .jcc (show jumpCondition "eq" = some .e by decide) (fun taken => ?_) fun falls => ?_
      · have zero := of_decide_eq_true (flags.symm.trans taken)
        obtain rfl : i = t.1.length := Nat.le_antisymm passed (free.mp zero)
        exact ⟨rfl, below, cursor', mem', regs'⟩
      · have other := of_decide_eq_false (flags.symm.trans falls)
        exact ⟨rfl, Nat.lt_of_not_le (mt free.mpr other)⟩
    refine looked.append fun e more => ?_
    obtain ⟨rfl, taken⟩ := more
    let l := (e.set .r15 (slot b (i + 1))).setFlags (e.flags.add (slot b i) 32 false)
    have moved : effects L.env L.address [addRegImm SCRATCH 32] e = some l := by
      have next : slot b i + 32#64 = slot b (i + 1) := by unfold slot; bv_omega
      simp [SCRATCH, cursor', next, l]
    have count : l.reg .rcx = BitVec.ofNat 64 (n + 1) := by simpa [l, ← shape] using rcx
    obtain ⟨f', counted, zf'⟩ := @count_effects l L.env L.address .rcx n (by omega) count
    refine .straight (d := (l.set .rcx (BitVec.ofNat 64 n)).setFlags f') ?_ ⟨⟨by omega, by omega, ?_, ?_, ?_, fun r other => ?_⟩, zf'⟩
    · change effects L.env L.address ([addRegImm SCRATCH 32] ++ [subRegImm .rcx 1, testRegReg .rcx .rcx]) e = _
      rw [effects_append, moved, Option.bind_some, counted]
    · simp [l, show 8 - n = i + 1 by omega]
    · simp
    · exact mem'
    · obtain ⟨-, notRcx, notR15⟩ : r ≠ .rax ∧ r ≠ .rcx ∧ r ≠ .r15 := by simpa using other
      simpa [l, notRcx, notR15] using regs' r other
  -- The eight rounds: without a jump all the slots are taken.
  refine (Listing.Leaves.repeated (show jumpCondition "neq" = some .ne by decide) round start).mono (fun _ _ out => out) fun e last => ?_
  have all : t.1.length = 8 := Nat.le_antisymm t.2 last.passed
  exact ⟨all, by rw [last.cursor, all], last.mem, last.regs⟩

/-- The bytes before the cursor are copied, and none of them is a NUL. -/
structure Copying (m : Cpu) (a p : Word) (name : FileName) (n : Nat) (d : Cpu) : Prop where
  le : n ≤ 15
  passed : 15 - n ≤ name.1.length
  target : d.reg .rdi = a + BitVec.ofNat 64 (15 - n)
  source : d.reg .rsi = p + BitVec.ofNat 64 (15 - n)
  rcx : d.reg .rcx = BitVec.ofNat 64 n
  mem : d.mem = (X64.Strip.copy^[15 - n] ⟨m.mem, a, p⟩).mem
  regs : ∀ r, r ∉ [.rax, .rcx, .rdi, .rsi] → d.reg r = m.reg r

/-- The name, cut to fifteen bytes, is at `a`. -/
structure NameCopied (m : Cpu) (a : Word) (name : FileName) (d : Cpu) : Prop where
  spelled : Spelled d.mem a name.cut
  only : OnlyIn a 16 m.mem d.mem
  regs : ∀ r, r ∉ [.rax, .rcx, .rdi, .rsi] → d.reg r = m.reg r

theorem copyName_leaves {m : Cpu} (spelled : Spelled m.mem p name) (apart : Separate a 32 p (name.1.length + 1))
    (target : m.reg .r15 = a) (source : m.reg .r12 = p) (top done : String) :
    L.Leaves (copyName top done) m (fun target d => target = done ∧ NameCopied m a name d) (NameCopied m a name) := by
  have small := spelled.string.below
  -- Never more bytes are copied than the name and its NUL have.
  have near : Separate a (min 16 (name.1.length + 1)) p (min 16 (name.1.length + 1)) := by
    have part : Separate (a + BitVec.ofNat 64 0) (min 16 (name.1.length + 1)) (p + BitVec.ofNat 64 0)
        (min 16 (name.1.length + 1)) := apart.mono (by omega) (by omega) (by omega)
    simpa using part
  have copied {i : Nat} (le : i ≤ 15) (inside : i ≤ name.1.length + 1) := fun x =>
    X64.Strip.copy_apart (m := m.mem) near (show i ≤ min 16 (name.1.length + 1) by omega) x
  have byte {i j : Nat} (le : i ≤ 15) (inside : i ≤ name.1.length + 1) (less : j < i) :
      (X64.Strip.copy^[i] ⟨m.mem, a, p⟩).mem (a + BitVec.ofNat 64 j) = m.mem (p + BitVec.ofNat 64 j) := by
    have offset : a + BitVec.ofNat 64 j - a = BitVec.ofNat 64 j := by bv_omega
    rw [copied le inside, offset, if_pos (by bv_omega)]
  have round (n : Nat) (k : Cpu) (here : Copying m a p name (n + 1) k) :
      L.Leaves ([load8 .rax .rsi 0, store8 .rdi 0 .rax, testRegReg .rax .rax] ++ [.jcc "eq" done] ++
        [addRegImm .rsi 1, addRegImm .rdi 1, subRegImm .rcx 1, testRegReg .rcx .rcx]) k
        (fun target e => target = done ∧ NameCopied m a name e)
        fun e => Copying m a p name n e ∧ X64.Cond.ne.holds e.flags = decide (n ≠ 0) := by
    obtain ⟨le, passed, target, source, rcx, mem, regs⟩ := here
    obtain ⟨i, sum⟩ : ∃ i, 15 - (n + 1) = i := ⟨_, rfl⟩
    rw [sum] at passed target source mem
    have next : 15 - n = i + 1 := by omega
    have below : i < 15 := by omega
    obtain ⟨v, value⟩ : ∃ v, k.mem.load (p + BitVec.ofNat 64 i) 1 = v := ⟨_, rfl⟩
    have written : k.mem.store (a + BitVec.ofNat 64 i) 1 v = (X64.Strip.copy^[i + 1] ⟨m.mem, a, p⟩).mem := by
      rw [X64.Strip.copy_succ, ← mem, value]
    have nul : v = 0 ↔ i = name.1.length := by
      have byte : k.mem (p + BitVec.ofNat 64 i) = m.mem (p + BitVec.ofNat 64 i) := by
        obtain ⟨far, fits⟩ := near
        rw [mem, copied below.le (by omega), if_neg (by bv_omega)]
      rw [← value, X64.Memory.load_byte_eq_zero, byte]
      exact spelled.string.nul_iff passed
    obtain ⟨f, tested, zf⟩ := test_effects L.env L.address
      ((k.set .rax v).setMem (k.mem.store (a + BitVec.ofNat 64 i) 1 v)) .rax
    obtain ⟨j, shape⟩ : ∃ j, ((k.set .rax v).setMem (k.mem.store (a + BitVec.ofNat 64 i) 1 v)).setFlags f = j := ⟨_, rfl⟩
    have ran : effects L.env L.address [load8 .rax .rsi 0, store8 .rdi 0 .rax, testRegReg .rax .rax] k = some j := by
      rw [effects_cons, load8, effect_mov8RegMem, Option.bind_some, effects_cons, store8, effect_mov8MemReg, Option.bind_some]
      simpa [source, target, value, shape] using tested
    have flags : X64.Cond.e.holds j.flags = decide (i = name.1.length) := by
      rw [← shape, X64.Cpu.setFlags_flags, zf]
      refine decide_eq_decide.mpr (Iff.trans ?_ nul)
      simp
    have mem' : j.mem = (X64.Strip.copy^[i + 1] ⟨m.mem, a, p⟩).mem := by
      rw [← written, ← shape]
      rfl
    have regs' (r : Reg) (other : r ∉ [.rax, .rcx, .rdi, .rsi]) : j.reg r = m.reg r := by
      obtain ⟨notRax, -⟩ : r ≠ .rax ∧ r ≠ .rcx ∧ r ≠ .rdi ∧ r ≠ .rsi := by simpa using other
      simpa [← shape, notRax] using regs r other
    have looked : L.Leaves ([load8 .rax .rsi 0, store8 .rdi 0 .rax, testRegReg .rax .rax] ++ [.jcc "eq" done]) k
        (fun target e => target = done ∧ NameCopied m a name e) fun e => e = j ∧ i < name.1.length := by
      refine .append (.straight ran rfl) fun e same => ?_
      subst same
      refine .jcc (show jumpCondition "eq" = some .e by decide) (fun taken => ?_) fun falls => ?_
      · -- The NUL has been copied: the name is no longer than fourteen bytes.
        have last := of_decide_eq_true (flags.symm.trans taken)
        have whole : name.cut = name := FileTable.cut_short (by omega)
        refine ⟨rfl, ?_, fun x far => ?_, regs'⟩
        · refine spelled.cut (fun l less => ?_) ?_
          · rw [whole] at less
            rw [mem', byte (by omega) (by omega) (by omega)]
          · rw [whole, mem', byte (by omega) (by omega) (by omega)]
            exact spelled.string.nul
        · rw [mem', copied (by omega) (by omega), if_neg (by omega)]
      · exact ⟨rfl, lt_of_le_of_ne passed (of_decide_eq_false (flags.symm.trans falls))⟩
    refine looked.append fun e more => ?_
    obtain ⟨rfl, taken⟩ := more
    let l := ((e.set .rsi (p + BitVec.ofNat 64 (i + 1))).set .rdi (a + BitVec.ofNat 64 (i + 1))).setFlags
      ((e.flags.add (p + BitVec.ofNat 64 i) 1 false).add (a + BitVec.ofNat 64 i) 1 false)
    have moved : effects L.env L.address [addRegImm .rsi 1, addRegImm .rdi 1] e = some l := by
      simp [← shape, source, target, l, BitVec.add_assoc, BitVec.ofNat_add]
      rfl
    have count : l.reg .rcx = BitVec.ofNat 64 (n + 1) := by simpa [l, ← shape] using rcx
    obtain ⟨f', counted, zf'⟩ := @count_effects l L.env L.address .rcx n (by omega) count
    refine .straight (d := (l.set .rcx (BitVec.ofNat 64 n)).setFlags f') ?_
      ⟨⟨by omega, by omega, ?_, ?_, ?_, ?_, fun r other => ?_⟩, zf'⟩
    · change effects L.env L.address
        ([addRegImm .rsi 1, addRegImm .rdi 1] ++ [subRegImm .rcx 1, testRegReg .rcx .rcx]) e = _
      rw [effects_append, moved, Option.bind_some, counted]
    · simp [l, next]
    · simp [l, next]
    · simp
    · rw [next]
      exact mem'
    · obtain ⟨-, notRcx, notRdi, notRsi⟩ : r ≠ .rax ∧ r ≠ .rcx ∧ r ≠ .rdi ∧ r ≠ .rsi := by simpa using other
      simpa [l, notRcx, notRdi, notRsi] using regs' r other
  have entered : L.Leaves [.movRegReg .rdi SCRATCH, .movRegReg .rsi .r12, .movRegImm64 .rcx 15] m
      (fun target d => target = done ∧ NameCopied m a name d) (Copying m a p name 15) := by
    refine .straight (d := ((m.set .rdi a).set .rsi p).set .rcx 15) (by simp [SCRATCH, target, source])
      ⟨Nat.le_refl _, Nat.zero_le _, ?_, ?_, ?_, rfl, fun r other => ?_⟩
    · simp
    · simp
    · simp
    · obtain ⟨-, notRcx, notRdi, notRsi⟩ : r ≠ .rax ∧ r ≠ .rcx ∧ r ≠ .rdi ∧ r ≠ .rsi := by simpa using other
      simp [notRcx, notRdi, notRsi]
  refine (entered.append fun k start => .repeated (show jumpCondition "neq" = some .ne by decide) round start).append
    fun k last => ?_
  -- Fifteen bytes have been copied, and the NUL goes behind them.
  obtain ⟨-, long, target, -, -, mem, regs⟩ := last
  have length : name.cut.1.length = 15 := by simpa [FileName.cut] using long
  refine .straight (d := ((k.set .rax 0).setFlags (k.flags.logic (L.env.undefined k.flags (k.reg .rax) (k.reg .rax)) 0)).setMem
    (k.mem.store (a + BitVec.ofNat 64 15) 1 0)) (by simp [store8, target]) ⟨?_, fun x far => ?_, fun r other => ?_⟩
  · refine spelled.cut (fun l less => ?_) ?_
    · rw [length] at less
      rw [X64.Cpu.setMem_mem, X64.Strip.store_byte_of_ne (by bv_omega), mem]
      exact byte (Nat.le_refl _) (by omega) less
    · rw [length, X64.Cpu.setMem_mem, X64.Memory.store_front Nat.one_pos]
      rfl
  · rw [X64.Cpu.setMem_mem, X64.Strip.store_byte_of_ne (by bv_omega), mem, copied (Nat.le_refl _) (by omega),
      if_neg (by omega)]
  · obtain ⟨notRax, -⟩ : r ≠ .rax ∧ r ≠ .rcx ∧ r ≠ .rdi ∧ r ≠ .rsi := by simpa using other
    simpa [notRax] using regs r other

/-- The slot behind the files is found and named, unless all slots are taken. -/
structure SlotNamed (c : Cpu) (b : Word) (t : FileTable) (name : FileName) (d : Cpu) : Prop where
  cursor : d.reg .r15 = slot b t.1.length
  spelled : t.1.length < 8 → Spelled d.mem (slot b t.1.length) name.cut
  only : OnlyIn (slot b t.1.length) 16 c.mem d.mem
  full : t.1.length = 8 → d.mem = c.mem
  regs : ∀ r, r ∉ [.rax, .rcx, .rdi, .rsi, .r15] → d.reg r = c.reg r

theorem place_meets (table : Table c.mem b t) (spelled : Spelled c.mem p name) (apart : Separate b 256 p (name.1.length + 1))
    (cursor : c.reg .r15 = b) (count : c.reg .rcx = 8) (source : c.reg .r12 = p) (top found done copy : String) :
    L.Meets (freeSlot top found ++ [.jmp done] ++ [.label found] ++ copyName copy done ++ [.label done]) c
      (SlotNamed c b t name) := by
  have start : Searching c b t 8 c := ⟨Nat.le_refl _, Nat.zero_le _, by simp [slot, cursor], count, rfl, fun _ _ => rfl⟩
  have free (r : Reg) (other : r ∉ [.rax, .rcx, .rdi, .rsi, .r15]) :
      r ∉ [Reg.rax, .rcx, .r15] ∧ r ∉ [Reg.rax, .rcx, .rdi, .rsi] := by
    revert other
    cases r <;> decide
  have searched : L.Leaves (freeSlot top found ++ [.jmp done]) c
      (fun target d => (target = found ∧ t.1.length < 8 ∧ Behind c b t d) ∨ (target = done ∧ SlotNamed c b t name d))
      fun _ => False := by
    refine .append ((freeSlot_leaves table start top found).mono (fun _ _ => .inl) fun _ full => full) fun d full => ?_
    obtain ⟨all, behind⟩ := full
    refine .jmp (.inr ⟨rfl, behind.cursor, fun less => absurd less (by omega), ?_, fun _ => behind.mem, fun r other => ?_⟩)
    · rw [behind.mem]
      exact .refl _ _ _
    · exact behind.regs r (free r other).1
  have entered : L.Leaves (freeSlot top found ++ [.jmp done] ++ [.label found]) c
      (fun target d => target = done ∧ SlotNamed c b t name d) fun d => t.1.length < 8 ∧ Behind c b t d :=
    searched.label (fun _ none => none.elim) fun _ _ out => out.imp_left fun first => ⟨first.1, first.2⟩
  have named : L.Leaves (freeSlot top found ++ [.jmp done] ++ [.label found] ++ copyName copy done) c
      (fun target d => target = done ∧ SlotNamed c b t name d) (SlotNamed c b t name) := by
    refine entered.append fun k at' => ?_
    obtain ⟨less, behind⟩ := at'
    have clear : Separate (slot b t.1.length) 32 p (name.1.length + 1) := by
      have part : Separate (slot b t.1.length) 32 (p + BitVec.ofNat 64 0) (name.1.length + 1) :=
        apart.mono (by omega) (by omega) (by omega)
      simpa [slot] using part
    have copied (d : Cpu) (copied : NameCopied k (slot b t.1.length) name d) : SlotNamed c b t name d := by
      have only := behind.mem ▸ copied.only
      refine ⟨?_, fun _ => copied.spelled, only, fun full => absurd less (by omega), fun r other => ?_⟩
      · rw [copied.regs .r15 (by decide), behind.cursor]
      · rw [copied.regs r (free r other).2, behind.regs r (free r other).1]
    refine (copyName_leaves (behind.mem ▸ spelled) clear behind.cursor ?_ copy done).mono (fun _ d out => ?_) copied
    · rw [behind.regs .r12 (by decide), source]
    · exact ⟨out.1, copied d out.2⟩
  exact (named.label (fun _ placed => placed) fun _ _ out => .inl out).meets

/-- A file has been stored: nothing has changed but the slot behind the files, or the last two words of 32 bytes behind
the table where that is full, and the words pushed. -/
structure PutDone (b : Word) (t : FileTable) (name : FileName) (v w : Word) (c d : Cpu) : Prop where
  table : Table d.mem b (t.put name v w)
  data : d.mem.load (slot b t.1.length + 16) 8 = v
  length : d.mem.load (slot b t.1.length + 24) 8 = w
  only : ∀ x : Word, (x - c.reg .rsp).toNat + 24 < 2 ^ 64 → 32 ≤ (x - slot b t.1.length).toNat → d.mem x = c.mem x
  full : t.1.length = 8 → ∀ x : Word, (x - c.reg .rsp).toNat + 24 < 2 ^ 64 → (x - slot b 8).toNat < 16 → d.mem x = c.mem x
  sp : d.reg .rsp = c.reg .rsp

theorem ramfsPut_meets {o o₁ o₂ : Operand} (plain : o.Outside [.r12, .r13, .r14]) (plain₁ : o₁.Outside [.r12, .r13, .r14])
    (plain₂ : o₂.Outside [.r12, .r13, .r14]) (table : Table c.mem (L.address (data "__ramfs")) t)
    (spelled : Spelled c.mem (o.value L.address c) name) (clear : StackClear L c 24 "__ramfs" 288)
    (clear' : Separate (c.reg .rsp - 24) 24 (o.value L.address c) (name.1.length + 1))
    (apart : Separate (L.address (data "__ramfs")) 256 (o.value L.address c) (name.1.length + 1))
    (top found done copy : String) :
    L.Meets (ramfsPutCalls o o₁ o₂ top found done copy) c
      (PutDone (L.address (data "__ramfs")) t name (o₁.value L.address c) (o₂.value L.address c) c) := by
  obtain ⟨b, base⟩ : ∃ b, L.address (data "__ramfs") = b := ⟨_, rfl⟩
  obtain ⟨p, pointer⟩ : ∃ p, o.value L.address c = p := ⟨_, rfl⟩
  obtain ⟨v, value⟩ : ∃ v, o₁.value L.address c = v := ⟨_, rfl⟩
  obtain ⟨w, value'⟩ : ∃ w, o₂.value L.address c = w := ⟨_, rfl⟩
  unfold StackClear at clear
  rw [base] at table clear apart ⊢
  rw [pointer] at spelled clear' apart
  rw [value, value']
  have room := t.2
  refine .saving (by decide) (by decide) (by decide) fun m saved => ?_
  -- The operands, each read before its register is one of another.
  let k := ((((m.set .r12 p).set .r13 v).set .r14 w).set .r15 b).set .rcx 8
  have read {o : Operand} (plain : o.Outside [.r12, .r13, .r14]) {k : Cpu}
      (kept : ∀ r, r ∉ [Reg.r12, .r13, .r14] → k.reg r = m.reg r) : o.value L.address k = o.value L.address c :=
    plain.value_eq fun r user other => by rw [kept r other, saved.regs r ((user_iff r).mp user).1]
  have front : effects L.env L.address (o.mov .r12 ++ o₁.mov .r13 ++ o₂.mov .r14 ++
      [.leaRegLabel SCRATCH (data "__ramfs"), .movRegImm64 .rcx 8]) m = some k := by
    rw [effects_append, effects_append, effects_append, mov_effects, Option.bind_some, mov_effects, Option.bind_some,
      mov_effects, Option.bind_some, read plain fun _ _ => rfl,
      read plain₁ fun r other => by simp [(show r ≠ .r12 by rintro rfl; exact other (by decide))],
      read plain₂ fun r other => by
        simp [(show r ≠ .r12 by rintro rfl; exact other (by decide)), (show r ≠ .r13 by rintro rfl; exact other (by decide))],
      pointer, value, value']
    simp [SCRATCH, base, k]
  have kept : k.mem = m.mem := rfl
  have table' : Table k.mem b t := by
    have part : Separate (c.reg .rsp - 24) 24 (b + BitVec.ofNat 64 0) 256 := clear.right (by decide) (by decide)
    exact table.sameOn (saved.sameOn (by simpa using part))
  have placed := place_meets (L := L) table' (spelled.sameOn (saved.sameOn clear')) apart (by simp [k]) (by simp [k])
    (by simp [k]) top found done copy
  have entered : L.Meets (o.mov .r12 ++ o₁.mov .r13 ++ o₂.mov .r14 ++ [.leaRegLabel SCRATCH (data "__ramfs"), .movRegImm64 .rcx 8])
      m (· = k) := .straight front rfl
  refine (entered.append fun d same => by rw [same]; exact placed).append fun d placed => ?_
  obtain ⟨cursor, named, only, full, regs⟩ := placed
  rw [kept] at only full
  obtain ⟨a, target⟩ : ∃ a, slot b t.1.length = a := ⟨_, rfl⟩
  rw [target] at cursor named only
  have r13 : d.reg .r13 = v := (regs .r13 (by decide)).trans (by simp [k])
  have r14 : d.reg .r14 = w := (regs .r14 (by decide)).trans (by simp [k])
  obtain ⟨mem, stored⟩ : ∃ mem, (d.mem.store (a + BitVec.ofNat 64 16) 8 v).store (a + BitVec.ofNat 64 24) 8 w = mem := ⟨_, rfl⟩
  have words : OnlyIn (a + BitVec.ofNat 64 16) 16 d.mem mem := by
    have first := @OnlyIn.store (a + BitVec.ofNat 64 16) 16 8 d.mem 0 (by decide) (by decide) v
    have second := @OnlyIn.store (a + BitVec.ofNat 64 16) 16 8 (d.mem.store (a + BitVec.ofNat 64 16) 8 v) 8 (by decide) (by decide) w
    have next : a + BitVec.ofNat 64 16 + BitVec.ofNat 64 8 = a + BitVec.ofNat 64 24 := by bv_omega
    rw [BitVec.add_zero] at first
    rw [next, stored] at second
    exact first.trans second
  have whole : OnlyIn a 32 m.mem mem := fun x far => by
    rw [words x (by bv_omega), only x (by omega)]
  have data : mem.load (a + 16) 8 = v := by
    have apart := @X64.Memory.separate_offsets a 8 8 24 16 (.inr (by decide)) (by decide) (by decide) (by decide) (by decide)
    rw [← stored]
    exact (X64.Memory.load_store_apart apart w).trans (X64.Memory.load_store_word _ _ _)
  have length : mem.load (a + 24) 8 = w := by
    rw [← stored]
    exact X64.Memory.load_store_word _ _ _
  have spelledThere (less : t.1.length < 8) : Spelled mem a name.cut := by
    have short : name.cut.1.length ≤ 15 := List.length_take_le 15 name.1
    exact (named less).sameOn fun x near => words x (by bv_omega)
  have far : Separate (c.reg .rsp - 24) 24 a 32 := by
    have part : Separate (c.reg .rsp - 24) 24 (b + BitVec.ofNat 64 (32 * t.1.length)) 32 :=
      clear.right (by omega) (by decide)
    rwa [show b + BitVec.ofNat 64 (32 * t.1.length) = a from target] at part
  refine .straight (d := d.setMem mem) (by simp [store64, SCRATCH, cursor, r13, r14, ← stored]; rfl) ⟨?_, ?_, fun e back => ?_⟩
  · simp [regs .rsp, k]
  · exact saved.keeps far (by decide) whole
  have above (x : Word) (up : (x - c.reg .rsp).toNat + 24 < 2 ^ 64) : m.mem x = c.mem x := saved.sameAbove x up
  have here : e.mem = mem := back.mem
  refine ⟨?_, by rw [here, target]; exact data, by rw [here, target]; exact length, fun x up out => ?_, fun all x up near => ?_,
    back.sp⟩
  · rw [here]
    rcases Nat.lt_or_ge t.1.length 8 with less | all
    · exact table'.put (by rw [target]; exact whole) less (by rw [target]; exact spelledThere less) (by rw [target]; exact data)
        (by rw [target]; exact length)
    · -- The table is full, and the words stored are behind it.
      have same : t.put name v w = t := dif_neg fun both => absurd both.2 (by omega)
      rw [same]
      have all : t.1.length = 8 := by omega
      refine table'.sameOn fun x inside => whole x ?_
      rw [← target, all]
      unfold slot
      bv_omega
  · rw [here, ← above x up]
    exact whole x (by rwa [target] at out)
  · rw [here, words x ?_, full all, above x up]
    rw [all] at target
    rw [target] at near
    bv_omega

/-! ### Looking up -/

/-- The bytes before the cursors agree, and none of them is a NUL. -/
structure Comparing (c : Cpu) (a p : Word) (s : FileName) (n : Nat) (d : Cpu) : Prop where
  le : n ≤ 16
  passed : 16 - n ≤ s.1.length
  left : d.reg .rsi = a + BitVec.ofNat 64 (16 - n)
  right : d.reg .rdi = p + BitVec.ofNat 64 (16 - n)
  r14 : d.reg .r14 = BitVec.ofNat 64 n
  same : ∀ j < 16 - n, c.mem (a + BitVec.ofNat 64 j) = c.mem (p + BitVec.ofNat 64 j)
  mem : d.mem = c.mem
  regs : ∀ r, r ∉ [.rax, .rdx, .rdi, .rsi, .r14] → d.reg r = c.reg r

/-- Nothing has changed but registers that are used for the comparison. -/
structure Compared (c d : Cpu) : Prop where
  mem : d.mem = c.mem
  regs : ∀ r, r ∉ [.rax, .rdx, .rdi, .rsi, .r14] → d.reg r = c.reg r

theorem compareName_leaves {s : FileName} (short : s.1.length ≤ 15) (spelled : Spelled c.mem a s)
    (spelled' : Spelled c.mem p name) (left : c.reg .r13 = a) (right : c.reg .r12 = p) (top ne ok : String) :
    L.Leaves (compareName top ne ok) c
      (fun target d => (target = ne ∧ s ≠ name ∨ target = ok ∧ s = name) ∧ Compared c d) fun _ => False := by
  have agree := spelled.eq_iff spelled'
  have round (n : Nat) (k : Cpu) (here : Comparing c a p s (n + 1) k) :
      L.Leaves ([load8 .rax .rsi 0, load8 .rdx .rdi 0, cmpRegReg .rax .rdx] ++ [.jcc "neq" ne] ++
        [testRegReg .rax .rax] ++ [.jcc "eq" ok] ++
        [addRegImm .rsi 1, addRegImm .rdi 1, subRegImm .r14 1, testRegReg .r14 .r14]) k
        (fun target d => (target = ne ∧ s ≠ name ∨ target = ok ∧ s = name) ∧ Compared c d)
        fun e => Comparing c a p s n e ∧ X64.Cond.ne.holds e.flags = decide (n ≠ 0) := by
    obtain ⟨le, passed, left, right, r14, same, mem, regs⟩ := here
    obtain ⟨i, sum⟩ : ∃ i, 16 - (n + 1) = i := ⟨_, rfl⟩
    rw [sum] at passed left right same
    have next : 16 - n = i + 1 := by omega
    let v := c.mem.load (a + BitVec.ofNat 64 i) 1
    let w := c.mem.load (p + BitVec.ofNat 64 i) 1
    obtain ⟨j, shape⟩ : ∃ j, ((k.set .rax v).set .rdx w).setFlags (k.flags.sub v w false) = j := ⟨_, rfl⟩
    have ran : effects L.env L.address [load8 .rax .rsi 0, load8 .rdx .rdi 0, cmpRegReg .rax .rdx] k = some j := by
      simp [load8, left, right, mem, v, w, ← shape]
    have regs' (r : Reg) (other : r ∉ [.rax, .rdx, .rdi, .rsi, .r14]) : j.reg r = c.reg r := by
      obtain ⟨notRax, notRdx, -⟩ : r ≠ .rax ∧ r ≠ .rdx ∧ r ≠ .rdi ∧ r ≠ .rsi ∧ r ≠ .r14 := by simpa using other
      simpa [← shape, notRax, notRdx] using regs r other
    have mem' : j.mem = c.mem := by simpa [← shape] using mem
    have first : L.Leaves ([load8 .rax .rsi 0, load8 .rdx .rdi 0, cmpRegReg .rax .rdx] ++ [.jcc "neq" ne]) k
        (fun target d => (target = ne ∧ s ≠ name ∨ target = ok ∧ s = name) ∧ Compared c d) fun e => e = j ∧ v = w := by
      refine .append (.straight ran rfl) fun e here => ?_
      subst here
      have flags : X64.Cond.ne.holds j.flags = decide (v ≠ w) := by rw [← shape, X64.Cpu.setFlags_flags, X64.holds_ne]
      refine .jcc (show jumpCondition "neq" = some .ne by decide) (fun taken => ?_) fun falls => ?_
      · have differ := of_decide_eq_true (flags.symm.trans taken)
        refine ⟨.inl ⟨rfl, fun equal => differ ?_⟩, mem', regs'⟩
        exact X64.Memory.load_byte_inj.mpr (agree.mp equal i passed)
      · exact ⟨rfl, not_not.mp (of_decide_eq_false (flags.symm.trans falls))⟩
    obtain ⟨f, tested, zf⟩ := test_effects L.env L.address j .rax
    have second : L.Leaves ([load8 .rax .rsi 0, load8 .rdx .rdi 0, cmpRegReg .rax .rdx] ++ [.jcc "neq" ne] ++
        [testRegReg .rax .rax] ++ [.jcc "eq" ok]) k
        (fun target d => (target = ne ∧ s ≠ name ∨ target = ok ∧ s = name) ∧ Compared c d)
        fun e => e = j.setFlags f ∧ v = w ∧ i < s.1.length := by
      have both : L.Leaves ([load8 .rax .rsi 0, load8 .rdx .rdi 0, cmpRegReg .rax .rdx] ++ [.jcc "neq" ne] ++
          [testRegReg .rax .rax]) k (fun target d => (target = ne ∧ s ≠ name ∨ target = ok ∧ s = name) ∧ Compared c d)
          fun e => e = j.setFlags f ∧ v = w :=
        first.append fun e here => by
          rw [here.1]
          exact .straight tested ⟨rfl, here.2⟩
      refine both.append fun e here => ?_
      obtain ⟨rfl, equal⟩ := here
      have byte := X64.Memory.load_byte_inj.mp equal
      have flags : X64.Cond.e.holds f = decide (i = s.1.length) := by
        rw [zf, ← shape]
        refine decide_eq_decide.mpr (Iff.trans ?_ (spelled.string.nul_iff passed))
        simpa [v] using X64.Memory.load_byte_eq_zero
      refine .jcc (show jumpCondition "eq" = some .e by decide) (fun taken => ?_) fun falls => ?_
      · obtain rfl := of_decide_eq_true (flags.symm.trans taken)
        refine ⟨.inr ⟨rfl, agree.mpr fun l le => ?_⟩, mem', regs'⟩
        rcases le.lt_or_eq with less | rfl
        · exact same l less
        · exact byte
      · exact ⟨rfl, equal, lt_of_le_of_ne passed (of_decide_eq_false (flags.symm.trans falls))⟩
    refine second.append fun e more => ?_
    obtain ⟨here, equal, inside⟩ := more
    let l := ((e.set .rsi (a + BitVec.ofNat 64 (i + 1))).set .rdi (p + BitVec.ofNat 64 (i + 1))).setFlags
      ((e.flags.add (a + BitVec.ofNat 64 i) 1 false).add (p + BitVec.ofNat 64 i) 1 false)
    have moved : effects L.env L.address [addRegImm .rsi 1, addRegImm .rdi 1] e = some l := by
      simp [here, ← shape, left, right, l, BitVec.add_assoc, BitVec.ofNat_add]
      rfl
    have count : l.reg .r14 = BitVec.ofNat 64 (n + 1) := by simpa [l, here, ← shape] using r14
    obtain ⟨f', counted, zf'⟩ := @count_effects l L.env L.address .r14 n (by omega) count
    refine .straight (d := (l.set .r14 (BitVec.ofNat 64 n)).setFlags f') ?_
      ⟨⟨by omega, by omega, ?_, ?_, ?_, fun m less => ?_, ?_, fun r other => ?_⟩, zf'⟩
    · change effects L.env L.address
        ([addRegImm .rsi 1, addRegImm .rdi 1] ++ [subRegImm .r14 1, testRegReg .r14 .r14]) e = _
      rw [effects_append, moved, Option.bind_some, counted]
    · simp [l, next]
    · simp [l, next]
    · simp
    · rw [next] at less
      rcases Nat.lt_succ_iff_lt_or_eq.mp less with earlier | rfl
      · exact same m earlier
      · exact X64.Memory.load_byte_inj.mp equal
    · exact (congrArg Cpu.mem here).trans mem'
    · obtain ⟨-, -, notRdi, notRsi, notR14⟩ : r ≠ .rax ∧ r ≠ .rdx ∧ r ≠ .rdi ∧ r ≠ .rsi ∧ r ≠ .r14 := by simpa using other
      simpa [l, here, notRdi, notRsi, notR14] using regs' r other
  have entered : L.Leaves [.movRegReg .rsi .r13, .movRegReg .rdi .r12, .movRegImm64 .r14 16] c
      (fun target d => (target = ne ∧ s ≠ name ∨ target = ok ∧ s = name) ∧ Compared c d) (Comparing c a p s 16) := by
    refine .straight (d := ((c.set .rsi a).set .rdi p).set .r14 16) (by simp [left, right])
      ⟨Nat.le_refl _, Nat.zero_le _, by simp, by simp, by simp, by simp, rfl, fun r other => ?_⟩
    obtain ⟨-, -, notRdi, notRsi, notR14⟩ : r ≠ .rax ∧ r ≠ .rdx ∧ r ≠ .rdi ∧ r ≠ .rsi ∧ r ≠ .r14 := by simpa using other
    simp [notRdi, notRsi, notR14]
  -- The name of the slot ends before sixteen bytes have been compared.
  refine (entered.append fun k start => .repeated (show jumpCondition "neq" = some .ne by decide) round start).append
    fun k last => ?_
  have passed := last.passed
  omega

/-- No slot before the cursor has the name. -/
structure Seeking (c : Cpu) (b : Word) (t : FileTable) (name : FileName) (n : Nat) (d : Cpu) : Prop where
  le : n ≤ 8
  cursor : d.reg .r13 = slot b (8 - n)
  rcx : d.reg .rcx = BitVec.ofNat 64 n
  before : ∀ j < 8 - n, t.nameAt j ≠ name
  mem : d.mem = c.mem
  regs : ∀ r, r ∉ [.rax, .rcx, .rdx, .rdi, .rsi, .r13, .r14] → d.reg r = c.reg r

/-- The cursor is at the first slot that has the name. -/
structure Found (c : Cpu) (b : Word) (t : FileTable) (name : FileName) (d : Cpu) : Prop where
  cursor : ∃ i < 8, d.reg .r13 = slot b i ∧ t.nameAt i = name ∧ ∀ j < i, t.nameAt j ≠ name
  mem : d.mem = c.mem
  regs : ∀ r, r ∉ [.rax, .rcx, .rdx, .rdi, .rsi, .r13, .r14] → d.reg r = c.reg r

/-- Where the loop is left to: a slot with the name, or behind the last slot. -/
def Sought (c : Cpu) (b : Word) (t : FileTable) (name : FileName) (ok : String) (target : String) (d : Cpu) : Prop :=
  target = ok ∧ Found c b t name d

theorem seek_leaves (table : Table c.mem b t) (spelled : Spelled c.mem p name) (right : c.reg .r12 = p) {d : Cpu}
    (start : Seeking c b t name 8 d) (top compare ne ok : String) :
    L.Leaves (repeated "neq" top (compareName compare ne ok ++ [.label ne] ++
      [addRegImm .r13 32, subRegImm .rcx 1, testRegReg .rcx .rcx])) d (Sought c b t name ok) (Seeking c b t name 0) := by
  refine .repeated (show jumpCondition "neq" = some .ne by decide) (fun n k here => ?_) start
  obtain ⟨le, cursor, rcx, before, mem, regs⟩ := here
  obtain ⟨i, sum⟩ : ∃ i, 8 - (n + 1) = i := ⟨_, rfl⟩
  rw [sum] at cursor before
  have next : 8 - n = i + 1 := by omega
  have below : i < 8 := by omega
  have compared := compareName_leaves (L := L) (FileTable.nameAt_short i) (mem ▸ table.named below) (mem ▸ spelled) cursor
    ((regs .r12 (by decide)).trans right) compare ne ok
  have kept (e : Cpu) (compared : Compared k e) (r : Reg) (other : r ∉ [.rax, .rcx, .rdx, .rdi, .rsi, .r13, .r14]) :
      e.reg r = c.reg r := by
    refine (compared.regs r ?_).trans (regs r other)
    revert other
    cases r <;> decide
  -- The slot has another name: the jump stays inside, and the cursor goes on.
  have labelled : L.Leaves (compareName compare ne ok ++ [.label ne]) k (Sought c b t name ok) fun e =>
      t.nameAt i ≠ name ∧ Compared k e := by
    refine compared.label (fun _ none => none.elim) fun target e out => ?_
    obtain ⟨⟨is, differ⟩ | ⟨is, same⟩, left⟩ := out
    · exact .inl ⟨is, differ, left⟩
    · refine .inr ⟨is, ⟨i, below, ?_, same, before⟩, left.mem.trans mem, kept e left⟩
      exact (left.regs .r13 (by decide)).trans cursor
  refine labelled.append fun e more => ?_
  obtain ⟨differ, whole⟩ := more
  have cursor' : e.reg .r13 = slot b i := (whole.regs .r13 (by decide)).trans cursor
  let l := (e.set .r13 (slot b (i + 1))).setFlags (e.flags.add (slot b i) 32 false)
  have moved : effects L.env L.address [addRegImm .r13 32] e = some l := by
    have next : slot b i + 32#64 = slot b (i + 1) := by unfold slot; bv_omega
    simp [cursor', next, l]
  have count : l.reg .rcx = BitVec.ofNat 64 (n + 1) := by
    simpa [l] using (whole.regs .rcx (by decide)).trans rcx
  obtain ⟨f, counted, zf⟩ := @count_effects l L.env L.address .rcx n (by omega) count
  refine .straight (d := (l.set .rcx (BitVec.ofNat 64 n)).setFlags f) ?_
    ⟨⟨by omega, ?_, ?_, fun j less => ?_, ?_, fun r other => ?_⟩, zf⟩
  · change effects L.env L.address ([addRegImm .r13 32] ++ [subRegImm .rcx 1, testRegReg .rcx .rcx]) e = _
    rw [effects_append, moved, Option.bind_some, counted]
  · simp [l, next]
  · simp
  · rw [next] at less
    rcases Nat.lt_succ_iff_lt_or_eq.mp less with earlier | rfl
    · exact before j earlier
    · exact differ
  · exact whole.mem.trans mem
  · have same := kept e whole r other
    obtain ⟨-, notRcx, -, -, -, notR13, -⟩ :
        r ≠ .rax ∧ r ≠ .rcx ∧ r ≠ .rdx ∧ r ≠ .rdi ∧ r ≠ .rsi ∧ r ≠ .r13 ∧ r ≠ .r14 := by simpa using other
    simpa [l, notRcx, notR13] using same

/-- The word behind the name that is found, or zero, is in `dst`. -/
structure Looked (c : Cpu) (dst : Reg) (v : Word) (d : Cpu) : Prop where
  value : d.reg dst = v
  mem : d.mem = c.mem
  sp : d.reg .rsp = c.reg .rsp

theorem lookup_meets {dst : Reg} (notSp : dst ≠ .rsp) (table : Table c.mem b t) (nonempty : name.1 ≠ [])
    (spelled : Spelled c.mem p name) (right : c.reg .r12 = p) (cursor : c.reg .r13 = b) (count : c.reg .rcx = 8)
    (top compare ne fail ok done : String) :
    L.Meets (repeated "neq" top (compareName compare ne ok ++ [Call.label ne] ++
      [addRegImm .r13 32, subRegImm .rcx 1, testRegReg .rcx .rcx]) ++ [Call.jmp fail] ++ [Call.label ok] ++
      [load64 dst .r13 16] ++ [Call.jmp done] ++ [Call.label fail] ++ [xorRegReg dst dst] ++ [Call.label done]) c
      (Looked c dst (t.get name)) := by
  have start : Seeking c b t name 8 c := ⟨Nat.le_refl _, by simp [slot, cursor], count, by simp, rfl, fun _ _ => rfl⟩
  -- Behind the loop the name is that of no slot.
  let Missed (d : Cpu) : Prop := t.get name = 0 ∧ d.mem = c.mem ∧ d.reg .rsp = c.reg .rsp
  let out (target : String) (d : Cpu) : Prop := target = fail ∧ Missed d ∨ target = done ∧ Looked c dst (t.get name) d
  have searched : L.Leaves (repeated "neq" top (compareName compare ne ok ++ [Call.label ne] ++
      [addRegImm .r13 32, subRegImm .rcx 1, testRegReg .rcx .rcx]) ++ [Call.jmp fail]) c
      (fun target d => Sought c b t name ok target d ∨ out target d) fun _ => False := by
    refine .append ((seek_leaves table spelled right start top compare ne ok).mono (fun _ _ => .inl) fun _ last => last)
      fun d last => .jmp (.inr (.inl ⟨rfl, ?_, last.mem, last.regs .rsp (by decide)⟩))
    exact X64.Memory.Table.get_none last.before
  have loaded : L.Leaves (repeated "neq" top (compareName compare ne ok ++ [Call.label ne] ++
      [addRegImm .r13 32, subRegImm .rcx 1, testRegReg .rcx .rcx]) ++ [Call.jmp fail] ++ [Call.label ok] ++
      [load64 dst .r13 16]) c out (Looked c dst (t.get name)) := by
    refine .append (searched.label (fun _ none => none.elim) fun _ _ left => left) fun d found => ?_
    obtain ⟨⟨i, below, place, same, before⟩, mem, regs⟩ := found
    refine .straight (d := d.set dst (d.mem.load (d.reg .r13 + BitVec.ofInt 64 16) 8))
      (by rw [effects_cons, load64, effect_movRegMem, Option.bind_some, effects_nil]) ⟨?_, mem, ?_⟩
    · rw [X64.Cpu.set_reg, if_pos rfl, place, mem]
      exact table.get nonempty same before
    · rw [X64.Cpu.set_reg, if_neg (Ne.symm notSp)]
      exact regs .rsp (by decide)
  have left := loaded.append fun d looked => (Listing.Leaves.jmp (.inr ⟨rfl, looked⟩) : L.Leaves [Call.jmp done] d out fun _ => False)
  have missed : L.Leaves _ c (fun target d => target = done ∧ Looked c dst (t.get name) d) Missed :=
    left.label (fun _ none => none.elim) fun _ _ left => left.imp_left id
  have cleared := missed.append fun d none => by
    obtain ⟨value, mem, sp⟩ := none
    refine (.straight (by rw [effects_cons, effect_clear, Option.bind_some, effects_nil]) ⟨?_, ?_, ?_⟩ :
      L.Leaves [xorRegReg dst dst] d _ (Looked c dst (t.get name)))
    · simp [value]
    · exact mem
    · simpa [Ne.symm notSp] using sp
  exact (cleared.label (fun _ looked => looked) fun _ _ out => .inl out).meets

/-- What is looked up is in `dst`, and nothing has changed above the words pushed. -/
structure GetDone (dst : Reg) (v : Word) (c d : Cpu) : Prop where
  value : d.reg dst = v
  mem : X64.Memory.SameAbove (c.reg .rsp) 24 c.mem d.mem
  only : OnlyIn (c.reg .rsp - 24) 24 c.mem d.mem
  sp : d.reg .rsp = c.reg .rsp

theorem ramfsGet_meets {dst : Reg} (user : User dst) (other : dst ∉ [Reg.r12, .r13, .r14]) {o : Operand}
    (plain : o.Outside [.r12, .r13, .r14]) (table : Table c.mem (L.address (data "__ramfs")) t) (nonempty : name.1 ≠ [])
    (spelled : Spelled c.mem (o.value L.address c) name) (clear : StackClear L c 24 "__ramfs" 256)
    (clear' : Separate (c.reg .rsp - 24) 24 (o.value L.address c) (name.1.length + 1))
    (top compare ne fail ok done : String) :
    L.Meets (ramfsGetCalls dst o top compare ne fail ok done) c (GetDone dst (t.get name) c) := by
  obtain ⟨notSp, -, -, -⟩ := (user_iff dst).mp user
  obtain ⟨b, base⟩ : ∃ b, L.address (data "__ramfs") = b := ⟨_, rfl⟩
  obtain ⟨p, pointer⟩ : ∃ p, o.value L.address c = p := ⟨_, rfl⟩
  unfold StackClear at clear
  rw [base] at table clear
  rw [pointer] at spelled clear'
  refine .saving (by decide) (by decide) (by decide) fun m saved => ?_
  have value : o.value L.address m = p :=
    (plain.value_eq fun r user _ => saved.regs r ((user_iff r).mp user).1).trans pointer
  let k := ((m.set .r12 p).set .r13 b).set .rcx 8
  have entered : L.Meets (o.mov .r12 ++ [.leaRegLabel .r13 (data "__ramfs"), .movRegImm64 .rcx 8]) m (· = k) :=
    .straight (by rw [effects_append, mov_effects, Option.bind_some, value]; simp [base, k]) rfl
  have looked := lookup_meets (L := L) (c := k) notSp (table.sameOn (saved.sameOn clear)) nonempty
    (spelled.sameOn (saved.sameOn clear')) (by simp [k]) (by simp [k]) (by simp [k]) top compare ne fail ok done
  refine (entered.append fun d same => by rw [same]; exact looked).mono fun d looked => ?_
  have mem : d.mem = m.mem := looked.mem
  refine ⟨looked.sp.trans (by simp [k]), mem ▸ .refl _ _ _, fun e back => ⟨?_, ?_, ?_, back.sp⟩⟩
  · rw [back.others dst other notSp, looked.value]
  · rw [back.mem, mem]
    exact saved.sameAbove
  · rw [back.mem, mem]
    have only := saved.mem
    rw [saved.sp] at only
    exact only

end Loops

end Aclm.Codegen
