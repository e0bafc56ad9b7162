import Aclm.Codegen.Captured
import Aclm.X64.Strip

/-! `wire:len`, `wire:cmp` and `wire:copy` measure, compare and copy strings that end with a NUL. -/

set_option autoImplicit false

namespace Aclm.Codegen

open X64 (Word Reg Cpu Env Machine Memory)
open X64.Memory (SameAbove SameOn OnlyIn Separate Terminated)
open Encoder

/-! ### The code -/

/-- The bytes in front of the NUL are counted. -/
def measure (dst : Reg) (top done : String) : List Call :=
  guarded "eq" top done [mov8RegMem SCRATCH .r11 0 none 1, testRegReg SCRATCH SCRATCH] [incReg dst, addRegImm .r11 1]

def wireLenCalls (dst : Reg) (o : Operand) (top done : String) : List Call :=
  saving [.r11] (o.mov SCRATCH ++ [.movRegReg .r11 SCRATCH, xorRegReg dst dst] ++ measure dst top done)

/-- Two operands in R11 and R12. -/
def wireFront (o o' : Operand) : List Call :=
  o.mov SCRATCH ++ [.movRegReg .r11 SCRATCH] ++ o'.mov SCRATCH ++ [.movRegReg .r12 SCRATCH]

def wireCmpCalls (dst : Reg) (o o' : Operand) (top eq ne done : String) : List Call :=
  saving TEMPS (wireFront o o' ++ searched "neq" "eq" top ne eq done
    [mov8RegMem .r13 .r11 0 none 1, mov8RegMem SCRATCH .r12 0 none 1, cmpRegReg .r13 SCRATCH] [testRegReg .r13 .r13]
    [addRegImm .r11 1, addRegImm .r12 1] [.movRegImm64 dst 1] [xorRegReg dst dst])

def wireCopyCalls (o o' : Operand) (top done : String) : List Call :=
  saving [.r11, .r12] (wireFront o o' ++ guarded "eq" top done [mov8RegMem SCRATCH .r12 0 none 1,
    mov8MemReg .r11 0 SCRATCH none 1, testRegReg SCRATCH SCRATCH] [addRegImm .r11 1, addRegImm .r12 1])

section Appended

variable {g : CodeGenerator} {src src' : Expr} {o o' : Operand} (found : g.operand src = .ok o)
  (found' : g.operand src' = .ok o')

theorem operand_script {s : List Call} (known : g.operand src = .ok o) : (g.withScript s).operand src = .ok o := by
  rw [operand_withScript, known]

include found

theorem wireLen_appends {name : String} {dst : Reg} (named : resolve name = .ok dst) :
    ∃ top done, Appends (.wireLen name src) g (wireLenCalls dst o top done) := by
  refine ⟨freshLabel "wlen" (g.labelI + 1), freshLabel "wlend" (g.labelI + 1 + 1), fun g' emission => ?_⟩
  simp only [emitOp, wireLen, reg_bind_ok, named, Except.ok.injEq, exists_eq_left', asm_bind_ok, newLabel_bind_ok,
    operand_bind_ok (operand_script found), asm_ok] at emission
  rw [emission]
  simp [wireLenCalls, measure, saving, guarded]

include found'

theorem wireCmp_appends {name : String} {dst : Reg} (named : resolve name = .ok dst) :
    ∃ top eq ne done, Appends (.wireCmp name src src') g (wireCmpCalls dst o o' top eq ne done) := by
  refine ⟨freshLabel "wcmp" (g.labelI + 1), freshLabel "wcmpeq" (g.labelI + 1 + 1), freshLabel "wcmpne" (g.labelI + 1 + 1 + 1),
    freshLabel "wcmpd" (g.labelI + 1 + 1 + 1 + 1), fun g' emission => ?_⟩
  simp only [emitOp, wireCmp, reg_bind_ok, named, Except.ok.injEq, exists_eq_left', asm_bind_ok, newLabel_bind_ok,
    CodeGenerator.withScript_withScript, operand_bind_ok (operand_script found), operand_bind_ok (operand_script found'),
    asm_ok] at emission
  rw [emission]
  simp [wireCmpCalls, wireFront, saving, searched, TEMPS]

theorem wireCopy_appends : ∃ top done, Appends (.wireCopy src src') g (wireCopyCalls o o' top done) := by
  refine ⟨freshLabel "wcpy" (g.labelI + 1), freshLabel "wcpyd" (g.labelI + 1 + 1), fun g' emission => ?_⟩
  simp only [emitOp, wireCopy, asm_bind_ok, newLabel_bind_ok,
    CodeGenerator.withScript_withScript, operand_bind_ok (operand_script found), operand_bind_ok (operand_script found'),
    asm_ok] at emission
  rw [emission]
  simp [wireCopyCalls, wireFront, saving, guarded]

end Appended

/-! ### Measuring -/

section Loops

variable {L : Listing} {c : Cpu} {p q : Word} {n : Nat}

theorem loadTest_effects {env : Env} {place : String → Word} (base : Reg) (c : Cpu) :
    ∃ f, effects env place [mov8RegMem SCRATCH base 0 none 1, testRegReg SCRATCH SCRATCH] c =
      some ((c.set SCRATCH (c.mem.load (c.reg base) 1)).setFlags f) ∧
        X64.Cond.e.holds f = decide (c.mem (c.reg base) = 0) := by
  obtain ⟨f, tested, zf⟩ := test_effects env place (c.set SCRATCH (c.mem.load (c.reg base) 1)) SCRATCH
  refine ⟨f, ?_, zf.trans ?_⟩
  · rw [effects_cons, effect_mov8RegMem, Option.bind_some]
    simpa using tested
  · rw [X64.Cpu.set_reg, if_pos rfl]
    exact decide_eq_decide.mpr X64.Memory.load_byte_eq_zero

theorem measure_meets {dst : Reg} (notR11 : dst ≠ .r11) (notR15 : dst ≠ .r15) (string : Terminated c.mem p n)
    (here : c.reg .r11 = p) (zero : c.reg dst = 0) (top done : String) :
    L.Meets (measure dst top done) c fun d => d.reg dst = BitVec.ofNat 64 n ∧ d.mem = c.mem ∧ d.trace = c.trace ∧
      ∀ r, r ∉ [.r11, .r15, dst] → d.reg r = c.reg r := by
  -- With `m` bytes to come, the cursor and the count have gone over the others.
  let I (m : Nat) (k : Cpu) : Prop := ∃ i, i + m = n ∧ k.reg .r11 = p + BitVec.ofNat 64 i ∧
    k.reg dst = BitVec.ofNat 64 i ∧ k.mem = c.mem ∧ k.trace = c.trace ∧ ∀ r, r ∉ [.r11, .r15, dst] → k.reg r = c.reg r
  have tests (m : Nat) (k : Cpu) (at' : I m k) : L.Meets [mov8RegMem SCRATCH .r11 0 none 1, testRegReg SCRATCH SCRATCH] k
      fun d => I m d ∧ X64.Cond.e.holds d.flags = decide (m = 0) := by
    obtain ⟨i, sum, cursor, count, mem, trace, regs⟩ := at'
    obtain ⟨f, ran, zf⟩ := @loadTest_effects L.env L.address .r11 k
    refine .straight ran ⟨⟨i, sum, by simpa [SCRATCH] using cursor, ?_, mem, trace, fun r other => ?_⟩, ?_⟩
    · simpa [SCRATCH, notR15] using count
    · obtain ⟨-, otherR15, -⟩ : r ≠ .r11 ∧ r ≠ .r15 ∧ r ≠ dst := by simpa using other
      simpa [SCRATCH, otherR15] using regs r other
    · rw [X64.Cpu.setFlags_flags, zf, cursor, mem]
      refine decide_eq_decide.mpr ((string.nul_iff (by omega)).trans ?_)
      omega
  have round (m : Nat) (k : Cpu) (at' : I (m + 1) k) : L.Meets [incReg dst, addRegImm .r11 1] k (I m) := by
    obtain ⟨i, sum, cursor, count, mem, trace, regs⟩ := at'
    refine .straight (by rw [effects_cons, effect_incReg, Option.bind_some, effects_cons, effect_addRegImm,
      Option.bind_some, effects_nil]) ⟨i + 1, by omega, ?_, ?_, ?_, ?_, fun r other => ?_⟩
    · simp [cursor, Ne.symm notR11, BitVec.add_assoc, BitVec.ofNat_add]
    · simp [notR11, count, BitVec.ofNat_add]
    · exact mem
    · exact trace
    · obtain ⟨otherR11, -, otherDst⟩ : r ≠ .r11 ∧ r ≠ .r15 ∧ r ≠ dst := by simpa using other
      simpa [otherR11, otherDst] using regs r other
  have start : I n c := ⟨0, by omega, by simpa using here, by simpa using zero, rfl, rfl, fun _ _ => rfl⟩
  refine (Listing.Meets.guarded (show jumpCondition "eq" = some .e by decide) tests round start).mono fun d left => ?_
  obtain ⟨i, sum, -, count, mem, trace, regs⟩ := left
  obtain rfl : i = n := by omega
  exact ⟨count, mem, trace, regs⟩

/-! ### Comparing -/

/-- The cursors have gone over `i` bytes that agree. -/
structure Matching (c : Cpu) (p q : Word) (i : Nat) (k : Cpu) : Prop where
  left : k.reg .r11 = p + BitVec.ofNat 64 i
  right : k.reg .r12 = q + BitVec.ofNat 64 i
  same : ∀ j < i, c.mem (p + BitVec.ofNat 64 j) = c.mem (q + BitVec.ofNat 64 j)
  mem : k.mem = c.mem
  regs : ∀ r, r ∉ TEMPS ++ [SCRATCH] → k.reg r = c.reg r

theorem Matching.congr {i : Nat} {k d : Cpu} (here : Matching c p q i k)
    (regs : ∀ r, r ≠ .r13 → r ≠ .r15 → d.reg r = k.reg r) (mem : d.mem = k.mem) : Matching c p q i d := by
  refine ⟨(regs .r11 (by decide) (by decide)).trans here.left, (regs .r12 (by decide) (by decide)).trans here.right,
    here.same, mem.trans here.mem, fun r free => (regs r ?_ ?_).trans (here.regs r free)⟩
  · rintro rfl
    exact absurd free (by decide)
  · rintro rfl
    exact absurd free (by decide)

/-- The strings are found to be the same, or to differ. -/
theorem compare_meets {dst : Reg} {k : Nat} (string : Terminated c.mem p n)
    (string' : Terminated c.mem q k) (left : c.reg .r11 = p) (right : c.reg .r12 = q) (top eq ne done : String) :
    L.Meets (searched "neq" "eq" top ne eq done
      [mov8RegMem .r13 .r11 0 none 1, mov8RegMem SCRATCH .r12 0 none 1, cmpRegReg .r13 SCRATCH] [testRegReg .r13 .r13]
      [addRegImm .r11 1, addRegImm .r12 1] [.movRegImm64 dst 1] [xorRegReg dst dst]) c fun d =>
        d.reg dst = (if c.mem.bytes p (n + 1) = c.mem.bytes q (k + 1) then 0 else 1) ∧ d.mem = c.mem ∧
          ∀ r, r ≠ dst → r ∉ TEMPS ++ [SCRATCH] → d.reg r = c.reg r := by
  -- Up to `m` more bytes are compared; `T` holds where the bytes under the cursors agree, `U` where they are no NUL.
  let I (m : Nat) (d : Cpu) : Prop := ∃ i, i + m = n ∧ Matching c p q i d
  let T (m : Nat) (d : Cpu) : Prop := ∃ i, i + m = n ∧ Matching c p q i d ∧
    d.reg .r13 = c.mem.load (p + BitVec.ofNat 64 i) 1 ∧ c.mem (p + BitVec.ofNat 64 i) = c.mem (q + BitVec.ofNat 64 i)
  let U (m : Nat) (d : Cpu) : Prop := ∃ i, i + m = n ∧ Matching c p q i d ∧
    c.mem (p + BitVec.ofNat 64 i) = c.mem (q + BitVec.ofNat 64 i)
  let kept (d : Cpu) : Prop := d.mem = c.mem ∧ ∀ r, r ∉ TEMPS ++ [SCRATCH] → d.reg r = c.reg r
  have agree := string.bytes_eq string'
  have tests (m : Nat) (e : Cpu) (here : I m e) :
      L.Meets [mov8RegMem .r13 .r11 0 none 1, mov8RegMem SCRATCH .r12 0 none 1, cmpRegReg .r13 SCRATCH] e fun d =>
        if X64.Cond.ne.holds d.flags then ¬c.mem.bytes p (n + 1) = c.mem.bytes q (k + 1) ∧ kept d else T m d := by
    obtain ⟨i, sum, matching⟩ := here
    let v := c.mem.load (p + BitVec.ofNat 64 i) 1
    let w := c.mem.load (q + BitVec.ofNat 64 i) 1
    have ran : effects L.env L.address
        [mov8RegMem .r13 .r11 0 none 1, mov8RegMem SCRATCH .r12 0 none 1, cmpRegReg .r13 SCRATCH] e =
        some (((e.set .r13 v).set .r15 w).setFlags (e.flags.sub v w false)) := by
      simp [SCRATCH, matching.left, matching.right, matching.mem, v, w]
    have moved : Matching c p q i (((e.set .r13 v).set .r15 w).setFlags (e.flags.sub v w false)) :=
      matching.congr (fun r notR13 notR15 => by simp [notR13, notR15]) rfl
    refine .straight ran ?_
    rw [X64.Cpu.setFlags_flags, X64.holds_ne]
    by_cases same : v = w
    · rw [if_neg (by simpa using same)]
      exact ⟨i, sum, moved, by simp [v], X64.Memory.load_byte_inj.mp same⟩
    · rw [if_pos (by simpa using same)]
      refine ⟨fun equal => same ?_, moved.mem, moved.regs⟩
      exact X64.Memory.load_byte_inj.mpr (agree.mp equal i (by omega))
  have tests' (m : Nat) (e : Cpu) (here : T m e) : L.Meets [testRegReg .r13 .r13] e fun d =>
      if X64.Cond.e.holds d.flags then c.mem.bytes p (n + 1) = c.mem.bytes q (k + 1) ∧ kept d else 0 < m ∧ U m d := by
    obtain ⟨i, sum, matching, r13, same⟩ := here
    obtain ⟨f, ran, zf⟩ := test_effects L.env L.address e .r13
    have moved : Matching c p q i (e.setFlags f) := matching.congr (fun _ _ _ => rfl) rfl
    refine .straight ran ?_
    rw [X64.Cpu.setFlags_flags, zf, r13]
    by_cases nul : c.mem (p + BitVec.ofNat 64 i) = 0
    · rw [if_pos (by simpa using X64.Memory.load_byte_eq_zero.mpr nul)]
      refine ⟨agree.mpr fun j le => ?_, moved.mem, moved.regs⟩
      obtain rfl := (string.nul_iff (show i ≤ n by omega)).mp nul
      rcases le.lt_or_eq with less | rfl
      · exact matching.same j less
      · exact same
    · rw [if_neg (by simpa using mt X64.Memory.load_byte_eq_zero.mp nul)]
      refine ⟨?_, i, sum, moved, same⟩
      have other := mt (string.nul_iff (show i ≤ n by omega)).mpr nul
      omega
  have round (m : Nat) (e : Cpu) (here : U (m + 1) e) : L.Meets [addRegImm .r11 1, addRegImm .r12 1] e (I m) := by
    obtain ⟨i, sum, matching, same⟩ := here
    refine .straight (by rw [effects_cons, effect_addRegImm, Option.bind_some, effects_cons, effect_addRegImm,
      Option.bind_some, effects_nil]) ⟨i + 1, by omega, ?_, ?_, fun j less => ?_, ?_, fun r free => ?_⟩
    · simp [matching.left, BitVec.add_assoc, BitVec.ofNat_add]
    · simp [matching.right, BitVec.add_assoc, BitVec.ofNat_add]
    · rcases Nat.lt_succ_iff_lt_or_eq.mp less with earlier | rfl
      · exact matching.same j earlier
      · exact same
    · exact matching.mem
    · obtain ⟨notR11, notR12, -⟩ : r ≠ .r11 ∧ r ≠ .r12 ∧ r ≠ .r13 ∧ r ≠ .r15 := by simpa [TEMPS, SCRATCH] using free
      simpa [notR11, notR12] using matching.regs r free
  have start : I n c := ⟨0, by omega, ⟨by simpa using left, by simpa using right, by simp, rfl, fun _ _ => rfl⟩⟩
  refine .searched (show jumpCondition "neq" = some .ne by decide) (show jumpCondition "eq" = some .e by decide) tests
    tests' round (fun d out => ?_) (fun d out => ?_) start
  · obtain ⟨differ, mem, regs⟩ := out
    refine .straight (by simp; rfl) ⟨by simp [differ], ?_, fun r other free => ?_⟩
    · exact mem
    · simpa [other] using regs r free
  · obtain ⟨equal, mem, regs⟩ := out
    refine .straight (by rw [effects_cons, effect_clear, Option.bind_some, effects_nil]) ⟨by simp [equal], ?_,
      fun r other free => ?_⟩
    · exact mem
    · simpa [other] using regs r free

/-! ### Copying -/

/-- All the bytes are copied, the NUL last. -/
theorem copy_meets {t : Word} (string : Terminated c.mem p n) (apart : Separate t (n + 1) p (n + 1))
    (left : c.reg .r11 = t) (right : c.reg .r12 = p) (top done : String) :
    L.Meets (guarded "eq" top done [mov8RegMem SCRATCH .r12 0 none 1, mov8MemReg .r11 0 SCRATCH none 1,
      testRegReg SCRATCH SCRATCH] [addRegImm .r11 1, addRegImm .r12 1]) c fun d =>
        d.mem = (X64.Strip.copy^[n + 1] ⟨c.mem, t, p⟩).mem ∧ ∀ r, r ∉ [.r11, .r12, .r15] → d.reg r = c.reg r := by
  -- With `m` bytes to come before the NUL, `I` holds in front of a copy and `T` behind it.
  let at' (i : Nat) (k : Cpu) : Prop := k.reg .r11 = t + BitVec.ofNat 64 i ∧ k.reg .r12 = p + BitVec.ofNat 64 i ∧
    ∀ r, r ∉ [.r11, .r12, .r15] → k.reg r = c.reg r
  let I (m : Nat) (k : Cpu) : Prop := ∃ i, i + m = n ∧ at' i k ∧ k.mem = (X64.Strip.copy^[i] ⟨c.mem, t, p⟩).mem
  let T (m : Nat) (k : Cpu) : Prop := ∃ i, i + m = n ∧ at' i k ∧ k.mem = (X64.Strip.copy^[i + 1] ⟨c.mem, t, p⟩).mem
  have tests (m : Nat) (k : Cpu) (here : I m k) : L.Meets [mov8RegMem SCRATCH .r12 0 none 1,
      mov8MemReg .r11 0 SCRATCH none 1, testRegReg SCRATCH SCRATCH] k fun d =>
        T m d ∧ X64.Cond.e.holds d.flags = decide (m = 0) := by
    obtain ⟨i, sum, ⟨target, source, regs⟩, mem⟩ := here
    have byte : k.mem (p + BitVec.ofNat 64 i) = c.mem (p + BitVec.ofNat 64 i) := by
      obtain ⟨far, fits⟩ := apart
      rw [mem]
      exact X64.Strip.writes_copy.outside _ _ (show i ≤ (p + BitVec.ofNat 64 i - t).toNat by bv_omega)
    let v := k.mem.load (p + BitVec.ofNat 64 i) 1
    let j := (k.set .r15 v).setMem (k.mem.store (t + BitVec.ofNat 64 i) 1 v)
    obtain ⟨f, tested, zf⟩ := test_effects L.env L.address j .r15
    have ran : effects L.env L.address [mov8RegMem SCRATCH .r12 0 none 1, mov8MemReg .r11 0 SCRATCH none 1,
        testRegReg SCRATCH SCRATCH] k = some (j.setFlags f) := by
      rw [← tested, effects_cons, effect_mov8RegMem, Option.bind_some, effects_cons, effect_mov8MemReg, Option.bind_some]
      simp [SCRATCH, target, source, j, v]
    refine .straight ran ⟨⟨i, sum, ⟨by simpa [j] using target, by simpa [j] using source, fun r free => ?_⟩, ?_⟩, ?_⟩
    · obtain ⟨-, -, notR15⟩ : r ≠ .r11 ∧ r ≠ .r12 ∧ r ≠ .r15 := by simpa using free
      simpa [j, notR15] using regs r free
    · rw [X64.Strip.copy_succ, ← mem]
      rfl
    · have held : j.reg .r15 = v := by simp [j]
      rw [X64.Cpu.setFlags_flags, zf, held]
      refine decide_eq_decide.mpr (X64.Memory.load_byte_eq_zero.trans ?_)
      rw [byte, string.nul_iff (show i ≤ n by omega)]
      omega
  have round (m : Nat) (k : Cpu) (here : T (m + 1) k) : L.Meets [addRegImm .r11 1, addRegImm .r12 1] k (I m) := by
    obtain ⟨i, sum, ⟨target, source, regs⟩, mem⟩ := here
    refine .straight (by rw [effects_cons, effect_addRegImm, Option.bind_some, effects_cons, effect_addRegImm,
      Option.bind_some, effects_nil]) ⟨i + 1, by omega, ⟨?_, ?_, fun r free => ?_⟩, ?_⟩
    · simp [target, BitVec.add_assoc, BitVec.ofNat_add]
    · simp [source, BitVec.add_assoc, BitVec.ofNat_add]
    · obtain ⟨notR11, notR12, -⟩ : r ≠ .r11 ∧ r ≠ .r12 ∧ r ≠ .r15 := by simpa using free
      simpa [notR11, notR12] using regs r free
    · exact mem
  have start : I n c := ⟨0, by omega, ⟨by simpa using left, by simpa using right, fun _ _ => rfl⟩, rfl⟩
  refine (Listing.Meets.guarded (show jumpCondition "eq" = some .e by decide) tests round start).mono fun d out => ?_
  obtain ⟨i, sum, ⟨-, -, regs⟩, mem⟩ := out
  obtain rfl : i = n := by omega
  exact ⟨mem, regs⟩

end Loops

/-! ### The statements -/

section Statements

variable {L : Listing} {c : Cpu} {o o' : Operand}

/-- An operand is read alike where the registers a program can name, the frame and the memory above the stack are the same. -/
theorem Operand.Readable.value_kept {place : String → Word} {n : Nat} (readable : o.Readable n c) {m : Cpu}
    (regs : ∀ r, r ≠ .r11 → r ≠ .r15 → r ≠ .rsp → m.reg r = c.reg r) (mem : SameAbove (c.reg .rsp) n c.mem m.mem) :
    o.value place m = o.value place c := by
  cases o with
  | imm value => rfl
  | address label => rfl
  | reg r =>
    obtain ⟨notSp, -, notR11, notR15⟩ := (user_iff r).mp readable
    exact regs r notR11 notR15 notSp
  | slot off =>
    simp only [Operand.value]
    rw [regs .rbp (by decide) (by decide) (by decide)]
    exact mem.load readable

/-- The registers pushed do not change what an operand is read as. -/
theorem Operand.Readable.value_saved {place : String → Word} {rs : List Reg} {m : Cpu} (saved : Saved rs c m)
    (readable : o.Readable (8 * rs.length) c) : o.value place m = o.value place c :=
  readable.value_kept (fun r _ _ notSp => saved.regs r notSp) saved.sameAbove

theorem wireFront_effects {rs : List Reg} {m : Cpu} (saved : Saved rs c m) (readable : o.Readable (8 * rs.length) c)
    (readable' : o'.Readable (8 * rs.length) c) :
    ∃ k, effects L.env L.address (wireFront o o') m = some k ∧ k.reg .r11 = o.value L.address c ∧
      k.reg .r12 = o'.value L.address c ∧ k.mem = m.mem ∧ ∀ r, r ∉ [.r11, .r12, .r15] → k.reg r = m.reg r := by
  obtain ⟨v, first⟩ : ∃ v, o.value L.address c = v := ⟨_, rfl⟩
  have left : o.value L.address m = v := (readable.value_saved saved).trans first
  have right : o'.value L.address ((m.set .r15 v).set .r11 v) = o'.value L.address c :=
    readable'.value_kept (fun r notR11 notR15 notSp => by simp [notR11, notR15, saved.regs r notSp])
      (by simpa using saved.sameAbove)
  refine ⟨_, by rw [wireFront, effects_append, effects_append, effects_append, mov_effects, Option.bind_some, effects_cons,
    effect_movRegReg, Option.bind_some, effects_nil, Option.bind_some, mov_effects, Option.bind_some, effects_cons,
    effect_movRegReg, Option.bind_some, effects_nil], ?_⟩
  simp only [left, SCRATCH, X64.Cpu.set_reg, if_true, right]
  refine ⟨by simp [first], by simp, rfl, fun r free => ?_⟩
  obtain ⟨notR11, notR12, notR15⟩ : r ≠ .r11 ∧ r ≠ .r12 ∧ r ≠ .r15 := by simpa using free
  simp [notR11, notR12, notR15]

/-- The registers a program can name but `dst` are as they were, and the memory above the `n` bytes below the stack. -/
structure OnlyWrites (dst : Reg) (n : Nat) (c d : Cpu) : Prop where
  regs : ∀ r, r ≠ dst → r ≠ SCRATCH → d.reg r = c.reg r
  mem : SameAbove (c.reg .rsp) n c.mem d.mem

theorem wireLen_meets {dst : Reg} (user : User dst) (readable : o.Readable 8 c) {n : Nat}
    (string : Terminated c.mem (o.value L.address c) n)
    (clear : Separate (c.reg .rsp - 8) 8 (o.value L.address c) (n + 1)) (top done : String) :
    L.Meets (wireLenCalls dst o top done) c fun d => d.reg dst = BitVec.ofNat 64 n ∧ OnlyWrites dst 8 c d := by
  obtain ⟨notSp, -, notR11, notR15⟩ := (user_iff dst).mp user
  refine .saving (by decide) (by decide) (by decide) fun m saved => ?_
  obtain ⟨p, here⟩ : ∃ p, o.value L.address c = p := ⟨_, rfl⟩
  have value : o.value L.address m = p := (readable.value_saved saved).trans here
  obtain ⟨f, ran⟩ : ∃ f, effects L.env L.address (o.mov SCRATCH ++ [.movRegReg .r11 SCRATCH, xorRegReg dst dst]) m =
      some ((((m.set .r15 p).set .r11 p).set dst 0).setFlags f) :=
    ⟨_, by simp [effects_append, mov_effects, value, SCRATCH]; rfl⟩
  obtain ⟨j, shape⟩ : ∃ j, (((m.set .r15 p).set .r11 p).set dst 0).setFlags f = j := ⟨_, rfl⟩
  rw [shape] at ran
  have there : Terminated j.mem p n := by
    rw [← shape]
    exact (here ▸ string).sameOn (saved.sameOn (here ▸ clear))
  refine .append (.straight ran rfl) fun k same => ?_
  subst same
  refine (measure_meets notR11 notR15 there (by simp [← shape, Ne.symm notR11]) (by simp [← shape]) top done).mono fun k left => ?_
  obtain ⟨count, mem, -, regs⟩ := left
  have mem : k.mem = m.mem := by simp [mem, ← shape]
  have kept (r : Reg) (h₁ : r ≠ .r11) (h₂ : r ≠ .r15) (h₃ : r ≠ dst) : k.reg r = m.reg r :=
    (regs r (by simp [h₁, h₂, h₃])).trans (by simp [← shape, h₁, h₂, h₃])
  refine ⟨kept .rsp (by decide) (by decide) (Ne.symm notSp), mem ▸ .refl _ _ _, fun d back => ⟨?_, fun r other hidden => ?_, ?_⟩⟩
  · rw [back.others dst (by simpa using notR11) notSp, count]
  · by_cases isR11 : r = .r11
    · exact back.saved r (by simp [isR11])
    · by_cases isSp : r = .rsp
      · rw [isSp, back.sp]
      · rw [back.others r (by simpa using isR11) isSp, kept r isR11 hidden other, saved.regs r isSp]
  · rw [back.mem, mem]
    exact saved.sameAbove

theorem wireCmp_meets {dst : Reg} (user : User dst) (notR12 : dst ≠ .r12) (notR13 : dst ≠ .r13)
    (readable : o.Readable 24 c) (readable' : o'.Readable 24 c) {n k : Nat}
    (string : Terminated c.mem (o.value L.address c) n) (string' : Terminated c.mem (o'.value L.address c) k)
    (clear : Separate (c.reg .rsp - 24) 24 (o.value L.address c) (n + 1))
    (clear' : Separate (c.reg .rsp - 24) 24 (o'.value L.address c) (k + 1)) (top eq ne done : String) :
    L.Meets (wireCmpCalls dst o o' top eq ne done) c fun d =>
      d.reg dst = (if c.mem.bytes (o.value L.address c) (n + 1) = c.mem.bytes (o'.value L.address c) (k + 1) then 0 else 1) ∧
        OnlyWrites dst 24 c d := by
  obtain ⟨notSp, -, notR11, notR15⟩ := (user_iff dst).mp user
  refine .saving (by decide) (by decide) (by decide) fun m saved => ?_
  obtain ⟨j, ran, left, right, mem, regs⟩ := @wireFront_effects L c o o' _ m saved readable readable'
  have same := saved.sameOn clear
  have same' := saved.sameOn clear'
  have small := string.below
  have small' := string'.below
  rw [← mem] at same same'
  refine .append (.straight ran rfl) fun i here => ?_
  subst here
  refine (compare_meets (string.sameOn same) (string'.sameOn same') left right top eq ne done).mono fun i out => ?_
  obtain ⟨result, mem', regs'⟩ := out
  rw [same.bytes (by omega), same'.bytes (by omega)] at result
  have mem : i.mem = m.mem := mem'.trans mem
  have kept (r : Reg) (temp : r ∉ TEMPS) (hidden : r ≠ .r15) (other : r ≠ dst) : i.reg r = m.reg r := by
    obtain ⟨otherR11, otherR12, -⟩ : r ≠ .r11 ∧ r ≠ .r12 ∧ r ≠ .r13 := by simpa [TEMPS] using temp
    exact (regs' r other (by simp [temp, SCRATCH, hidden])).trans (regs r (by simp [otherR11, otherR12, hidden]))
  refine ⟨kept .rsp (by decide) (by decide) (Ne.symm notSp), mem ▸ .refl _ _ _, fun d back => ⟨?_, fun r other hidden => ?_, ?_⟩⟩
  · rw [back.others dst (by simp [TEMPS, notR11, notR12, notR13]) notSp, result]
  · by_cases temp : r ∈ TEMPS
    · exact back.saved r temp
    · by_cases isSp : r = .rsp
      · rw [isSp, back.sp]
      · rw [back.others r temp isSp, kept r temp hidden other, saved.regs r isSp]
  · rw [back.mem, mem]
    exact saved.sameAbove

/-- The string and its NUL are in the target, and nothing else above the two words below the stack has changed. -/
structure StringCopied (t p : Word) (n : Nat) (c d : Cpu) : Prop where
  bytes : ∀ x : Word, (x - c.reg .rsp).toNat + 16 < 2 ^ 64 →
    d.mem x = if (x - t).toNat ≤ n then c.mem (p + (x - t)) else c.mem x
  regs : ∀ r, r ≠ SCRATCH → d.reg r = c.reg r

theorem wireCopy_meets (readable : o.Readable 16 c) (readable' : o'.Readable 16 c) {n : Nat}
    (string : Terminated c.mem (o'.value L.address c) n)
    (clear : Separate (c.reg .rsp - 16) 16 (o'.value L.address c) (n + 1))
    (clear' : Separate (c.reg .rsp - 16) 16 (o.value L.address c) (n + 1))
    (apart : Separate (o.value L.address c) (n + 1) (o'.value L.address c) (n + 1)) (top done : String) :
    L.Meets (wireCopyCalls o o' top done) c (StringCopied (o.value L.address c) (o'.value L.address c) n c) := by
  refine .saving (by decide) (by decide) (by decide) fun m saved => ?_
  obtain ⟨j, ran, left, right, mem, regs⟩ := @wireFront_effects L c o o' _ m saved readable readable'
  generalize o.value L.address c = t at *
  generalize o'.value L.address c = p at *
  have same := saved.sameOn clear
  have small := string.below
  refine .append (.straight ran rfl) fun i here => ?_
  subst here
  refine (copy_meets (mem ▸ string.sameOn same) apart left right top done).mono fun i out => ?_
  obtain ⟨mem', regs'⟩ := out
  have copied (x : Word) : i.mem x = if (x - t).toNat < n + 1 then m.mem (p + (x - t)) else m.mem x := by
    rw [mem', mem]
    exact X64.Strip.copy_apart apart (Nat.le_refl _) x
  have kept (r : Reg) (free : r ∉ [.r11, .r12, .r15]) : i.reg r = m.reg r := (regs' r free).trans (regs r free)
  have stack : SameOn (m.reg .rsp) (8 * [Reg.r11, .r12].length) m.mem i.mem := by
    refine saved.keeps clear' (by simp) fun x outside => ?_
    rw [copied, if_neg (by omega)]
  refine ⟨kept .rsp (by decide), stack, fun d back => ⟨fun x above => ?_, fun r hidden => ?_⟩⟩
  · rw [back.mem, copied]
    by_cases near : (x - t).toNat ≤ n
    · rw [if_pos (by omega), if_pos near]
      exact same _ (by bv_omega)
    · rw [if_neg (by omega), if_neg near]
      exact saved.sameAbove x above
  · by_cases temp : r ∈ [Reg.r11, .r12]
    · exact back.saved r temp
    · by_cases isSp : r = .rsp
      · rw [isSp, back.sp]
      · obtain ⟨otherR11, otherR12⟩ : r ≠ .r11 ∧ r ≠ .r12 := by simpa using temp
        rw [back.others r temp isSp, kept r (by simp [otherR11, otherR12, show r ≠ .r15 from hidden]), saved.regs r isSp]

end Statements

theorem operand_readable {g : CodeGenerator} {args : List String} (bound : g.fnArgs = bindArgs args) {node : Expr}
    {o : Operand} (found : g.operand node = .ok o) {n : Nat} {c : Cpu} (framed : (Tree.leaf o).Framed n c) :
    o.Readable n c := by
  have tree : resolveTree g node = .ok (.leaf o) := by
    cases node with
    | binExpr => cases found
    | _ => simp only [resolveTree, found, Except.map]
  exact resolveTree_readable bound tree framed

/-- `wire:len`, `wire:cmp` and `wire:copy` are `strlen`, a test for equality and `strcpy`. -/
theorem wire_strings {L : Listing} {M : Machine} (loaded : L.Loaded M) {g : CodeGenerator} {args : List String}
    (bound : g.fnArgs = bindArgs args) :
    (∀ (name : String) (dst : Reg) (src : Expr) (o : Operand) (i : Nat) (calls : List Call) (c : Cpu) (n : Nat),
      resolve name = .ok dst → g.operand src = .ok o → Stands L g (.wireLen name src) i calls →
      (Tree.leaf o).Framed 8 c → Terminated c.mem (o.value L.address c) n →
      Separate (c.reg .rsp - 8) 8 (o.value L.address c) (n + 1) →
      ∃ d, M.Completes (L.offset i) (L.offset (i + calls.length)) c d ∧ d.reg dst = BitVec.ofNat 64 n ∧
        OnlyWrites dst 8 c d) ∧
    (∀ (name : String) (dst : Reg) (src src' : Expr) (o o' : Operand) (i : Nat) (calls : List Call) (c : Cpu) (n k : Nat),
      resolve name = .ok dst → dst ≠ .r12 → dst ≠ .r13 → g.operand src = .ok o → g.operand src' = .ok o' →
      Stands L g (.wireCmp name src src') i calls → (Tree.leaf o).Framed 24 c → (Tree.leaf o').Framed 24 c →
      Terminated c.mem (o.value L.address c) n → Terminated c.mem (o'.value L.address c) k →
      Separate (c.reg .rsp - 24) 24 (o.value L.address c) (n + 1) →
      Separate (c.reg .rsp - 24) 24 (o'.value L.address c) (k + 1) →
      ∃ d, M.Completes (L.offset i) (L.offset (i + calls.length)) c d ∧ d.reg dst =
        (if c.mem.bytes (o.value L.address c) (n + 1) = c.mem.bytes (o'.value L.address c) (k + 1) then 0 else 1) ∧
        OnlyWrites dst 24 c d) ∧
    ∀ (target src : Expr) (o o' : Operand) (i : Nat) (calls : List Call) (c : Cpu) (n : Nat),
      g.operand target = .ok o → g.operand src = .ok o' → Stands L g (.wireCopy target src) i calls →
      (Tree.leaf o).Framed 16 c → (Tree.leaf o').Framed 16 c → Terminated c.mem (o'.value L.address c) n →
      Separate (c.reg .rsp - 16) 16 (o'.value L.address c) (n + 1) →
      Separate (c.reg .rsp - 16) 16 (o.value L.address c) (n + 1) →
      Separate (o.value L.address c) (n + 1) (o'.value L.address c) (n + 1) →
      ∃ d, M.Completes (L.offset i) (L.offset (i + calls.length)) c d ∧
        StringCopied (o.value L.address c) (o'.value L.address c) n c d := by
  refine ⟨?_, ?_, ?_⟩
  · intro name dst src o i calls c n named found stands framed string clear
    obtain ⟨top, done, appends⟩ := wireLen_appends found named
    exact stands.executes loaded appends
      (wireLen_meets (user_of_resolve named) (operand_readable bound found framed) string clear top done)
  · intro name dst src src' o o' i calls c n k named notR12 notR13 found found' stands framed framed' string string' clear
      clear'
    obtain ⟨top, eq, ne, done, appends⟩ := wireCmp_appends found found' named
    exact stands.executes loaded appends (wireCmp_meets (user_of_resolve named) notR12 notR13
      (operand_readable bound found framed) (operand_readable bound found' framed') string string' clear clear' top eq ne done)
  · intro target src o o' i calls c n found found' stands framed framed' string clear clear' apart
    obtain ⟨top, done, appends⟩ := wireCopy_appends found found'
    exact stands.executes loaded appends (wireCopy_meets (operand_readable bound found framed)
      (operand_readable bound found' framed') string clear clear' apart top done)

/-- `wire:len reg1 = reg2` of a string of one byte. -/
theorem wire_strings_one : ∃ (L : Listing) (M : Machine) (m n : Nat) (c d : Cpu), L.Loaded M ∧
    M.Completes (L.offset m) (L.offset n) c d ∧ c.mem (c.reg .rbx) = 65 ∧ d.reg .rax = 1 := by
  obtain ⟨L, M, loaded, -, stands⟩ := exists_stands (.new false) (.wireLen "reg1" (.reg "reg2")) .silent
    (wireLenCalls .rax (.reg .rbx) (freshLabel "wlen" 1) (freshLabel "wlend" 2)) ⟨_, rfl, by decide⟩ (by decide)
  let c := (Cpu.filled 5).setMem fun x => if x = 5 then 65 else 0
  have string : Terminated c.mem (c.reg .rbx) 1 := ⟨by decide, by decide, fun i less => by
    obtain rfl : i = 0 := by omega
    decide⟩
  have clear : Separate ((5 : Word) - 8) 8 5 2 := ⟨by decide, by decide⟩
  obtain ⟨d, run, length, -⟩ := (@wire_strings L M loaded (.new false) [] rfl).1 "reg1" .rax (.reg "reg2") (.reg .rbx) 0 _ c
    1 (by decide) rfl stands trivial string clear
  exact ⟨L, M, _, _, c, d, loaded, run, rfl, length⟩

end Aclm.Codegen
