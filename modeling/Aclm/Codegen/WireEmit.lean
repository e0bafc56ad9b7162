import Aclm.Codegen.Blast
import Aclm.Codegen.Wire
import Aclm.Encoder.Endless

/-! `wire:emit` makes one `write`. The length is counted in RDX before the operand is read for the second time, arithmetic
in a length goes through the R11 that holds the operand, and RCX is left as the kernel returns it. -/

set_option autoImplicit false

namespace Aclm.Codegen

open X64 (Word Reg Cpu Env Machine Memory)
open X64.Memory (SameAbove Terminated)
open Encoder

/-! ### Operands that the code does not change -/

section Kept

variable {place : String → Word} {n : Nat} {c d : Cpu}

theorem Tree.Readable.value_kept {t : Tree} (readable : t.Readable n c)
    (regs : ∀ r, r ≠ .r11 → r ≠ .r15 → r ≠ .rsp → d.reg r = c.reg r) (mem : SameAbove (c.reg .rsp) n c.mem d.mem) :
    t.value place d = t.value place c := by
  induction t with
  | leaf o => exact Operand.Readable.value_kept readable regs mem
  | node op left right ihl ihr => rw [Tree.value, Tree.value, ihl readable.1, ihr readable.2]

theorem Tree.Readable.clobber {t : Tree} (readable : t.Readable n c) {late : Option Tree}
    (readable' : ∀ l ∈ late, l.Readable n c) :
    (t.clobber late).1.Readable n c ∧ ∀ l ∈ (t.clobber late).2, l.Readable n c := by
  induction t generalizing late with
  | leaf o =>
    refine ⟨?_, readable'⟩
    simp only [Tree.clobber]
    split
    · cases late with
      | none => exact readable
      | some l => exact readable' l rfl
    · exact readable
  | node op left right ihl ihr =>
    obtain ⟨first, between⟩ := ihl readable.1 readable'
    obtain ⟨second, -⟩ := ihr readable.2 between
    exact ⟨⟨first, second⟩, fun l here => (Option.mem_some.mp here) ▸ second⟩

/-- What an expression is evaluated to does not depend on R15. -/
theorem brought_r15 {t : Tree} (readable : t.Readable n c) (v : Word) : brought place t (c.set .r15 v) = brought place t c :=
  (readable.clobber (fun _ none => absurd none (Option.not_mem_none _))).1.value_kept
    (fun r _ notR15 _ => by simp [notR15]) (.refl _ _ _)

end Kept

/-! ### The code -/

def sourceCalls (o : Operand) : List Call := o.mov SCRATCH ++ [.movRegReg .r11 SCRATCH]

/-- The length is counted, and the operand read again. -/
def countedCalls (o : Operand) (top done : String) : List Call :=
  [xorRegReg .rdx .rdx] ++ measure .rdx top done ++ sourceCalls o

/-- The length is an operand. -/
def givenCalls (t : Tree) : List Call := t.calls SCRATCH ++ [.movRegReg .rdx SCRATCH]

def writeCalls : List Call := [.movRegImm64 .rax 1, .movRegImm64 .rdi 1, .movRegReg .rsi .r11, .syscall, .popReg .r11]

def wireEmitCalls (o : Operand) (length : List Call) : List Call := [.pushReg .r11] ++ sourceCalls o ++ length ++ writeCalls

section Appended

variable {g : CodeGenerator} {src : Expr} {o : Operand} (found : g.operand src = .ok o)

include found

theorem wireEmit_appends :
    ∃ top done, Appends (.wireEmit src none) g (wireEmitCalls o (countedCalls o top done)) := by
  have later (s : List Call) : (g.nextLabel.nextLabel.withScript s).operand src = .ok o := by simpa using found
  refine ⟨freshLabel "weml" (g.labelI + 1), freshLabel "wemld" (g.labelI + 1 + 1), fun g' emission => ?_⟩
  simp only [emitOp, wireEmit, wireEmitLength, asm_bind_ok, bind_assoc, newLabel_bind_ok, nextLabel_withScript,
    CodeGenerator.withScript_withScript, operand_bind_ok (operand_script found), operand_bind_ok (later _), asm_ok]
    at emission
  rw [emission]
  simp [wireEmitCalls, sourceCalls, countedCalls, measure, guarded, writeCalls]

theorem wireEmitGiven_appends {length : Expr} {t : Tree} (resolved : resolveTree g length = .ok t) :
    Appends (.wireEmit src (some length)) g (wireEmitCalls o (givenCalls t)) := by
  intro g' emission
  simp only [emitOp, wireEmit, wireEmitLength, asm_bind_ok, bind_assoc, CodeGenerator.withScript_withScript,
    operand_bind_ok (operand_script found), tree_bind_ok resolved, asm_ok] at emission
  rw [emission]
  simp [wireEmitCalls, sourceCalls, givenCalls, writeCalls]

end Appended

/-! ### The length -/

section Lengths

variable {L : Listing} {o : Operand} {c : Cpu} {p : Word} {n : Nat}

theorem source_effects (env : Env) (place : String → Word) (o : Operand) (c : Cpu) :
    effects env place (sourceCalls o) c = some ((c.set .r15 (o.value place c)).set .r11 (o.value place c)) := by
  simp [sourceCalls, effects_append, mov_effects, SCRATCH]

theorem cleared_effects (env : Env) (place : String → Word) (c : Cpu) :
    ∃ d, effects env place [xorRegReg .rdx .rdx] c = some d ∧ d.reg .rdx = 0 ∧ d.mem = c.mem ∧ d.trace = c.trace ∧
      ∀ r, r ≠ .rdx → d.reg r = c.reg r := by
  refine ⟨_, by rw [effects_cons, effect_clear, Option.bind_some, effects_nil], ?_, ?_, ?_, fun r other => ?_⟩
  · simp
  · rfl
  · rfl
  · simp [other]

/-- What the operand is read as where RDX holds the length. -/
def rereadSource (place : String → Word) (o : Operand) (n : Nat) (c : Cpu) : Word :=
  o.value place (c.set .rdx (BitVec.ofNat 64 n))

theorem counted_meets (outside : o.Outside []) (string : Terminated c.mem p n) (here : c.reg .r11 = p) (top done : String) :
    L.Meets (countedCalls o top done) c fun d => d.reg .r11 = rereadSource L.address o n c ∧
      d.reg .rdx = BitVec.ofNat 64 n ∧ d.trace = c.trace := by
  obtain ⟨j, ran, zero, mem, trace, regs⟩ := cleared_effects L.env L.address c
  have counted : L.Meets ([xorRegReg .rdx .rdx] ++ measure .rdx top done) c fun d => d.reg .rdx = BitVec.ofNat 64 n ∧
      d.trace = c.trace ∧ ∀ r, r ∉ [.r11, .r15, .rdx] → d.reg r = c.reg r := by
    refine .append (.straight ran rfl) fun m same => ?_
    subst same
    have start : j.reg .r11 = p := (regs .r11 (by decide)).trans here
    refine (measure_meets (by decide) (by decide) (mem ▸ string) start zero top done).mono fun d left => ?_
    obtain ⟨count, -, trace', regs'⟩ := left
    refine ⟨count, trace'.trans trace, fun r free => (regs' r free).trans (regs r ?_)⟩
    rintro rfl
    exact absurd free (by decide)
  refine counted.append fun m left => ?_
  obtain ⟨count, trace, regs⟩ := left
  have again : o.value L.address m = rereadSource L.address o n c := by
    refine outside.value_user fun r user => ?_
    obtain ⟨-, -, notR11, notR15⟩ := (user_iff r).mp user
    by_cases isRdx : r = .rdx
    · simp [isRdx, count]
    · simp [isRdx, regs r (by simp [notR11, notR15, isRdx])]
  refine .straight (source_effects _ _ _ _) ⟨by simp [again], ?_, ?_⟩
  · simpa using count
  · simpa using trace

/-- Without a NUL the count does not end. -/
theorem counted_endless (nowhere : ∀ x, c.mem x ≠ 0) (top done : String) : L.Endless (countedCalls o top done) c := by
  obtain ⟨j, ran, -, mem, -, -⟩ := cleared_effects L.env L.address c
  refine .left (.append (P := fun m => m.mem = c.mem) (.straight ran mem) fun m same => ?_) _
  refine .guarded (I := fun m => m.mem = c.mem) (T := fun m => m.mem = c.mem) (show jumpCondition "eq" = some .e by decide)
    (fun k same => ?_) (fun k same => ?_) same
  · obtain ⟨f, ran, zf⟩ := @loadTest_effects L.env L.address .r11 k
    refine .straight ran ⟨same, ?_⟩
    rw [X64.Cpu.setFlags_flags, zf, same]
    exact decide_eq_false (nowhere _)
  · refine .straight (by rw [effects_cons, effect_incReg, Option.bind_some, effects_cons, effect_addRegImm,
      Option.bind_some, effects_nil]) ?_
    exact same

end Lengths

/-! ### The call -/

/-- A `write` of `n` bytes from `p` on to the standard output has come behind the trace. -/
def Wrote (p n : Word) (c d : Cpu) : Prop := ∃ rest, d.trace = .syscall 1 (1 :: p :: n :: rest) :: c.trace

theorem Wrote.unique {p n p' n' : Word} {c d : Cpu} (left : Wrote p n c d) (right : Wrote p' n' c d) : p = p' ∧ n = n' := by
  obtain ⟨rest, trace⟩ := left
  obtain ⟨rest', trace'⟩ := right
  have same := trace.symm.trans trace'
  simp only [List.cons.injEq, X64.Event.syscall.injEq, true_and, and_true] at same
  exact ⟨same.1, same.2.1⟩

/-- The kernel returns from every system call, with `v` in RCX: the address it returns to. -/
def ReturnsWith (env : Env) (v : Word) : Prop := ∀ s, ∃ k, env.kernel s = some k ∧ k.reg .rcx = v

/-- One `write`, and RCX as it was. -/
structure Emitted (p n : Word) (c d : Cpu) : Prop where
  wrote : Wrote p n c d
  rcx : d.reg .rcx = c.reg .rcx

section Runs

variable {L : Listing} {o : Operand} {c : Cpu} {v : Word}

theorem write_effects {env : Env} (answers : ReturnsWith env v) (place : String → Word) (c : Cpu) :
    ∃ d, effects env place writeCalls c = some d ∧ d.reg .rcx = v ∧ Wrote (c.reg .r11) (c.reg .rdx) c d := by
  obtain ⟨s, called⟩ : ∃ s, ((c.set .rax 1).set .rdi 1).set .rsi (c.reg .r11) = s := ⟨_, rfl⟩
  obtain ⟨k, answer, rcx⟩ := answers s
  obtain ⟨k', same⟩ : ∃ k', { k with trace := .syscall (s.reg .rax) s.syscallArgs :: s.trace } = k' := ⟨_, rfl⟩
  refine ⟨k'.pop.2.set .r11 k'.pop.1, ?_, ?_, [c.reg .r10, c.reg .r8, c.reg .r9], ?_⟩
  · have before : effects env place writeCalls c = effects env place [.syscall, .popReg .r11] s := by
      rw [← called, writeCalls, effects_cons, effect_movRegImm64, Option.bind_some, effects_cons, effect_movRegImm64,
        Option.bind_some, effects_cons, effect_movRegReg, Option.bind_some]
      rfl
    rw [before, effects_cons, effect_syscall, X64.Instr.exec, answer, Option.map_some, Option.bind_some, same, effects_cons,
      effect_popReg, Option.bind_some, effects_nil]
  · simp [← same, rcx]
  · simp [← same, ← called, X64.Cpu.syscallArgs]

/-- The operand is in R11, and the R11 of before is pushed. -/
theorem front_effects (outside : o.Outside []) :
    effects L.env L.address ([.pushReg .r11] ++ sourceCalls o) c =
      some (((c.push (c.reg .r11)).set .r15 (o.value L.address c)).set .r11 (o.value L.address c)) := by
  have value : o.value L.address (c.push (c.reg .r11)) = o.value L.address c :=
    outside.value_user fun r user => by simp [Cpu.push, ((user_iff r).mp user).1]
  rw [effects_append, effects_cons, effect_pushReg, Option.bind_some, effects_nil, Option.bind_some, source_effects, value]

theorem emit_meets (answers : ReturnsWith L.env v) (outside : o.Outside []) {n : Nat}
    (string : Terminated (c.push (c.reg .r11)).mem (o.value L.address c) n) (top done : String) :
    L.Meets (wireEmitCalls o (countedCalls o top done)) c fun d =>
      d.reg .rcx = v ∧ Wrote (rereadSource L.address o n c) (BitVec.ofNat 64 n) c d := by
  obtain ⟨j, shape⟩ : ∃ j, ((c.push (c.reg .r11)).set .r15 (o.value L.address c)).set .r11 (o.value L.address c) = j :=
    ⟨_, rfl⟩
  have ran : effects L.env L.address ([.pushReg .r11] ++ sourceCalls o) c = some j := shape ▸ front_effects outside
  have again : rereadSource L.address o n j = rereadSource L.address o n c := by
    refine outside.value_user fun r user => ?_
    obtain ⟨notSp, -, notR11, notR15⟩ := (user_iff r).mp user
    by_cases isRdx : r = .rdx
    · simp [isRdx]
    · simp [← shape, isRdx, notR11, notR15, Cpu.push, notSp]
  have there : Terminated j.mem (o.value L.address c) n := by simpa [← shape] using string
  refine .append (.append (.straight ran rfl) fun m same => ?_) (P := fun d => d.reg .r11 = rereadSource L.address o n c ∧
    d.reg .rdx = BitVec.ofNat 64 n ∧ d.trace = c.trace) fun m left => ?_
  · subst same
    refine (counted_meets outside there (by simp [← shape]) top done).mono fun d left => ?_
    exact ⟨left.1.trans again, left.2.1, left.2.2.trans (by simp [← shape, Cpu.push])⟩
  · obtain ⟨source, count, trace⟩ := left
    obtain ⟨d, ran, rcx, rest, wrote⟩ := write_effects answers L.address m
    exact .straight ran ⟨rcx, rest, by rw [wrote, source, count, trace]⟩

/-- What is in R11 once the length is evaluated. -/
def heldSource (place : String → Word) (o : Operand) (t : Tree) (c : Cpu) : Word :=
  match t with
  | .leaf _ => o.value place c
  | .node .. => brought place t c

theorem heldSource_eq_iff {place : String → Word} {t : Tree} : heldSource place o t c = o.value place c ↔
    (∃ o', t = .leaf o') ∨ brought place t c = o.value place c := by
  cases t with
  | leaf o' => exact iff_of_true rfl (.inl ⟨o', rfl⟩)
  | node op left right => simp [heldSource]

theorem emitGiven_meets (answers : ReturnsWith L.env v) (outside : o.Outside []) {t : Tree} {n : Nat}
    (readable : t.Readable n c) (room : 8 * (1 + t.depth) ≤ n) (fits : n + 8 ≤ 2 ^ 64) :
    L.Meets (wireEmitCalls o (givenCalls t)) c fun d =>
      d.reg .rcx = v ∧ Wrote (heldSource L.address o t c) (brought L.address t c) c d := by
  obtain ⟨p, source⟩ : ∃ p, o.value L.address c = p := ⟨_, rfl⟩
  obtain ⟨j, shape⟩ : ∃ j, ((c.push (c.reg .r11)).set .r15 p).set .r11 p = j := ⟨_, rfl⟩
  have front : effects L.env L.address ([.pushReg .r11] ++ sourceCalls o) c = some j := by
    rw [front_effects outside, source, shape]
  -- The length is read where R15 holds the operand.
  have start : Evaluating L.address n (c.set .r15 p) none j := by
    refine ⟨fun r notR11 _ notSp => ?_, ?_, ?_⟩
    · simp [← shape, notR11, notSp, Cpu.push]
    · simp [← shape, Tree.value, Operand.value, Cpu.push]
    · have pushed : SameAbove (c.reg .rsp) 8 c.mem (c.push (c.reg .r11)).mem := SameAbove.store_below _
      simpa [← shape] using pushed.mono (show 8 ≤ n by omega)
  obtain ⟨k, ran, done⟩ := @Tree.runs L.env L.address t n 1 _ j none SCRATCH start
    (readable.congr (by simp) (by simp)) (by simp [← shape, Cpu.push]) room fits (by decide)
  have value : k.reg .r15 = brought L.address t c := done.value.trans (brought_r15 readable p)
  have r11 : k.reg .r11 = heldSource L.address o t c := by
    rw [calls_r11 ran done]
    cases t with
    | leaf o' => simp [heldSource, ← shape, source]
    | node op left right => exact brought_r15 readable p
  obtain ⟨d, wrote, rcx, rest, trace⟩ := write_effects answers L.address (k.set .rdx (k.reg SCRATCH))
  refine .straight ?_ ⟨rcx, rest, ?_⟩
  · rw [wireEmitCalls, givenCalls, effects_append, effects_append, front, Option.bind_some, effects_append, ran,
      Option.bind_some, effects_cons, effect_movRegReg, Option.bind_some, effects_nil, Option.bind_some, wrote]
  · have before : k.trace = c.trace := done.trace.trans (by simp [← shape, Cpu.push])
    rw [trace]
    simp [r11, SCRATCH, value, before]

/-- Where the word pushed takes the only NUL away, the count does not end. -/
theorem emit_endless (outside : o.Outside []) (nowhere : ∀ x, (c.push (c.reg .r11)).mem x ≠ 0) (top done : String) :
    L.Endless (wireEmitCalls o (countedCalls o top done)) c := by
  refine .left (.append (.straight (front_effects outside) rfl) fun m same => ?_) _
  subst same
  exact counted_endless (by simpa using nowhere) top done

end Runs

/-! ### The statement -/

theorem one_byte_terminated : Terminated (fun x => if x = 5 then 65 else 0) 5 1 :=
  ⟨by decide, by decide, fun i less => by
    obtain rfl : i = 0 := by omega
    decide⟩

theorem apart_five : X64.Memory.Separate ((5 : Word) - 8) 8 5 2 := ⟨by decide, by decide⟩

/-- Every system call returns at once, with 5 in RCX. -/
def prompt : Env := { Env.silent with kernel := fun s => some (s.set .rcx 5) }

end Aclm.Codegen
