import Aclm.Codegen.Run

/-! Mutual exclusion by `gate:spin`: any number of threads contend for one cell, and the exchange that takes it is one
step. -/

set_option autoImplicit false

namespace Aclm.Codegen.Spin

open X64 (Word Reg Cpu Cond Memory)
open Encoder

/-! ### The code -/

def saveRax (addr : Reg) : List Call := if addr ≠ .rax then [.movRegReg .r13 .rax] else []

def exchange : Call := lockCmpxchgMem .r11 0 .r12

def spinLoop (loop : String) : List Call :=
  [.label loop, xorRegReg .rax .rax, .movRegImm64 .r12 1, exchange, .jcc "neq" loop]

def restoreRax (addr : Reg) : List Call := if addr = .rax then [.movRegReg .rax .r11] else [.movRegReg .rax .r13]

def spinCalls (addr : Reg) (loop : String) : List Call :=
  .movRegReg .r11 addr :: (saveRax addr ++ (spinLoop loop ++ restoreRax addr))

theorem spin_appends {g : CodeGenerator} {name : String} {addr : Reg} (named : resolve name = .ok addr) :
    ∃ loop, Appends (.gateSpin name) g (spinCalls addr loop) := by
  refine ⟨freshLabel "spin" (g.labelI + 1), fun g' emission => ?_⟩
  simp only [emitOp, gateSpin, reg_bind_ok, named, Except.ok.injEq, exists_eq_left', asm_bind_ok, newLabel_bind_ok,
    asm_ok] at emission
  rw [emission]
  simp [spinCalls, saveRax, spinLoop, exchange, restoreRax]

/-- `lock cmpxchg [r11], r12` -/
theorem exchange_bytes : exchange = .bytes [0xF0, 0x4D, 0x0F, 0xB1, 0x23] := by decide

/-- The locked compare-exchange of the word at `[base + disp]`: `src` goes there if the word is the one in RAX, else the
word goes to RAX, and ZF tells which. -/
def lockCmpxchg (base : Reg) (disp : Int) (src : Reg) (c : Cpu) : Cpu :=
  let a := c.reg base + BitVec.ofInt 64 disp
  let old := c.mem.load a 8
  let compared := c.setFlags (c.flags.sub (c.reg .rax) old false)
  if c.reg .rax = old then compared.setMem (c.mem.store a 8 (c.reg src)) else compared.set .rax old

/-- What the processor does at the exchange. -/
theorem exchange_ran (env : X64.Env) (address : String → Word) (c : Cpu) :
    exchange.effect env address c = some (lockCmpxchg .r11 0 .r12 c) := by
  have there : c.address ⟨some .r11, none, 0⟩ = c.reg .r11 + BitVec.ofInt 64 0 := by simp [X64.Cpu.address]
  simp only [exchange, effect_lockCmpxchg, X64.Instr.exec, there, lockCmpxchg]

/-! ### The threads -/

inductive Spinner where
  /-- Not yet in `gate:spin`, or past the release. -/
  | outside
  /-- In `gate:spin` on the address in `addr`, with the calls still to come; the memory of the processor is not its own. -/
  | spinning (addr : Reg) (loop : String) (rest : List Call) (c : Cpu)
  /-- It has left `gate:spin` and has not released. -/
  | inside

/-- What a thread does next to the cell at `a`, and to the rest of the memory. -/
inductive ThreadStep (L : Listing) (a : Word) : Memory → Spinner → Memory → Spinner → Prop where
  | other {m m' : Memory} (kept : m'.load a 8 = m.load a 8) : ThreadStep L a m .outside m' .outside
  | enter {m : Memory} {addr : Reg} (loop : String) {c : Cpu} (there : c.reg addr = a) :
      ThreadStep L a m .outside m (.spinning addr loop (spinCalls addr loop) c)
  | call {m : Memory} {addr : Reg} {loop : String} {call : Call} {rest : List Call} {c d : Cpu}
      (ran : call.effect L.env L.address (c.setMem m) = some d) :
      ThreadStep L a m (.spinning addr loop (call :: rest) c) d.mem (.spinning addr loop rest d)
  | exchange {m : Memory} {addr : Reg} {loop : String} {rest : List Call} {c : Cpu} :
      ThreadStep L a m (.spinning addr loop (exchange :: rest) c) (lockCmpxchg .r11 0 .r12 (c.setMem m)).mem
        (.spinning addr loop rest (lockCmpxchg .r11 0 .r12 (c.setMem m)))
  | taken {m : Memory} {addr : Reg} {loop cond target : String} {k : Cond} {rest : List Call} {c : Cpu}
      (named : jumpCondition cond = some k) (holds : k.holds c.flags = true) :
      ThreadStep L a m (.spinning addr loop (.jcc cond target :: rest) c) m
        (.spinning addr loop ((spinCalls addr loop).dropWhile (· ≠ .label target)) c)
  | fall {m : Memory} {addr : Reg} {loop cond target : String} {k : Cond} {rest : List Call} {c : Cpu}
      (named : jumpCondition cond = some k) (fails : k.holds c.flags = false) :
      ThreadStep L a m (.spinning addr loop (.jcc cond target :: rest) c) m (.spinning addr loop rest c)
  | leave {m : Memory} {addr : Reg} {loop : String} {c : Cpu} : ThreadStep L a m (.spinning addr loop [] c) m .inside
  | hold {m m' : Memory} (kept : m'.load a 8 = m.load a 8) : ThreadStep L a m .inside m' .inside
  | release {m : Memory} : ThreadStep L a m .inside (m.store a 8 0) .outside

/-- One of the threads takes a step. -/
inductive Step (L : Listing) (a : Word) : Memory × List Spinner → Memory × List Spinner → Prop where
  | thread {m m' : Memory} {before after : List Spinner} {old new : Spinner} (once : ThreadStep L a m old m' new) :
      Step L a (m, before ++ old :: after) (m', before ++ new :: after)

/-! ### Where a thread is -/

/-- Where a thread is in `gate:spin`, and whether it has the cell already. -/
inductive SpinAt (a : Word) (addr : Reg) (loop : String) : List Call → Cpu → Bool → Prop where
  | enter {c : Cpu} (there : c.reg addr = a) : SpinAt a addr loop (spinCalls addr loop) c false
  | pointed {c : Cpu} (r11 : c.reg .r11 = a) :
      SpinAt a addr loop (.movRegReg .r13 .rax :: (spinLoop loop ++ restoreRax addr)) c false
  | looping {c : Cpu} (r11 : c.reg .r11 = a) : SpinAt a addr loop (spinLoop loop ++ restoreRax addr) c false
  | labelled {c : Cpu} (r11 : c.reg .r11 = a) : SpinAt a addr loop ((spinLoop loop).drop 1 ++ restoreRax addr) c false
  | cleared {c : Cpu} (r11 : c.reg .r11 = a) (rax : c.reg .rax = 0) :
      SpinAt a addr loop ((spinLoop loop).drop 2 ++ restoreRax addr) c false
  | ready {c : Cpu} (r11 : c.reg .r11 = a) (rax : c.reg .rax = 0) (r12 : c.reg .r12 = 1) :
      SpinAt a addr loop ((spinLoop loop).drop 3 ++ restoreRax addr) c false
  | tried {c : Cpu} (r11 : c.reg .r11 = a) : SpinAt a addr loop ((spinLoop loop).drop 4 ++ restoreRax addr) c c.flags.zf
  | took {c : Cpu} {rest : List Call} (later : rest <:+ restoreRax addr) : SpinAt a addr loop rest c true

/-- The thread has the cell: it is past an exchange that succeeded. -/
def Spinner.holds : Spinner → Bool
  | outside => false
  | spinning _ loop rest c => !rest.contains exchange && (c.flags.zf || !rest.contains (.jcc "neq" loop))
  | inside => true

def ThreadAt (a : Word) : Spinner → Prop
  | .outside | .inside => True
  | .spinning addr loop rest c => ∃ b, SpinAt a addr loop rest c b

variable {L : Listing} {a : Word} {addr : Reg} {loop : String}

theorem restoreRax_plain {call : Call} (member : call ∈ restoreRax addr) :
    call ≠ exchange ∧ call ≠ .jcc "neq" loop ∧ ∃ src, call = .movRegReg .rax src := by
  unfold restoreRax at member
  split at member
  · rw [List.mem_singleton.mp member]
    exact ⟨by decide, by simp, _, rfl⟩
  · rw [List.mem_singleton.mp member]
    exact ⟨by decide, by simp, _, rfl⟩

theorem restoreRax_contains (addr : Reg) (loop : String) {rest : List Call} (later : rest <:+ restoreRax addr) :
    exchange ∉ rest ∧ .jcc "neq" loop ∉ rest :=
  ⟨fun member => (@restoreRax_plain _ loop _ (later.subset member)).1 rfl,
    fun member => (@restoreRax_plain _ loop _ (later.subset member)).2.1 rfl⟩

theorem SpinAt.holds_eq {rest : List Call} {c : Cpu} {b : Bool} (here : SpinAt a addr loop rest c b) :
    (Spinner.spinning addr loop rest c).holds = b := by
  obtain ⟨none, none'⟩ := restoreRax_contains addr loop (List.suffix_refl _)
  cases here with
  | tried r11 =>
    have other : exchange ≠ .jcc "neq" loop := Call.noConfusion
    simp [Spinner.holds, spinLoop, none, other]
  | took later =>
    obtain ⟨none, none'⟩ := restoreRax_contains addr loop later
    simp [Spinner.holds, none, none']
  | _ => simp [Spinner.holds, spinLoop, spinCalls]

/-- A thread's step leaves the cell alone, takes it while it is free, or releases it. -/
inductive ThreadEffect (a : Word) (m : Memory) (old : Spinner) (m' : Memory) (new : Spinner) : Prop where
  | quiet (kept : m'.load a 8 = m.load a 8) (there : ThreadAt a new) (same : new.holds = old.holds)
  | acquires (free : m.load a 8 = 0) (taken : m'.load a 8 = 1) (there : ThreadAt a new) (before : old.holds = false)
      (after : new.holds = true)
  | releases (free : m'.load a 8 = 0) (there : ThreadAt a new) (before : old.holds = true) (after : new.holds = false)

/-- A step inside `gate:spin` that leaves the cell alone and does not change whether the thread has it. -/
theorem ThreadEffect.inside_code {m m' : Memory} {calls rest : List Call} {c d : Cpu} {b : Bool}
    (here : SpinAt a addr loop calls c b) (next : SpinAt a addr loop rest d b) (kept : m'.load a 8 = m.load a 8) :
    ThreadEffect a m (.spinning addr loop calls c) m' (.spinning addr loop rest d) :=
  .quiet kept ⟨b, next⟩ (next.holds_eq.trans here.holds_eq.symm)

/-- The exchange takes the cell where it is zero; else the thread goes round again. -/
theorem exchange_effect {m : Memory} {calls rest : List Call} {c : Cpu} {b : Bool} (here : SpinAt a addr loop calls c b)
    (shape : calls = exchange :: rest) :
    ThreadEffect a m (.spinning addr loop (exchange :: rest) c) (lockCmpxchg .r11 0 .r12 (c.setMem m)).mem
      (.spinning addr loop rest (lockCmpxchg .r11 0 .r12 (c.setMem m))) := by
  have start := here
  cases here with
  | ready r11 rax r12 =>
    obtain ⟨-, rfl⟩ := List.cons.inj shape
    obtain ⟨d, result⟩ : ∃ d, lockCmpxchg .r11 0 .r12 (c.setMem m) = d := ⟨_, rfl⟩
    have tried (r11' : d.reg .r11 = a) : SpinAt a addr loop (.jcc "neq" loop :: restoreRax addr) d d.flags.zf := .tried r11'
    rw [result]
    by_cases free : m.load a 8 = 0
    · have shape : d = ((c.setMem m).setFlags (c.flags.sub 0 0 false)).setMem (m.store a 8 1) := by
        simp [← result, lockCmpxchg, r11, rax, r12, free]
      have zf : d.flags.zf = true := by simp [shape, X64.sub_zf]
      have next := tried (by simp [shape, r11])
      rw [zf] at next
      exact .acquires free (by simp [shape]) ⟨_, next⟩ start.holds_eq next.holds_eq
    · have busy : ¬0#64 = m.load a 8 := fun is => free is.symm
      have shape : d = ((c.setMem m).setFlags (c.flags.sub 0 (m.load a 8) false)).set .rax (m.load a 8) := by
        simp [← result, lockCmpxchg, r11, rax, busy]
      have zf : d.flags.zf = false := by simp [shape, X64.sub_zf, busy]
      have next := tried (by simp [shape, r11])
      rw [zf] at next
      exact .inside_code start next (by simp [shape])
  | took later =>
    subst shape
    exact absurd List.mem_cons_self (restoreRax_contains addr loop later).1
  | _ => cases shape

theorem call_effect {m : Memory} {calls rest : List Call} {call : Call} {c d : Cpu} {b : Bool}
    (here : SpinAt a addr loop calls c b) (shape : calls = call :: rest)
    (ran : call.effect L.env L.address (c.setMem m) = some d) :
    ThreadEffect a m (.spinning addr loop (call :: rest) c) d.mem (.spinning addr loop rest d) := by
  have start := here
  cases here with
  | enter there =>
    obtain ⟨rfl, rfl⟩ := List.cons.inj shape
    rw [effect_movRegReg] at ran
    cases ran
    have next : SpinAt a addr loop (saveRax addr ++ (spinLoop loop ++ restoreRax addr))
        ((c.setMem m).set .r11 ((c.setMem m).reg addr)) false := by
      unfold saveRax
      split
      · exact .pointed (by simpa using there)
      · exact .looping (by simpa using there)
    exact .inside_code start next rfl
  | pointed r11 =>
    obtain ⟨rfl, rfl⟩ := List.cons.inj shape
    rw [effect_movRegReg] at ran
    cases ran
    exact .inside_code start (.looping (by simpa using r11)) rfl
  | looping r11 =>
    obtain ⟨rfl, rfl⟩ := List.cons.inj shape
    cases ran
    exact .inside_code start (.labelled r11) rfl
  | labelled r11 =>
    obtain ⟨rfl, rfl⟩ := List.cons.inj shape
    rw [effect_clear] at ran
    cases ran
    exact .inside_code start (.cleared (by simpa using r11) (by simp)) rfl
  | cleared r11 rax =>
    obtain ⟨rfl, rfl⟩ := List.cons.inj shape
    cases ran
    exact .inside_code start (.ready (by simpa using r11) (by simpa using rax) rfl) rfl
  -- The exchange is the only call of the loop that touches the memory.
  | ready r11 rax r12 =>
    obtain ⟨rfl, rfl⟩ := List.cons.inj shape
    rw [exchange_ran] at ran
    cases ran
    exact exchange_effect start rfl
  | tried r11 =>
    obtain ⟨rfl, rfl⟩ := List.cons.inj shape
    cases ran
  | took later =>
    subst shape
    obtain ⟨-, -, src, rfl⟩ := @restoreRax_plain _ loop _ (later.subset List.mem_cons_self)
    rw [effect_movRegReg] at ran
    cases ran
    exact .inside_code start (.took ((List.suffix_cons _ _).trans later)) rfl

theorem jump_effect {m : Memory} {calls rest : List Call} {cond target : String} {k : Cond} {c : Cpu} {b : Bool}
    (here : SpinAt a addr loop calls c b) (shape : calls = .jcc cond target :: rest) (named : jumpCondition cond = some k) :
    (k.holds c.flags = true → ThreadEffect a m (.spinning addr loop (.jcc cond target :: rest) c) m
      (.spinning addr loop ((spinCalls addr loop).dropWhile (· ≠ .label target)) c)) ∧
    (k.holds c.flags = false → ThreadEffect a m (.spinning addr loop (.jcc cond target :: rest) c) m
      (.spinning addr loop rest c)) := by
  have start := here
  cases here with
  | tried r11 =>
    obtain ⟨same, rfl⟩ := List.cons.inj shape
    obtain ⟨rfl, rfl⟩ := Call.jcc.inj same
    have is : k = .ne := Option.some.inj (named.symm.trans (by decide))
    subst is
    constructor
    · intro again
      have zf : c.flags.zf = false := by simpa [Cond.holds] using again
      have back : (spinCalls addr loop).dropWhile (· ≠ .label loop) = spinLoop loop ++ restoreRax addr := by
        by_cases rax : addr = .rax <;> simp [spinCalls, saveRax, spinLoop, rax]
      rw [back]
      rw [zf] at start
      exact .inside_code start (.looping r11) rfl
    · intro done
      have zf : c.flags.zf = true := by simpa [Cond.holds] using done
      rw [zf] at start
      exact .inside_code start (.took (List.suffix_refl _)) rfl
  | took later =>
    subst shape
    obtain ⟨-, -, src, is⟩ := @restoreRax_plain _ loop _ (later.subset List.mem_cons_self)
    cases is
  | pointed => cases shape
  | _ => cases shape

theorem ThreadStep.effect {m m' : Memory} {old new : Spinner} (here : ThreadAt a old) (once : ThreadStep L a m old m' new) :
    ThreadEffect a m old m' new := by
  cases once with
  | other kept => exact .quiet kept trivial rfl
  | enter loop there => exact .quiet rfl ⟨_, .enter there⟩ (SpinAt.enter there).holds_eq
  | call ran =>
    obtain ⟨b, place⟩ := here
    exact call_effect place rfl ran
  | exchange =>
    obtain ⟨b, place⟩ := here
    exact exchange_effect place rfl
  | taken named holds =>
    obtain ⟨b, place⟩ := here
    exact (jump_effect place rfl named).1 holds
  | fall named fails =>
    obtain ⟨b, place⟩ := here
    exact (jump_effect place rfl named).2 fails
  | @leave addr loop c =>
    obtain ⟨b, place⟩ := here
    obtain ⟨rest, none⟩ : ∃ rest : List Call, rest = [] := ⟨_, rfl⟩
    rw [← none] at place ⊢
    cases place with
    | took later => exact .quiet rfl trivial (@SpinAt.took a _ loop _ _ later).holds_eq.symm
    | _ => cases none
  | hold kept => exact .quiet kept trivial rfl
  | release => exact .releases (by simp) trivial rfl rfl

/-! ### Runs -/

/-- The cell is zero while no thread has it, and one while one thread has it; no other thread has it then. -/
structure Excluded (a : Word) (s : Memory × List Spinner) : Prop where
  threads : ∀ t ∈ s.2, ThreadAt a t
  one : s.2.countP Spinner.holds ≤ 1
  cell : s.1.load a 8 = BitVec.ofNat 64 (s.2.countP Spinner.holds)

theorem Excluded.step {s t : Memory × List Spinner} (excluded : Excluded a s) (once : Step L a s t) : Excluded a t := by
  obtain ⟨threads, one, cell⟩ := excluded
  cases once with
  | @thread m m' before after old new once =>
    have others (there : ThreadAt a new) : ∀ t ∈ before ++ new :: after, ThreadAt a t := by
      intro t member
      rcases List.mem_append.mp member with front | rear
      · exact threads t (by simp [front])
      · rcases List.mem_cons.mp rear with rfl | rear
        · exact there
        · exact threads t (by simp [rear])
    simp only [List.countP_append, List.countP_cons] at one cell
    cases once.effect (threads old (by simp)) with
    | quiet kept there same =>
      refine ⟨others there, ?_, ?_⟩
      · simpa [List.countP_cons, same] using one
      · simpa [List.countP_cons, same, kept] using cell
    | acquires free taken there before' after' =>
      rw [before'] at cell one
      rw [free] at cell
      -- The cell was free, so no other thread holds it.
      have none : before.countP Spinner.holds + after.countP Spinner.holds = 0 := by
        simp only [Bool.false_eq_true, if_false, Nat.add_zero] at cell one
        bv_omega
      have now : (before ++ new :: after).countP Spinner.holds = 1 := by
        simp only [List.countP_append, List.countP_cons, after', if_true]
        omega
      refine ⟨others there, now.le, ?_⟩
      rw [now, taken]
      rfl
    | releases free there before' after' =>
      rw [before'] at one
      have now : (before ++ new :: after).countP Spinner.holds = 0 := by
        simp only [if_true] at one
        simp only [List.countP_append, List.countP_cons, after', Bool.false_eq_true, if_false]
        omega
      refine ⟨others there, Nat.le_succ_of_le now.le, ?_⟩
      rw [now, free]
      rfl

/-- Two positions at which a predicate holds count twice. -/
theorem two_le_countP {α : Type} {p : α → Bool} {l : List α} {i j : Nat} {x y : α} (before : i < j) (left : l[i]? = some x)
    (right : l[j]? = some y) (px : p x = true) (py : p y = true) : 2 ≤ l.countP p := by
  have first : 0 < (l.take j).countP p :=
    List.countP_pos_iff.mpr ⟨x, List.mem_of_getElem? (i := i) (by rw [List.getElem?_take_of_lt before, left]), px⟩
  have second : 0 < (l.drop j).countP p :=
    List.countP_pos_iff.mpr ⟨y, List.mem_of_getElem? (i := 0) (by rw [List.getElem?_drop, Nat.add_zero, right]), py⟩
  have both := @List.countP_append _ p (l.take j) (l.drop j)
  rw [List.take_append_drop] at both
  omega

theorem excluded_start {m : Memory} (free : m.load a 8 = 0) (n : Nat) : Excluded a (m, List.replicate n .outside) := by
  refine ⟨fun t member => ?_, ?_, ?_⟩
  · rw [List.eq_of_mem_replicate member]
    trivial
  · simp [List.countP_replicate, Spinner.holds]
  · simpa [List.countP_replicate, Spinner.holds] using free

theorem Excluded.run {s t : Memory × List Spinner} (excluded : Excluded a s)
    (run : Relation.ReflTransGen (Step L a) s t) : Excluded a t := by
  induction run with
  | refl => exact excluded
  | tail _ once ih => exact ih.step once

/-- At most one thread is between leaving `gate:spin` and its release. -/
theorem gate_spin_exclusive {m : Memory} {n : Nat} (free : m.load a 8 = 0) {s : Memory × List Spinner}
    (run : Relation.ReflTransGen (Step L a) (m, List.replicate n .outside) s) {i j : Nat}
    (left : s.2[i]? = some .inside) (right : s.2[j]? = some .inside) : i = j := by
  have one := ((excluded_start free n).run run).one
  by_contra apart
  rcases Nat.lt_or_gt_of_ne apart with less | less
  · have two := @two_le_countP _ Spinner.holds _ _ _ _ _ less left right rfl rfl
    omega
  · have two := @two_le_countP _ Spinner.holds _ _ _ _ _ less right left rfl rfl
    omega

/-- Straight-line calls of the first thread, one at a time. -/
theorem steps_of_effects {calls rest : List Call} {m : Memory} {c d : Cpu} (others : List Spinner)
    (ran : effects L.env L.address calls (c.setMem m) = some d) :
    ∃ e, e.reg = d.reg ∧ Relation.ReflTransGen (Step L a) (m, .spinning addr loop (calls ++ rest) c :: others)
      (d.mem, .spinning addr loop rest e :: others) := by
  induction calls generalizing m c with
  | nil =>
    cases ran
    exact ⟨c, rfl, .refl⟩
  | cons call calls ih =>
    obtain ⟨k, head, tail⟩ := Option.bind_eq_some_iff.mp ran
    obtain ⟨e, regs, more⟩ := @ih k.mem k tail
    exact ⟨e, regs, .head (@Step.thread L a _ _ [] others _ _ (.call head)) more⟩

/-- Of two threads one comes through. -/
theorem gate_spin_exclusive_two : ∃ (L : Listing) (m : Memory) (s : Memory × List Spinner),
    Relation.ReflTransGen (Step L 0) (m, List.replicate 2 .outside) s ∧ s.2[0]? = some .inside ∧
      ∀ j, s.2[j]? = some .inside → 0 = j := by
  let L : Listing := ⟨[], false, [], 0, .silent⟩
  let c := Cpu.filled 0
  have step {m m' : Memory} {old new : Spinner} (once : ThreadStep L 0 m old m' new) :
      Step L 0 (m, [old, .outside]) (m', [new, .outside]) := @Step.thread L 0 _ _ [] [.outside] _ _ once
  obtain ⟨z, free⟩ : ∃ z : Memory, z.load 0#64 8 = 0#64 := ⟨fun _ => 0, by decide⟩
  obtain ⟨d, ran, mem, r11, rax, r12⟩ : ∃ d, effects L.env L.address ([.movRegReg .r11 .rbx, .movRegReg .r13 .rax,
      .label "spin", xorRegReg .rax .rax, .movRegImm64 .r12 1] : List Call) (c.setMem z) = some d ∧
      d.mem = z ∧ d.reg .r11 = 0 ∧ d.reg .rax = 0 ∧ d.reg .r12 = 1 :=
    ⟨_, by simp; rfl, rfl, rfl, rfl, rfl⟩
  obtain ⟨e, regs, enters⟩ := @steps_of_effects L 0 .rbx "spin" _ (exchange :: .jcc "neq" "spin" :: restoreRax .rbx) _ c d
    [.outside] ran
  rw [mem] at enters
  obtain ⟨k, result⟩ : ∃ k, lockCmpxchg .r11 0 .r12 (e.setMem z) = k := ⟨_, rfl⟩
  have zf : k.flags.zf = true := by
    rw [← result]
    simp [lockCmpxchg, regs, r11, rax, free, X64.sub_zf]
  have exchanges := step (@ThreadStep.exchange L 0 z .rbx "spin" (.jcc "neq" "spin" :: restoreRax .rbx) e)
  rw [result] at exchanges
  have falls := step (@ThreadStep.fall L 0 k.mem .rbx "spin" "neq" "spin" .ne (restoreRax .rbx) k (by decide)
    (by simp [Cond.holds, zf]))
  obtain ⟨e', -, leaves⟩ := @steps_of_effects L 0 .rbx "spin" (restoreRax .rbx) [] k.mem k _ [.outside]
    (by simp [restoreRax]; rfl)
  have run := ((((Relation.ReflTransGen.single (step (@ThreadStep.enter L 0 _ .rbx "spin" c rfl))).trans enters).tail
    exchanges).tail falls).trans leaves |>.tail (step .leave)
  exact ⟨L, z, _, run, rfl, fun j right => @gate_spin_exclusive L 0 z 2 free _ run 0 j rfl right⟩

end Aclm.Codegen.Spin
