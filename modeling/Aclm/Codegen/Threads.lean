import Aclm.Codegen.Run

/-! Threads over one memory: the main thread spawns and waits, its children count themselves as done.
Every call of the code that touches the counters is a step of its own, and in between the other threads take theirs. -/

set_option autoImplicit false

namespace Aclm.Codegen

open X64 (Word Reg Cpu Cond Memory)
open X64.Memory (Separate)
open Encoder

/-! ### The code -/

/-- The parent's share of `thread:spawn` after the clone. -/
def countSpawn : List Call := [.pushReg .rax, .leaRegLabel .rdi threadFutex] ++ countUp 16 ++ [.popReg .rax]

/-- A round of `thread:join_all` up to the comparison. -/
def joinTest : List Call :=
  [.leaRegLabel .rdi threadFutex, load64 .rax .rdi 0, load64 .rcx .rdi 16, cmpRegReg .rax .rcx]

/-- The rest of the round, which waits for a wake. -/
def joinWait : List Call :=
  [xorRegReg .rsi .rsi, load64 .rdx .rdi 0, xorRegReg .r10 .r10, .movRegImm64 .rax 202, .syscall, decReg .r14,
    testRegReg .r14 .r14]

/-- A stack for the child, and the clone. -/
def mapAndClone : List Call :=
  [xorRegReg .rdi .rdi, .movRegImm64 .rsi (2 ^ 20), .movRegImm64 .rdx 3, .movRegImm64 .r10 0x22,
    .movRegImm64 .r8 0xFFFFFFFFFFFFFFFF, xorRegReg .r9 .r9, .movRegImm64 .rax 9, .syscall, .movRegReg .r12 .rax,
    addRegImm .r12 (2 ^ 20 - 16), .movRegImm64 .rdi 0x00000F00, .movRegReg .rsi .r12, xorRegReg .rdx .rdx,
    xorRegReg .r10 .r10, xorRegReg .r8 .r8, .movRegImm64 .rax 56, .syscall]

theorem spawn_appends {g : CodeGenerator} {dest label : String} {dst : Reg} (named : resolve dest = .ok dst) :
    ∃ child parent, Appends (.threadSpawn dest label) g (mapAndClone ++ [testRegReg .rax .rax, .jcc "eq" child] ++
      copyTo dst .rax ++ countSpawn ++ [.jmp parent, .label child, .call (lbl label)] ++ signalDone ++
      [xorRegReg .rdi .rdi, .movRegImm64 .rax 60, .syscall, .label parent]) := by
  refine ⟨freshLabel "thr_c" (g.labelI + 1), freshLabel "thr_p" (g.labelI + 1 + 1), fun g' emission => ?_⟩
  simp only [emitOp, threadSpawn, asm_bind_ok, newLabel_bind_ok, reg_bind_ok, named, Except.ok.injEq, exists_eq_left',
    asm_ok] at emission
  rw [emission]
  simp [mapAndClone, countSpawn]

theorem joinAll_appends (g : CodeGenerator) :
    ∃ loop done, Appends .threadJoinAll g ([.movRegImm64 .r14 500000, .label loop] ++ joinTest ++ [.jcc "abe" done] ++
      joinWait ++ [.jcc "eq" done, .jmp loop, .label done]) := by
  refine ⟨freshLabel "ja_w" (g.labelI + 1), freshLabel "ja_d" (g.labelI + 1 + 1), fun g' emission => ?_⟩
  simp only [emitOp, threadJoinAll, newLabel_bind_ok, asm_ok] at emission
  rw [emission]
  rfl

theorem exit_script {code : Option Expr} {g g' : CodeGenerator} (emission : emitOp (.threadExit code) g = .ok () g') :
    ∃ leave, g'.script = g.script ++ signalDone ++ leave := by
  simp only [emitOp, threadExit, asm_bind_ok] at emission
  cases code with
  | none =>
    simp only [evalOr, asm_bind_ok, asm_ok] at emission
    exact ⟨_, by rw [emission]; simp; rfl⟩
  | some node =>
    simp only [evalOr, eval_bind_ok, asm_ok] at emission
    obtain ⟨calls, -, rest⟩ := emission
    exact ⟨_, by rw [rest]; simp; rfl⟩

/-! ### Threads -/

namespace Threads

inductive Child where
  /-- In the code of its label. -/
  | working
  /-- Counting itself as done, with the calls that are still to come; the memory of the processor is not its own. -/
  | signalling (rest : List Call) (c : Cpu)

namespace Child

def store : Call := movMemReg .rdi 0 .rax none 1

def load : Call := movRegMem .rax .rdi 0 none 1

/-- The store to the counter is behind. -/
def stored : Child → Bool
  | working => false
  | signalling rest _ => !rest.contains store

/-- The load of the counter is next. -/
def loads : Child → Bool
  | working => false
  | signalling rest _ => rest.head? = some load

/-- The load of the counter is behind, and the store still to come. -/
def between : Child → Bool
  | working => false
  | signalling rest _ => !rest.contains load && rest.contains store

end Child

inductive Main where
  | working
  /-- In `thread:spawn`, behind the clone. -/
  | counting (rest : List Call) (c : Cpu)
  /-- In `thread:join_all`, before the comparison. -/
  | testing (rest : List Call) (c : Cpu)
  /-- In `thread:join_all`, behind the comparison. -/
  | waiting (rest : List Call) (c : Cpu)
  /-- Out of `thread:join_all`, because as many threads as were spawned are done. -/
  | passed

structure System where
  mem : Memory
  main : Main
  children : List Child
  /-- How many clones the main thread has made, those that failed included. -/
  spawned : Nat

variable (L : Listing)

def doneCount (m : Memory) : Word := m.load (L.address threadFutex) 8

def spawnCount (m : Memory) : Word := m.load (L.address threadFutex + 16) 8

/-- Both counters are as they were. -/
def Keeps (m m' : Memory) : Prop := doneCount L m' = doneCount L m ∧ spawnCount L m' = spawnCount L m

/-- The next of the calls of a thread. A system call may do anything but write to the counters. -/
inductive Advance : Memory → List Call → Cpu → Memory → List Call → Cpu → Prop where
  | call {m : Memory} {call : Call} {rest : List Call} {c d : Cpu} (plain : call ≠ .syscall)
      (ran : call.effect L.env L.address (c.setMem m) = some d) : Advance m (call :: rest) c d.mem rest d
  | kernel {m m' : Memory} {rest : List Call} {c d : Cpu} (kept : Keeps L m m') :
      Advance m (.syscall :: rest) c m' rest d

inductive ChildStep : Memory → Child → Memory → Child → Prop where
  | work {m m' : Memory} (kept : Keeps L m m') : ChildStep m .working m' .working
  | signal {m : Memory} (c : Cpu) : ChildStep m .working m (.signalling signalDone c)
  | advance {m m' : Memory} {calls rest : List Call} {c d : Cpu} (once : Advance L m calls c m' rest d) :
      ChildStep m (.signalling calls c) m' (.signalling rest d)
  /-- What follows ends the thread. -/
  | leave {m m' : Memory} {c d : Cpu} (kept : Keeps L m m') : ChildStep m (.signalling [] c) m' (.signalling [] d)

/-- The words that the main thread pushes are apart from the counters. -/
def MainClear (c : Cpu) : Prop := Separate (c.reg .rsp - 8) 8 (L.address threadFutex) 24

inductive MainStep : Memory → Main → Memory → Main → Prop where
  | work {m m' : Memory} (kept : Keeps L m m') : MainStep m .working m' .working
  | count {m m' : Memory} {calls rest : List Call} {c d : Cpu} (once : Advance L m calls c m' rest d) :
      MainStep m (.counting calls c) m' (.counting rest d)
  | counted {m : Memory} {c : Cpu} : MainStep m (.counting [] c) m .working
  | join {m : Memory} (c : Cpu) : MainStep m .working m (.testing joinTest c)
  | test {m m' : Memory} {calls rest : List Call} {c d : Cpu} (once : Advance L m calls c m' rest d) :
      MainStep m (.testing calls c) m' (.testing rest d)
  | pass {m : Memory} {c : Cpu} (holds : Cond.ae.holds c.flags = true) : MainStep m (.testing [] c) m .passed
  | wait {m : Memory} {c : Cpu} (fails : Cond.ae.holds c.flags = false) : MainStep m (.testing [] c) m (.waiting joinWait c)
  | waits {m m' : Memory} {calls rest : List Call} {c d : Cpu} (once : Advance L m calls c m' rest d) :
      MainStep m (.waiting calls c) m' (.waiting rest d)
  | retry {m : Memory} {c : Cpu} (fails : Cond.e.holds c.flags = false) : MainStep m (.waiting [] c) m (.testing joinTest c)
  | giveUp {m : Memory} {c : Cpu} (holds : Cond.e.holds c.flags = true) : MainStep m (.waiting [] c) m .working
  | next {m : Memory} : MainStep m .passed m .working

/-- Whose step it is. -/
inductive Turn where
  | main
  | child (k : Nat)

inductive Step : Turn → System → System → Prop where
  | main {m m' : Memory} {a a' : Main} {cs : List Child} {n : Nat} (once : MainStep L m a m' a') :
      Step .main ⟨m, a, cs, n⟩ ⟨m', a', cs, n⟩
  /-- The clone of `thread:spawn`: a child begins with the code of its label. -/
  | spawn {m : Memory} {cs : List Child} {n : Nat} (c : Cpu) (clear : MainClear L c) :
      Step .main ⟨m, .working, cs, n⟩ ⟨m, .counting countSpawn c, cs ++ [.working], n + 1⟩
  /-- A clone that fails is counted, too. -/
  | noSpawn {m : Memory} {cs : List Child} {n : Nat} (c : Cpu) (clear : MainClear L c) :
      Step .main ⟨m, .working, cs, n⟩ ⟨m, .counting countSpawn c, cs, n + 1⟩
  | child {m m' : Memory} {a : Main} {before after : List Child} {old new : Child} {n : Nat}
      (once : ChildStep L m old m' new) :
      Step (.child before.length) ⟨m, a, before ++ old :: after, n⟩ ⟨m', a, before ++ new :: after, n⟩

/-- Nothing has been spawned, and the counters are zero. -/
structure Starts (s : System) : Prop where
  main : s.main = .working
  children : s.children = []
  spawned : s.spawned = 0
  done : doneCount L s.mem = 0
  spawns : spawnCount L s.mem = 0

/-- How many children have stored to the counter. -/
def System.completed (s : System) : Nat := s.children.countP Child.stored

variable {L}

/-! ### The counters -/

section Counters

variable (m : Memory) (w : Word)

theorem Keeps.refl : Keeps L m m := ⟨rfl, rfl⟩

@[simp] theorem doneCount_done : doneCount L (m.store (L.address threadFutex) 8 w) = w :=
  X64.Memory.load_store_word m _ w

@[simp] theorem spawnCount_spawn : spawnCount L (m.store (L.address threadFutex + 16) 8 w) = w :=
  X64.Memory.load_store_word m _ w

@[simp] theorem spawnCount_done : spawnCount L (m.store (L.address threadFutex) 8 w) = spawnCount L m :=
  X64.Memory.load_store_apart (by constructor <;> bv_omega) w

@[simp] theorem doneCount_spawn : doneCount L (m.store (L.address threadFutex + 16) 8 w) = doneCount L m :=
  X64.Memory.load_store_apart (by constructor <;> bv_omega) w

theorem keeps_push {c : Cpu} (clear : MainClear L c) : Keeps L m (m.store (c.reg .rsp - 8) 8 w) := by
  obtain ⟨far, fits⟩ := clear
  constructor
  · exact X64.Memory.load_store_apart (by constructor <;> omega) w
  · exact X64.Memory.load_store_apart (by constructor <;> bv_omega) w

end Counters

/-! ### A child's step -/

theorem Advance.of_call {m m' : Memory} {call : Call} {tail calls rest : List Call} {c d : Cpu}
    (once : Advance L m calls c m' rest d) (shape : calls = call :: tail) (plain : call ≠ .syscall) :
    rest = tail ∧ m' = d.mem ∧ call.effect L.env L.address (c.setMem m) = some d := by
  cases once with
  | call _ ran =>
    obtain ⟨rfl, rfl⟩ := List.cons.inj shape
    exact ⟨rfl, rfl, ran⟩
  | kernel => exact absurd (List.cons.inj shape).1.symm plain

/-- Where a child is in the code that counts it, and what it has of the counter: `P` holds of what it has loaded. -/
inductive SignalAt (L : Listing) (P : Word → Prop) : List Call → Cpu → Prop where
  | start (c : Cpu) : SignalAt L P signalDone c
  | pointed {c : Cpu} (rdi : c.reg .rdi = L.address threadFutex) : SignalAt L P (signalDone.drop 1) c
  | loaded {c : Cpu} (rdi : c.reg .rdi = L.address threadFutex) (rax : P (c.reg .rax)) :
      SignalAt L P (signalDone.drop 2) c
  | added {c : Cpu} (rdi : c.reg .rdi = L.address threadFutex) (rax : P (c.reg .rax - 1)) :
      SignalAt L P (signalDone.drop 3) c
  | stored {rest : List Call} {c : Cpu} (later : rest <:+ signalDone.drop 4) : SignalAt L P rest c

def ChildAt (L : Listing) (P : Word → Prop) : Child → Prop
  | .working => True
  | .signalling rest c => SignalAt L P rest c

theorem SignalAt.mono {P Q : Word → Prop} {rest : List Call} {c : Cpu} (here : SignalAt L P rest c)
    (weaker : ∀ w, P w → Q w) : SignalAt L Q rest c := by
  cases here with
  | start => exact .start c
  | pointed rdi => exact .pointed rdi
  | loaded rdi rax => exact .loaded rdi (weaker _ rax)
  | added rdi rax => exact .added rdi (weaker _ rax)
  | stored later => exact .stored later

theorem ChildAt.mono {P Q : Word → Prop} {child : Child} (here : ChildAt L P child) (weaker : ∀ w, P w → Q w) :
    ChildAt L Q child := by
  cases child with
  | working => trivial
  | signalling rest c => exact SignalAt.mono here weaker

/-- Behind the store there is neither a load nor a store of the counter. -/
theorem suffix_stored {rest : List Call} (later : rest <:+ signalDone.drop 4) (c : Cpu) :
    (Child.signalling rest c).stored = true ∧ (Child.signalling rest c).between = false := by
  have none : ∀ call ∈ signalDone.drop 4, call ≠ Child.store := by decide
  have gone : Child.store ∉ rest := fun member => none _ (later.subset member) rfl
  simp [Child.stored, Child.between, gone]

/-- A child's step leaves the counters alone, loads the number of threads that are done, or stores its successor. -/
inductive ChildEffect (L : Listing) (P : Word → Prop) (m : Memory) (old : Child) (m' : Memory) (new : Child) : Prop where
  | quiet (kept : Keeps L m m') (there : ChildAt L P new) (stored : new.stored = old.stored)
      (between : new.between = old.between)
  | loads (same : m' = m) (next : old.loads = true) (before : old.stored = false) (stored : new.stored = false)
      (there : ∀ Q : Word → Prop, Q (doneCount L m) → ChildAt L Q new)
  | stores {w : Word} (had : P w) (cell : m' = m.store (L.address threadFutex) 8 (w + 1)) (between : old.between = true)
      (before : old.stored = false) (stored : new.stored = true) (after : new.between = false)
      (there : ∀ Q : Word → Prop, ChildAt L Q new)

theorem ChildStep.effect {P : Word → Prop} {m m' : Memory} {old new : Child} (here : ChildAt L P old)
    (once : ChildStep L m old m' new) : ChildEffect L P m old m' new := by
  cases once with
  | work kept => exact .quiet kept trivial rfl rfl
  | signal c => exact .quiet (.refl m) (.start c) rfl rfl
  | leave kept =>
    exact .quiet kept (.stored (List.nil_suffix)) rfl rfl
  | @advance _ _ rest c d once =>
    cases here with
    | start =>
      obtain ⟨rfl, rfl, ran⟩ := once.of_call rfl (by decide)
      cases ran
      exact .quiet (.refl m) (.pointed (by simp)) rfl rfl
    | pointed rdi =>
      obtain ⟨rfl, rfl, ran⟩ := once.of_call rfl (by decide)
      rw [effect_movRegMem] at ran
      cases ran
      refine .loads rfl rfl rfl rfl fun Q q => .loaded (by simpa using rdi) ?_
      simpa [rdi, doneCount] using q
    | loaded rdi rax =>
      obtain ⟨rfl, rfl, ran⟩ := once.of_call rfl (by decide)
      rw [effect_addRegImm] at ran
      cases ran
      exact .quiet (.refl m) (.added (by simpa using rdi) (by simpa using rax)) rfl rfl
    | added rdi rax =>
      obtain ⟨rfl, rfl, ran⟩ := once.of_call rfl (by decide)
      rw [effect_movMemReg] at ran
      cases ran
      refine .stores rax ?_ rfl rfl rfl rfl fun Q => .stored (List.suffix_refl _)
      simp [rdi]
    | stored later =>
      have behind : rest <:+ signalDone.drop 4 := by
        cases once with
        | call => exact (List.suffix_cons _ _).trans later
        | kernel => exact (List.suffix_cons _ _).trans later
      obtain ⟨oldStored, oldBetween⟩ := suffix_stored later c
      obtain ⟨newStored, newBetween⟩ := suffix_stored behind d
      refine .quiet ?_ (.stored behind) (newStored.trans oldStored.symm) (newBetween.trans oldBetween.symm)
      cases once with
      | kernel kept => exact kept
      | call plain ran =>
        -- Only moves of constants are left.
        have moves : ∀ call ∈ signalDone.drop 4, call = .syscall ∨ ∃ dst imm, call = .movRegImm64 dst imm := by
          simp [signalDone, countUp]
        obtain same | ⟨dst, imm, rfl⟩ := moves _ (later.subset List.mem_cons_self)
        · exact absurd same plain
        · cases ran
          exact .refl m

/-! ### The main thread's step -/

/-- Where the main thread is in the code that counts its `n`-th clone. -/
inductive CountAt (L : Listing) (m : Memory) (n : Nat) : List Call → Cpu → Prop where
  | start {c : Cpu} (clear : MainClear L c) (before : spawnCount L m + 1 = BitVec.ofNat 64 n) : CountAt L m n countSpawn c
  | pushed {c : Cpu} (before : spawnCount L m + 1 = BitVec.ofNat 64 n) : CountAt L m n (countSpawn.drop 1) c
  | pointed {c : Cpu} (rdi : c.reg .rdi = L.address threadFutex) (before : spawnCount L m + 1 = BitVec.ofNat 64 n) :
      CountAt L m n (countSpawn.drop 2) c
  | loaded {c : Cpu} (rdi : c.reg .rdi = L.address threadFutex) (rax : c.reg .rax + 1 = BitVec.ofNat 64 n) :
      CountAt L m n (countSpawn.drop 3) c
  | added {c : Cpu} (rdi : c.reg .rdi = L.address threadFutex) (rax : c.reg .rax = BitVec.ofNat 64 n) :
      CountAt L m n (countSpawn.drop 4) c
  | stored {c : Cpu} (after : spawnCount L m = BitVec.ofNat 64 n) : CountAt L m n (countSpawn.drop 5) c
  | popped {c : Cpu} (after : spawnCount L m = BitVec.ofNat 64 n) : CountAt L m n [] c

/-- Where the main thread is before the comparison; `Q` holds of the number of threads that it takes to be done. -/
inductive TestAt (L : Listing) (Q : Word → Prop) (n : Nat) : List Call → Cpu → Prop where
  | start (c : Cpu) : TestAt L Q n joinTest c
  | pointed {c : Cpu} (rdi : c.reg .rdi = L.address threadFutex) : TestAt L Q n (joinTest.drop 1) c
  | loaded {c : Cpu} (rdi : c.reg .rdi = L.address threadFutex) (done : Q (c.reg .rax)) :
      TestAt L Q n (joinTest.drop 2) c
  | both {c : Cpu} (done : Q (c.reg .rax)) (spawned : c.reg .rcx = BitVec.ofNat 64 n) : TestAt L Q n (joinTest.drop 3) c
  | compared {c : Cpu} {f : X64.Flags} {w : Word} (done : Q w) (flags : c.flags = f.sub w (BitVec.ofNat 64 n) false) :
      TestAt L Q n [] c

def MainAt (L : Listing) (Q : Word → Prop) (m : Memory) (n : Nat) : Main → Prop
  | .working => spawnCount L m = BitVec.ofNat 64 n
  | .counting rest c => CountAt L m n rest c
  | .testing rest c => spawnCount L m = BitVec.ofNat 64 n ∧ TestAt L Q n rest c
  | .waiting rest _ => spawnCount L m = BitVec.ofNat 64 n ∧ rest <:+ joinWait
  | .passed => spawnCount L m = BitVec.ofNat 64 n ∧ ∃ w, Q w ∧ BitVec.ofNat 64 n ≤ w

theorem MainAt.mono {P Q : Word → Prop} {m : Memory} {n : Nat} {a : Main} (here : MainAt L P m n a)
    (weaker : ∀ w, P w → Q w) : MainAt L Q m n a := by
  cases a with
  | working => exact here
  | counting rest c => exact here
  | waiting rest c => exact here
  | passed =>
    obtain ⟨spawns, w, done, enough⟩ := here
    exact ⟨spawns, w, weaker w done, enough⟩
  | testing rest c =>
    obtain ⟨spawns, place⟩ := here
    refine ⟨spawns, ?_⟩
    cases place with
    | start => exact .start c
    | pointed rdi => exact .pointed rdi
    | loaded rdi done => exact .loaded rdi (weaker _ done)
    | both done spawned => exact .both (weaker _ done) spawned
    | compared done flags => exact .compared (weaker _ done) flags

/-- Only the number of spawned threads matters. -/
theorem MainAt.keep {Q : Word → Prop} {m m' : Memory} {n : Nat} {a : Main} (here : MainAt L Q m n a)
    (same : spawnCount L m' = spawnCount L m) : MainAt L Q m' n a := by
  cases a with
  | working => exact same.trans here
  | waiting rest c => exact ⟨same.trans here.1, here.2⟩
  | passed => exact ⟨same.trans here.1, here.2⟩
  | testing rest c => exact ⟨same.trans here.1, here.2⟩
  | counting rest c =>
    cases here with
    | start clear before => exact .start clear ((congrArg (· + 1) same).trans before)
    | pushed before => exact .pushed ((congrArg (· + 1) same).trans before)
    | pointed rdi before => exact .pointed rdi ((congrArg (· + 1) same).trans before)
    | loaded rdi rax => exact .loaded rdi rax
    | added rdi rax => exact .added rdi rax
    | stored after => exact .stored (same.trans after)
    | popped after => exact .popped (same.trans after)

theorem CountAt.advance {Q : Word → Prop} {m m' : Memory} {n : Nat} {calls rest : List Call} {c d : Cpu}
    (here : CountAt L m n calls c) (once : Advance L m calls c m' rest d) :
    doneCount L m' = doneCount L m ∧ MainAt L Q m' n (.counting rest d) := by
  cases here with
  | start clear before =>
    obtain ⟨rfl, rfl, ran⟩ := once.of_call rfl (by decide)
    cases ran
    have kept : Keeps L m (m.store (c.reg .rsp - 8) 8 (c.reg .rax)) := keeps_push m _ clear
    exact ⟨kept.1, .pushed (kept.2.symm ▸ before)⟩
  | pushed before =>
    obtain ⟨rfl, rfl, ran⟩ := once.of_call rfl (by decide)
    cases ran
    exact ⟨rfl, .pointed (by simp) before⟩
  | pointed rdi before =>
    obtain ⟨rfl, rfl, ran⟩ := once.of_call rfl (by decide)
    rw [effect_movRegMem] at ran
    cases ran
    exact ⟨rfl, .loaded (by simpa using rdi) (by simpa [rdi, spawnCount] using before)⟩
  | loaded rdi rax =>
    obtain ⟨rfl, rfl, ran⟩ := once.of_call rfl (by decide)
    rw [effect_addRegImm] at ran
    cases ran
    exact ⟨rfl, .added (by simpa using rdi) (by simpa using rax)⟩
  -- Only here the count of the spawned threads is stored.
  | added rdi rax =>
    obtain ⟨rfl, rfl, ran⟩ := once.of_call rfl (by decide)
    rw [effect_movMemReg] at ran
    have cell : d.mem = m.store (L.address threadFutex + 16) 8 (BitVec.ofNat 64 n) := by
      rw [← Option.some.inj ran]
      simp [rdi, rax]
    rw [cell]
    exact ⟨doneCount_spawn m _, .stored (spawnCount_spawn m _)⟩
  | stored after =>
    obtain ⟨rfl, rfl, ran⟩ := once.of_call rfl (by decide)
    cases ran
    exact ⟨rfl, .popped after⟩
  | popped after => cases once

theorem TestAt.advance {Q : Word → Prop} {m m' : Memory} {n : Nat} {calls rest : List Call} {c d : Cpu}
    (here : TestAt L Q n calls c) (spawns : spawnCount L m = BitVec.ofNat 64 n) (done : Q (doneCount L m))
    (once : Advance L m calls c m' rest d) : m' = m ∧ TestAt L Q n rest d := by
  cases here with
  | start =>
    obtain ⟨rfl, rfl, ran⟩ := once.of_call rfl (by decide)
    cases ran
    exact ⟨rfl, .pointed (by simp)⟩
  | pointed rdi =>
    obtain ⟨rfl, rfl, ran⟩ := once.of_call rfl (by decide)
    rw [load64, effect_movRegMem] at ran
    cases ran
    exact ⟨rfl, .loaded (by simpa using rdi) (by simpa [rdi, doneCount] using done)⟩
  | loaded rdi had =>
    obtain ⟨rfl, rfl, ran⟩ := once.of_call rfl (by decide)
    rw [load64, effect_movRegMem] at ran
    cases ran
    exact ⟨rfl, .both (by simpa using had) (by simpa [rdi, spawnCount] using spawns)⟩
  | both had spawned =>
    obtain ⟨rfl, rfl, ran⟩ := once.of_call rfl (by decide)
    rw [effect_cmpRegReg] at ran
    cases ran
    exact ⟨rfl, .compared had (by simp [spawned]; rfl)⟩
  | compared had flags => cases once

/-- The code that waits writes nothing to memory. -/
theorem waits_keep {m m' : Memory} {calls rest : List Call} {c d : Cpu} (within : calls <:+ joinWait)
    (once : Advance L m calls c m' rest d) : Keeps L m m' ∧ rest <:+ joinWait := by
  cases once with
  | kernel kept => exact ⟨kept, (List.suffix_cons _ _).trans within⟩
  | @call call rest c d plain ran =>
    refine ⟨?_, (List.suffix_cons _ _).trans within⟩
    have member := within.subset List.mem_cons_self
    simp only [joinWait, List.mem_cons, List.not_mem_nil, or_false] at member
    have same : d.mem = m := by
      rcases member with rfl | rfl | rfl | rfl | rfl | rfl | rfl
      · rw [effect_clear] at ran; cases ran; rfl
      · rw [load64, effect_movRegMem] at ran; cases ran; rfl
      · rw [effect_clear] at ran; cases ran; rfl
      · cases ran; rfl
      · exact absurd rfl plain
      · cases ran; rfl
      · rw [effect_testRegReg] at ran; cases ran; rfl
    rw [same]
    exact .refl m

theorem MainStep.effect {Q : Word → Prop} {m m' : Memory} {n : Nat} {a a' : Main} (here : MainAt L Q m n a)
    (done : Q (doneCount L m)) (once : MainStep L m a m' a') :
    doneCount L m' = doneCount L m ∧ MainAt L Q m' n a' := by
  cases once with
  | work kept => exact ⟨kept.1, kept.2.trans here⟩
  | count once => exact CountAt.advance here once
  | counted =>
    cases here with
    | popped after => exact ⟨rfl, after⟩
  | join c => exact ⟨rfl, here, .start c⟩
  | test once =>
    obtain ⟨rfl, place⟩ := TestAt.advance here.2 here.1 done once
    exact ⟨rfl, here.1, place⟩
  | pass holds =>
    obtain ⟨spawns, place⟩ := here
    cases place with
    | compared had flags =>
      rw [flags, X64.holds_ae, decide_eq_true_iff] at holds
      exact ⟨rfl, spawns, _, had, holds⟩
  | wait => exact ⟨rfl, here.1, List.suffix_refl _⟩
  | waits once =>
    obtain ⟨kept, within⟩ := waits_keep here.2 once
    exact ⟨kept.1, kept.2.trans here.1, within⟩
  | retry => exact ⟨rfl, here.1, .start _⟩
  | giveUp => exact ⟨rfl, here.1⟩
  | next => exact ⟨rfl, here.1⟩

end Threads

end Aclm.Codegen
