import Aclm.Codegen.Arithmetic
import Aclm.Codegen.Frames

/-! Operations on locals. The value of the local waits in R11 while the operand is evaluated into R12; arithmetic in the
operand goes through both, and R12 is a register of the program. -/

set_option autoImplicit false

namespace Aclm.Codegen

open X64 (Word Reg Cpu Env Machine)
open X64.Memory (SameAbove WordAbove)
open Encoder

/-! ### The code -/

/-- What `_cpu_bin` appends for a local. -/
def localCalls (op : CpuBinOp) (value : Expr) (t : Tree) (off : Int) : List Call :=
  (if op = .set then t.calls .r11
    else [movRegMem .r11 .rbp off none 1] ++ t.calls .r12 ++ cpuBinCalls op value .r11 .r12) ++
    [movMemReg .rbp off .r11 none 1]

theorem cpuBin_local {g g' : CodeGenerator} {op : CpuBinOp} {dest : String} {off : Int}
    (isLocal : g.fnLocals.get? dest = some off) {value : Expr} (emission : cpuBin op dest value g = .ok () g') :
    ∃ t, resolveTree g value = .ok t ∧ g' = g.withScript (g.script ++ localCalls op value t off) := by
  have tree {dst : Reg} {calls : List Call} (evaluated : evalCalls g value dst = .ok calls) :
      ∃ t, resolveTree g value = .ok t ∧ calls = t.calls dst := by
    rw [evalCalls_eq] at evaluated
    cases resolved : resolveTree g value with
    | error e => rw [resolved] at evaluated; cases evaluated
    | ok t =>
      rw [resolved] at evaluated
      cases evaluated
      exact ⟨t, rfl, rfl⟩
  simp only [cpuBin, get_bind_ok, isLocal] at emission
  by_cases assigns : op = .set
  · simp only [if_pos assigns, eval_bind_ok, asm_ok] at emission
    obtain ⟨calls, evaluated, rfl⟩ := emission
    obtain ⟨t, resolved, rfl⟩ := tree evaluated
    exact ⟨t, resolved, by simp [localCalls, assigns]⟩
  · simp only [if_neg assigns, asm_bind_ok, eval_bind_ok, evalCalls_withScript, asm_ok] at emission
    obtain ⟨calls, evaluated, rfl⟩ := emission
    obtain ⟨t, resolved, rfl⟩ := tree evaluated
    exact ⟨t, resolved, by simp [localCalls, assigns]⟩

/-! ### What it should do -/

/-- The word of a frame at an offset from RBP. -/
def frameWord (c : Cpu) (off : Int) : Word := c.mem.load (c.reg .rbp + BitVec.ofInt 64 off) 8

/-- The offsets of the registers that a frame keeps for the caller. -/
def SAVED_SLOTS : List Int := [-32, -24, -16, -8, 0]

/-- The frame lies outside the `n` bytes just below the stack pointer. -/
structure InFrame (g : CodeGenerator) (n : Nat) (c : Cpu) : Prop where
  locals : ∀ name off, g.fnLocals.get? name = some off → WordAbove (c.reg .rsp) n (c.reg .rbp + BitVec.ofInt 64 off)
  saved : ∀ off ∈ SAVED_SLOTS, WordAbove (c.reg .rsp) n (c.reg .rbp + BitVec.ofInt 64 off)

/-- The local has the result, and no other local, no register saved in the frame and no register that a program can name
has changed. -/
structure LocalRight (g : CodeGenerator) (dest : String) (off : Int) (v : Word) (c d : Cpu) : Prop where
  value : frameWord d off = v
  locals : ∀ name o, g.fnLocals.get? name = some o → name ≠ dest → frameWord d o = frameWord c o
  saved : ∀ o ∈ SAVED_SLOTS, frameWord d o = frameWord c o
  regs : ∀ r, User r → d.reg r = c.reg r
  sp : d.reg .rsp = c.reg .rsp
  frame : d.reg .rbp = c.reg .rbp

section Conditions

variable (place : String → Word) (g : CodeGenerator) (dest : String) (off : Int) (op : CpuBinOp) (t : Tree) (c : Cpu)

/-- The value that the code of the operand gives it. -/
def brought : Word := (t.clobber none).1.value place c

/-- What is in R11 when the operation is made: the local's value, or the operand's once arithmetic has gone through. -/
def awaited : Word :=
  match t with
  | .leaf _ => frameWord c off
  | .node .. => brought place t c

/-- What is stored. -/
def outcome : Word :=
  if op = .set then brought place t c else op.apply c.flags.cf (awaited place off t c) (brought place t c)

/-- What R12 is left with. -/
def leftover : Word :=
  if op = .set then ((t.clobber none).2.getD (.leaf (.reg .r12))).value place c
  else if op.Divides then outcome place off op t c else brought place t c

/-- Another word of the frame lies where the local does, which takes a local without a positive size. -/
def Shared : Prop :=
  (∃ name o, name ≠ dest ∧ g.fnLocals.get? name = some o ∧ BitVec.ofInt 64 o = BitVec.ofInt 64 off) ∨
    ∃ o ∈ SAVED_SLOTS, BitVec.ofInt 64 o = BitVec.ofInt 64 off

/-- The registers that the code uses are not in its way: R11 gives the operation what the local's value would, and R12
is left with what it held. -/
structure LocalIntact : Prop where
  defined : op.Defined (awaited place off t c) (brought place t c)
  value : outcome place off op t c = op.apply c.flags.cf (frameWord c off) (t.value place c)
  r12 : leftover place off op t c = c.reg .r12
  alone : Shared g dest off → op.apply c.flags.cf (frameWord c off) (t.value place c) = frameWord c off

end Conditions

/-! ### Where the locals lie -/

theorem placeLocals_aligned {locals : List (String × Int)} {placed placed' : Dict Int × Int} (start : placed.2 % 8 = 0)
    (aligned : ∀ name o, placed.1.get? name = some o → o % 8 = 0) (done : placeLocals locals placed = placed') :
    ∀ name o, placed'.1.get? name = some o → o % 8 = 0 := by
  induction locals generalizing placed with
  | nil =>
    cases done
    exact aligned
  | cons l rest ih =>
    refine @ih (placed.1.set l.1 (-(32 + (placed.2 + roundUp 8 l.2))), placed.2 + roundUp 8 l.2) ?_ (fun name o found => ?_)
      done
    · simp only [roundUp]
      omega
    · simp only [Dict.get?_set] at found
      split at found
      · cases found
        simp only [roundUp]
        omega
      · exact aligned name o found

/-- Locals of positive sizes lie at different offsets. -/
theorem placeLocals_distinct {locals : List (String × Int)} (positive : ∀ l ∈ locals, 0 < l.2)
    {placed placed' : Dict Int × Int} (inside : ∀ name o, placed.1.get? name = some o → -(32 + placed.2) ≤ o)
    (distinct : ∀ name name' o, placed.1.get? name = some o → placed.1.get? name' = some o → name = name')
    (done : placeLocals locals placed = placed') :
    ∀ name name' o, placed'.1.get? name = some o → placed'.1.get? name' = some o → name = name' := by
  induction locals generalizing placed with
  | nil =>
    cases done
    exact distinct
  | cons l rest ih =>
    have size : 0 < roundUp 8 l.2 := by
      have := positive l List.mem_cons_self
      simp only [roundUp]
      omega
    refine @ih (fun t member => positive t (List.mem_cons_of_mem _ member))
      (placed.1.set l.1 (-(32 + (placed.2 + roundUp 8 l.2))), placed.2 + roundUp 8 l.2) (fun name o found => ?_)
      (fun name name' o found found' => ?_) done
    · simp only [Dict.get?_set] at found ⊢
      split at found
      · cases found
        omega
      · have := inside name o found
        omega
    · simp only [Dict.get?_set] at found found'
      split at found <;> split at found'
      · next here there => exact here.symm.trans there
      · cases found
        have := inside name' _ found'
        omega
      · cases found'
        have := inside name _ found
        omega
      · exact distinct name name' o found found'

/-- In a function whose locals have positive sizes none of them shares its place. -/
theorem not_shared {g : CodeGenerator} {locals : List (String × Int)} (placed : g.fnLocals = (placeLocals locals ([], 0)).1)
    (positive : ∀ l ∈ locals, 0 < l.2) (small : (placeLocals locals ([], 0)).2 < 2 ^ 31) {dest : String} {off : Int}
    (isLocal : g.fnLocals.get? dest = some off) : ¬Shared g dest off := by
  have inside := @locals_inside locals positive ([], 0) _ (by simp) (by intro name o found; cases found) rfl
  have distinct := @placeLocals_distinct locals positive ([], 0) _ (by intro name o found; cases found)
    (by intro name name' o found; cases found) rfl
  rw [placed] at isLocal
  have here := inside.2 dest off isLocal
  have same {o : Int} (range : -(32 + (placeLocals locals ([], 0)).2) ≤ o ∧ o ≤ 0)
      (equal : BitVec.ofInt 64 o = BitVec.ofInt 64 off) : o = off := by
    have words := congrArg BitVec.toInt equal
    simp only [BitVec.toInt_ofInt] at words
    rwa [Int.bmod_eq_of_le (by omega) (by omega), Int.bmod_eq_of_le (by omega) (by omega)] at words
  rintro (⟨name, o, other, found, equal⟩ | ⟨o, saved, equal⟩)
  · rw [placed] at found
    have there := inside.2 name o found
    have := same (by omega) equal
    subst this
    exact other (distinct name dest o found isLocal)
  · have range : -32 ≤ o ∧ o ≤ 0 := by
      simp only [SAVED_SLOTS, List.mem_cons, List.not_mem_nil, or_false] at saved
      omega
    have := same (by omega) equal
    omega

/-! ### Storing the result -/

/-- The result is stored over the local, R12 is left with a word, and nothing else but R11, the flags and the `n` bytes
below the stack has changed. -/
structure LocalStored (off : Int) (v w : Word) (n : Nat) (c d : Cpu) : Prop where
  mem : ∃ m, SameAbove (c.reg .rsp) n c.mem m ∧ d.mem = m.store (c.reg .rbp + BitVec.ofInt 64 off) 8 v
  r12 : d.reg .r12 = w
  regs : ∀ r, r ≠ .r11 → r ≠ .r12 → d.reg r = c.reg r

theorem LocalStored.word {off : Int} {v w : Word} {n : Nat} {c d : Cpu} (stored : LocalStored off v w n c d) :
    frameWord d off = v := by
  obtain ⟨m, -, mem⟩ := stored.mem
  rw [frameWord, mem, stored.regs .rbp (by decide) (by decide), X64.Memory.load_store_word]

/-- Another word of the frame. -/
theorem LocalStored.other {off o : Int} {v w : Word} {n : Nat} {c d : Cpu} (stored : LocalStored off v w n c d)
    (above : WordAbove (c.reg .rsp) n (c.reg .rbp + BitVec.ofInt 64 o)) (aligned : off % 8 = 0) (aligned' : o % 8 = 0)
    (apart : BitVec.ofInt 64 o ≠ BitVec.ofInt 64 off) : frameWord d o = frameWord c o := by
  obtain ⟨m, kept, mem⟩ := stored.mem
  have separate : X64.Memory.Separate (c.reg .rbp + BitVec.ofInt 64 off) 8 (c.reg .rbp + BitVec.ofInt 64 o) 8 := by
    have low (k : Int) (zero : k % 8 = 0) : (BitVec.ofInt 64 k).toNat % 8 = 0 := by
      rw [BitVec.toNat_ofInt]
      omega
    have here := low off aligned
    have there := low o aligned'
    have differ : (BitVec.ofInt 64 o).toNat ≠ (BitVec.ofInt 64 off).toNat := fun same => apart (BitVec.eq_of_toNat_eq same)
    generalize BitVec.ofInt 64 off = a at here differ ⊢
    generalize BitVec.ofInt 64 o = b at there differ ⊢
    constructor <;> bv_omega
  rw [frameWord, mem, stored.regs .rbp (by decide) (by decide), X64.Memory.load_store_apart separate, kept.load above]
  rfl

theorem LocalStored.right_iff {g : CodeGenerator} {dest : String} {off : Int} {u v w : Word} {n : Nat} {c d : Cpu}
    (stored : LocalStored off v w n c d) (frame : InFrame g n c) (isLocal : g.fnLocals.get? dest = some off)
    (aligned : ∀ name o, g.fnLocals.get? name = some o → o % 8 = 0) :
    LocalRight g dest off u c d ↔ v = u ∧ w = c.reg .r12 ∧ (Shared g dest off → u = frameWord c off) := by
  have word := stored.word
  have here := aligned dest off isLocal
  have savedAligned : ∀ o ∈ SAVED_SLOTS, o % 8 = 0 := by decide
  have coincide {o : Int} (same : BitVec.ofInt 64 o = BitVec.ofInt 64 off) (e : Cpu) : frameWord e o = frameWord e off := by
    rw [frameWord, frameWord, same]
  constructor
  · intro right
    refine ⟨word.symm.trans right.value, stored.r12.symm.trans (right.regs .r12 (by decide)), fun shared => ?_⟩
    rw [← right.value]
    rcases shared with ⟨name, o, other, found, same⟩ | ⟨o, saved, same⟩
    · rw [← coincide same d, ← coincide same c]
      exact right.locals name o found other
    · rw [← coincide same d, ← coincide same c]
      exact right.saved o saved
  · rintro ⟨rfl, rfl, alone⟩
    have kept {o : Int} (above : WordAbove (c.reg .rsp) n (c.reg .rbp + BitVec.ofInt 64 o)) (aligned' : o % 8 = 0)
        (sharing : BitVec.ofInt 64 o = BitVec.ofInt 64 off → Shared g dest off) : frameWord d o = frameWord c o := by
      by_cases same : BitVec.ofInt 64 o = BitVec.ofInt 64 off
      · rw [coincide same d, coincide same c, word, alone (sharing same)]
      · exact stored.other above here aligned' same
    refine ⟨word, fun name o found other => ?_, fun o saved => ?_, fun r user => ?_, ?_, ?_⟩
    · exact kept (frame.locals name o found) (aligned name o found) fun same => .inl ⟨name, o, other, found, same⟩
    · exact kept (frame.saved o saved) (savedAligned o saved) fun same => .inr ⟨o, saved, same⟩
    · by_cases isR12 : r = .r12
      · rw [isR12, stored.r12]
      · exact stored.regs r ((user_iff r).mp user).2.2.1 isR12
    · exact stored.regs .rsp (by decide) (by decide)
    · exact stored.regs .rbp (by decide) (by decide)

/-! ### Execution -/

theorem operand_slot {g : CodeGenerator} {node : Expr} {off : Int} (found : g.operand node = .ok (.slot off)) :
    ∃ name, g.fnLocals.get? name = some off := by
  cases node with
  | reg name =>
    cases result : resolve name with
    | error e => simp [CodeGenerator.operand, result, Except.map] at found
    | ok s => simp [CodeGenerator.operand, result, Except.map] at found
  | ident name =>
    simp only [CodeGenerator.operand, CodeGenerator.identOperand] at found
    split at found
    · cases found
    split at found
    · next entry =>
      cases found
      exact ⟨name, entry⟩
    · repeat' split at found
      all_goals cases found
  | structFieldRef struct field =>
    simp only [CodeGenerator.operand, CodeGenerator.fieldOperand] at found
    repeat' split at found
    all_goals cases found
  | _ => cases found

theorem resolveTree_framed {g : CodeGenerator} {n : Nat} {c : Cpu} (frame : InFrame g n c) {node : Expr} {t : Tree}
    (ok : resolveTree g node = .ok t) : t.Framed n c := by
  have atLeaf {node : Expr} {t : Tree} (ok : (g.operand node).map Tree.leaf = .ok t) : t.Framed n c := by
    cases found : g.operand node with
    | error e => rw [found] at ok; cases ok
    | ok o =>
      rw [found] at ok
      cases ok
      cases o with
      | slot off =>
        obtain ⟨name, entry⟩ := operand_slot found
        exact frame.locals name off entry
      | _ => trivial
  induction node generalizing t with
  | binExpr op left right ihl ihr =>
    obtain ⟨l, hl, rest⟩ := bind_eq_ok.mp ok
    obtain ⟨r, hr, rest⟩ := bind_eq_ok.mp rest
    cases rest
    exact ⟨ihl hl, ihr hr⟩
  | _ => exact atLeaf ok

section Execution

variable {env : Env} {place : String → Word}

/-- Arithmetic goes through R11 last. -/
theorem node_r11 {op : ExprOp} {left right : Tree} {dst : Reg} {c d : Cpu}
    (ran : effects env place ((Tree.node op left right).calls dst) c = some d) : d.reg .r11 = d.reg dst := by
  rw [Tree.calls, effects_append] at ran
  obtain ⟨k, -, copied⟩ := Option.bind_eq_some_iff.mp ran
  rw [copyTo_effects] at copied
  cases copied
  by_cases same : dst = .r11
  · rw [same]
  · simp

/-- The local's value waits while the operand is evaluated. -/
theorem awaited_runs {t : Tree} {off : Int} {n : Nat} {c : Cpu} (readable : t.Readable n c) (room : 8 * t.depth ≤ n)
    (fits : n + 8 ≤ 2 ^ 64) :
    ∃ k, effects env place ([movRegMem .r11 .rbp off none 1] ++ t.calls .r12) c = some k ∧
      k.reg .r11 = awaited place off t c ∧ k.reg .r12 = brought place t c ∧
      (∀ r, r ≠ .r11 → r ≠ .r12 → k.reg r = c.reg r) ∧ SameAbove (c.reg .rsp) (8 * t.depth) c.mem k.mem ∧
      ((∃ o, t = .leaf o) → k.flags = c.flags) := by
  have start : Evaluating place n c none (c.set .r11 (frameWord c off)) :=
    ⟨fun r notR11 _ _ => by simp [notR11], by simp [Operand.value, Tree.value], .refl _ _ _⟩
  have loaded : effects env place [movRegMem .r11 .rbp off none 1] c = some (c.set .r11 (frameWord c off)) := by
    simp [frameWord]
  obtain ⟨k, ran, done⟩ := @Tree.runs env place t n 0 c _ none .r12 start readable (by simp) (by simpa using room) fits
    (by decide)
  refine ⟨k, by rw [effects_append, loaded, Option.bind_some, ran], ?_, done.value, fun r notR11 notR12 => ?_, ?_, ?_⟩
  · cases t with
    | leaf o =>
      rw [Tree.calls, mov_effects] at ran
      cases ran
      simp [awaited]
    | node op left right => rw [node_r11 ran, done.value, awaited, brought]
  · simpa [notR11] using done.regs r notR12 notR11 notR12
  · simpa using done.mem
  · rintro ⟨o, rfl⟩
    rw [Tree.calls, mov_effects] at ran
    cases ran
    simp

theorem set_stores {t : Tree} {value : Expr} {off : Int} {n : Nat} {c : Cpu} (readable : t.Readable n c)
    (room : 8 * t.depth ≤ n) (fits : n + 8 ≤ 2 ^ 64) :
    ∃ d, effects env place (localCalls .set value t off) c = some d ∧
      LocalStored off (brought place t c) (leftover place off .set t c) n c d := by
  obtain ⟨k, ran, done⟩ := @Tree.runs env place t n 0 c c none .r11 (.start n c) readable (by simp) (by simpa using room)
    fits (by decide)
  refine ⟨k.setMem (k.mem.store (k.reg .rbp + BitVec.ofInt 64 off) 8 (k.reg .r11)), ?_, ⟨k.mem, ?_, ?_⟩, ?_, ?_⟩
  · rw [localCalls, if_pos rfl, effects_append, ran]
    simp
  · exact done.mem.mono room
  · rw [X64.Cpu.setMem_mem, done.regs .rbp (by decide) (by decide) (by decide), done.value, brought]
  · rw [X64.Cpu.setMem_reg, done.late (by decide), leftover, if_pos rfl]
  · exact fun r notR11 notR12 => done.regs r notR11 notR11 notR12

/-- An operation that does not trap on what R11 and R12 hold. -/
theorem operation_stores {op : CpuBinOp} (arithmetic : op ≠ .set) {t : Tree} (plain : (∃ o, t = .leaf o) ∨ op ≠ .rcl ∧ op ≠ .rcr)
    {value : Expr} {off : Int} {n : Nat} {c : Cpu} (literal : ∀ m, value = .number m → brought place t c = BitVec.ofInt 64 m)
    (readable : t.Readable n c) (room : 8 * t.depth ≤ n) (two : 16 ≤ n) (fits : n + 8 ≤ 2 ^ 64)
    (defined : op.Defined (awaited place off t c) (brought place t c)) :
    ∃ d, effects env place (localCalls op value t off) c = some d ∧
      LocalStored off (outcome place off op t c) (leftover place off op t c) n c d := by
  obtain ⟨k, ran, r11, r12, regs, mem, flags⟩ := @awaited_runs env place t off n c readable room fits
  rw [← r11, ← r12] at defined
  obtain ⟨d, computed, done⟩ := @cpuBinCalls_effects env place op arithmetic value .r11 .r12 (by decide) (by decide) (by decide) k
    (fun m same => r12.trans (literal m same)) defined
  have result : op.apply k.flags.cf (k.reg .r11) (k.reg .r12) = outcome place off op t c := by
    rw [outcome, if_neg arithmetic, r11, r12]
    rcases plain with leaf | plain
    · rw [flags leaf]
    · rw [CpuBinOp.apply_carry plain]
  have kept (r : Reg) (notR11 : r ≠ .r11) (notR12 : r ≠ .r12) : d.reg r = c.reg r := by
    rw [done.regs r notR11 notR12, regs r notR11 notR12]
  refine ⟨d.setMem (d.mem.store (d.reg .rbp + BitVec.ofInt 64 off) 8 (d.reg .r11)), ?_, ⟨d.mem, ?_, ?_⟩, ?_, kept⟩
  · rw [localCalls, if_neg arithmetic, effects_append, effects_append, ran, Option.bind_some, computed]
    simp
  · have later := done.mem
    rw [regs .rsp (by decide) (by decide)] at later
    exact (mem.mono room).trans (later.mono two)
  · rw [X64.Cpu.setMem_mem, kept .rbp (by decide) (by decide), done.value, result]
  · rw [X64.Cpu.setMem_reg, done.scratch, result, leftover, if_neg arithmetic, r12]

/-- Code that runs to its end has not trapped. -/
theorem operation_defined {op : CpuBinOp} {t : Tree} {value : Expr} {off : Int} {n : Nat} {c d : Cpu}
    (readable : t.Readable n c) (room : 8 * t.depth ≤ n) (fits : n + 8 ≤ 2 ^ 64)
    (ran : effects env place (localCalls op value t off) c = some d) :
    op.Defined (awaited place off t c) (brought place t c) := by
  intro divides
  have arithmetic : op ≠ .set := by
    rintro rfl
    rcases divides with same | same <;> cases same
  obtain ⟨k, front, r11, r12, -⟩ := @awaited_runs env place t off n c readable room fits
  rw [localCalls, if_neg arithmetic, effects_append, effects_append, front, Option.bind_some,
    cpuBinCalls_div divides] at ran
  obtain ⟨e, divided, -⟩ := Option.bind_eq_some_iff.mp ran
  have defined := divCalls_defined divides (by decide) (by decide) divided
  rw [r11, r12] at defined
  exact defined divides

end Execution

theorem resolveTree_leaf {g : CodeGenerator} {node : Expr} (leaf : node.IsLeaf) {t : Tree} (ok : resolveTree g node = .ok t) :
    ∃ o, t = .leaf o := by
  have operand {x : Except PyErr Operand} (ok : x.map Tree.leaf = .ok t) : ∃ o, t = .leaf o := by
    cases x with
    | error e => cases ok
    | ok o => exact ⟨o, (Except.ok.inj ok).symm⟩
  cases node with
  | binExpr => exact leaf.elim
  | _ => exact operand ok

/-- The bytes below the stack pointer that an operation on a local uses. -/
def Tree.window (t : Tree) : Nat := max (8 * t.depth) 16

/-- The code of an operation on a local is right exactly where the registers that it uses are not in its way. The
rotations through the carry read a flag that arithmetic in the operand sets. -/
theorem local_operation_iff {g g' : CodeGenerator} {args : List String} {locals : List (String × Int)}
    (bound : g.fnArgs = bindArgs args) (placed : g.fnLocals = (placeLocals locals ([], 0)).1) {op : CpuBinOp}
    {dest : String} {off : Int} (isLocal : g.fnLocals.get? dest = some off) {value : Expr}
    (carry : op = .rcl ∨ op = .rcr → value.IsLeaf) (emission : cpuBin op dest value g = .ok () g') :
    ∃ t, resolveTree g value = .ok t ∧ g' = g.withScript (g.script ++ localCalls op value t off) ∧
      ∀ (L : Listing) (M : Machine), L.Loaded M → ∀ i, L.At i (localCalls op value t off) →
        ∀ c : Cpu, InFrame g t.window c → op.Defined (frameWord c off) (t.value L.address c) →
          ((∃ d, effects L.env L.address (localCalls op value t off) c = some d ∧
              M.Steps ⟨L.offset i, c⟩ ⟨L.offset (i + (localCalls op value t off).length), d⟩ ∧
              LocalRight g dest off (op.apply c.flags.cf (frameWord c off) (t.value L.address c)) c d) ↔
            LocalIntact L.address g dest off op t c) := by
  obtain ⟨t, resolved, rfl⟩ := cpuBin_local isLocal emission
  refine ⟨t, resolved, rfl, fun L M loaded i here c frame _ => ?_⟩
  have readable : t.Readable t.window c := resolveTree_readable bound resolved (resolveTree_framed frame resolved)
  have fits : t.window + 8 ≤ 2 ^ 64 := by
    have above := frame.locals dest off isLocal
    simp only [WordAbove] at above
    omega
  have aligned := @placeLocals_aligned locals ([], 0) _ (by decide) (by intro name o found; cases found) rfl
  rw [← placed] at aligned
  have stores (defined : op.Defined (awaited L.address off t c) (brought L.address t c)) :
      ∃ d, effects L.env L.address (localCalls op value t off) c = some d ∧
        LocalStored off (outcome L.address off op t c) (leftover L.address off op t c) t.window c d := by
    by_cases assigns : op = .set
    · subst assigns
      have same : outcome L.address off .set t c = brought L.address t c := if_pos rfl
      rw [same]
      exact set_stores readable (le_max_left ..) fits
    -- A tree ends in instructions that change the carry, which only the rotations through it read.
    · have plain : (∃ o, t = .leaf o) ∨ op ≠ .rcl ∧ op ≠ .rcr := by
        by_cases rotates : op = .rcl ∨ op = .rcr
        · exact .inl (resolveTree_leaf (carry rotates) resolved)
        · exact .inr (not_or.mp rotates)
      refine operation_stores assigns plain (fun m same => ?_) readable (le_max_left ..) (le_max_right ..) fits defined
      subst same
      cases resolved
      rfl
  constructor
  · rintro ⟨d, ran, -, right⟩
    have defined := operation_defined readable (le_max_left ..) fits ran
    obtain ⟨e, again, stored⟩ := stores defined
    -- The calls are deterministic, so the run that is given is the one that stores the outcome.
    obtain rfl := Option.some.inj (ran.symm.trans again)
    obtain ⟨result, r12, alone⟩ := (stored.right_iff frame isLocal aligned).mp right
    exact ⟨defined, result, r12, alone⟩
  · intro intact
    obtain ⟨d, ran, stored⟩ := stores intact.defined
    exact ⟨d, ran, loaded.steps (Listing.steps_of_effects here ran),
      (stored.right_iff frame isLocal aligned).mpr ⟨intact.value, intact.r12, intact.alone⟩⟩

/-- With an operand that is no arithmetic R11 is never in the way: R12 decides, except for `set`. -/
theorem localIntact_leaf {place : String → Word} {g : CodeGenerator} {dest : String} {off : Int} {op : CpuBinOp} {o : Operand}
    {c : Cpu} (notShared : ¬Shared g dest off) (defined : op.Defined (frameWord c off) (o.value place c)) :
    LocalIntact place g dest off op (.leaf o) c ↔ op = .set ∨
      (if op.Divides then op.apply c.flags.cf (frameWord c off) (o.value place c) else o.value place c) = c.reg .r12 := by
  have same : brought place (.leaf o) c = o.value place c := by
    unfold brought Tree.clobber
    by_cases isR12 : o = .reg .r12
    · simp [isR12, Tree.value]
    · simp [isR12, Tree.value]
  have result : outcome place off op (.leaf o) c = op.apply c.flags.cf (frameWord c off) (o.value place c) := by
    unfold outcome
    split
    · next assigns => rw [assigns, same]; rfl
    · rw [same, awaited]
  by_cases assigns : op = .set
  · refine iff_of_true ⟨by rwa [same, awaited], result, ?_, fun shared => absurd shared notShared⟩ (.inl assigns)
    rw [leftover, if_pos assigns]
    rfl
  · have last : leftover place off op (.leaf o) c =
        if op.Divides then op.apply c.flags.cf (frameWord c off) (o.value place c) else o.value place c := by
      rw [leftover, if_neg assigns, result, same]
    rw [← last]
    constructor
    · exact fun intact => .inr intact.r12
    · intro kept
      exact ⟨by rwa [same, awaited], result, kept.resolve_left assigns, fun shared => absurd shared notShared⟩

/-- A function with a local of eight bytes. -/
def withLocal : CodeGenerator := { CodeGenerator.new false with fnLocals := [("x", -40)] }

/-- Its frame, with 64 in the registers and zeros in memory. -/
def framed : Cpu := (Cpu.filled 64).set .rsp 0

theorem framed_inFrame {n : Nat} (small : n ≤ 1000) : InFrame withLocal n framed := by
  constructor
  · intro name off found
    rw [withLocal, Dict.get?] at found
    split at found
    · cases found
      change (64 + BitVec.ofInt 64 (-40) - 0 : Word).toNat + 8 + n ≤ 2 ^ 64
      have place : (64 + BitVec.ofInt 64 (-40) - 0 : Word).toNat = 24 := by decide
      omega
    · cases found
  · have places : ∀ off ∈ SAVED_SLOTS, (64 + BitVec.ofInt 64 off - 0 : Word).toNat ≤ 64 := by decide
    intro off saved
    have := places off saved
    change (64 + BitVec.ofInt 64 off - 0 : Word).toNat + 8 + n ≤ 2 ^ 64
    omega

/-- `cpu:add x = reg10`: R12 is left with what it held. -/
theorem local_operation_iff_add : ∃ (L : Listing) (M : Machine) (n : Nat) (d : Cpu), L.Loaded M ∧
    M.Steps ⟨0, framed⟩ ⟨L.offset n, d⟩ ∧ frameWord d (-40) = 64 := by
  have isLocal : withLocal.fnLocals.get? "x" = some (-40) := by decide
  have placed : withLocal.fnLocals = (placeLocals [("x", 8)] ([], 0)).1 := by decide
  obtain ⟨t, resolved, -, runs⟩ := @local_operation_iff withLocal _ [] [("x", 8)] rfl placed .add "x" (-40) isLocal
    (.reg "reg10") (by simp) (by rw [cpuBin, get_bind_ok, isLocal]; rfl)
  obtain rfl : Tree.leaf (.reg .r12) = t :=
    Except.ok.inj ((by decide : resolveTree withLocal (.reg "reg10") = _).symm.trans resolved)
  obtain ⟨L, M, loaded, calls, -, -⟩ := Listing.exists_loaded (localCalls .add (.reg "reg10") (.leaf (.reg .r12)) (-40)) []
    .silent (by decide)
  have defined : CpuBinOp.add.Defined (frameWord framed (-40)) ((Operand.reg .r12).value L.address framed) := by
    rintro (same | same) <;> cases same
  have intact : LocalIntact L.address withLocal "x" (-40) .add (.leaf (.reg .r12)) framed :=
    (localIntact_leaf (not_shared placed (by decide) (by decide) isLocal) defined).mpr (.inr rfl)
  obtain ⟨d, -, steps, right⟩ := (runs L M loaded 0 (calls ▸ List.prefix_refl _) framed (framed_inFrame (by decide))
    defined).mpr intact
  have sum : CpuBinOp.add.apply false (frameWord framed (-40)) 64 = 64 := by decide
  exact ⟨L, M, _, d, loaded, steps, right.value.trans sum⟩

/-- `cpu:sub x = 1 + 2` takes 3 from 3. -/
theorem local_operation_wrong : ¬∀ (g g' : CodeGenerator) (args : List String) (locals : List (String × Int)) (op : CpuBinOp)
    (dest : String) (off : Int) (value : Expr) (t : Tree), g.fnArgs = bindArgs args →
    g.fnLocals = (placeLocals locals ([], 0)).1 → g.fnLocals.get? dest = some off → cpuBin op dest value g = .ok () g' →
    resolveTree g value = .ok t → ∀ env place (c d : Cpu), InFrame g t.window c →
      op.Defined (frameWord c off) (t.value place c) → effects env place (localCalls op value t off) c = some d →
      LocalRight g dest off (op.apply c.flags.cf (frameWord c off) (t.value place c)) c d := by
  intro right
  let node : Expr := .binExpr .add (.number 1) (.number 2)
  let t : Tree := .node .add (.leaf (.imm 1)) (.leaf (.imm 2))
  have isLocal : withLocal.fnLocals.get? "x" = some (-40) := by decide
  have placed : withLocal.fnLocals = (placeLocals [("x", 8)] ([], 0)).1 := by decide
  have whole (a b : Word) : CpuBinOp.sub.Defined a b := by
    rintro (same | same) <;> cases same
  obtain ⟨d, ran, stored⟩ := @operation_stores .silent (fun _ => 0) .sub (by decide) t (.inr (by decide)) node (-40) t.window
    framed (fun m same => by simp [node] at same) ⟨trivial, trivial⟩ (by decide) (by decide) (by decide) (whole _ _)
  have correct := right withLocal _ [] [("x", 8)] .sub "x" (-40) node t rfl placed isLocal
    (by rw [cpuBin, get_bind_ok, isLocal]; rfl) rfl _ _ framed d (framed_inFrame (by decide)) (whole _ _) ran
  have wrong := stored.word.symm.trans correct.value
  revert wrong
  decide

end Aclm.Codegen
