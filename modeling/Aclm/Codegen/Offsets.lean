import Aclm.Codegen.Evaluation

/-! Offsets: the compiler adds up integers and struct fields in unbounded arithmetic, the code it
emits for the same tree in words. -/

set_option autoImplicit false

namespace Aclm

open X64 (Word Reg Cpu Env Machine)
open Encoder Codegen

/-- Integer literals and fields of defined structs, under the operators. -/
def CodeGenerator.Constant (g : CodeGenerator) : Expr → Prop
  | .number _ => True
  | .structFieldRef struct field => ∃ s off, g.structs.get? struct = some s ∧ s.fields.get? field = some off
  | .binExpr _ left right => g.Constant left ∧ g.Constant right
  | _ => False

/-- The operator on integers. -/
def ExprOp.unbounded : ExprOp → Int → Int → Int
  | .add, a, b => a + b
  | .sub, a, b => a - b
  | .mul, a, b => a * b

theorem ExprOp.apply_ofInt (op : ExprOp) (a b : Int) :
    op.apply (BitVec.ofInt 64 a) (BitVec.ofInt 64 b) = BitVec.ofInt 64 (unbounded op a b) := by
  cases op with
  | add => exact (BitVec.ofInt_add a b).symm
  | sub =>
    have sum := BitVec.ofInt_add (n := 64) (a - b) b
    rw [sub_add_cancel] at sum
    simp [ExprOp.apply, unbounded, sum]
  | mul => exact (BitVec.ofInt_mul a b).symm

namespace Codegen

/-- No leaf reads the state. -/
def Tree.Fixed : Tree → Prop
  | leaf o => ∃ v, o = .imm v
  | node _ left right => left.Fixed ∧ right.Fixed

namespace Tree.Fixed

variable {t : Tree} (fixed : t.Fixed)
include fixed

theorem readable (n : Nat) (c : Cpu) : t.Readable n c := by
  induction t with
  | leaf o =>
    obtain ⟨v, rfl⟩ := fixed
    trivial
  | node op left right ihl ihr => exact ⟨ihl fixed.1, ihr fixed.2⟩

theorem clobber (late : Option Tree) : (t.clobber late).1 = t := by
  induction t generalizing late with
  | leaf o =>
    obtain ⟨v, rfl⟩ := fixed
    rfl
  | node op left right ihl ihr => simp only [Tree.clobber, ihl fixed.1, ihr fixed.2]

end Tree.Fixed

/-- The two evaluators go through the tree together. -/
theorem resolveTree_constant {g : CodeGenerator} {node : Expr} (constant : g.Constant node) :
    ∃ off t, g.resolveOffset node = .ok off ∧ resolveTree g node = .ok t ∧ t.Fixed ∧
      ∀ place c, t.value place c = BitVec.ofInt 64 off := by
  induction node with
  | number v => exact ⟨v, .leaf (.imm v), rfl, rfl, ⟨v, rfl⟩, fun _ _ => rfl⟩
  | structFieldRef struct field =>
    obtain ⟨s, off, known, at'⟩ := constant
    refine ⟨off, .leaf (.imm off), ?_, ?_, ⟨off, rfl⟩, fun _ _ => rfl⟩
    · simp [CodeGenerator.resolveOffset, known, at']
    · simp [resolveTree, CodeGenerator.operand, CodeGenerator.fieldOperand, known, at', Except.map]
  | binExpr op left right ihl ihr =>
    obtain ⟨a, l, offl, resolvedl, fixedl, valuel⟩ := ihl constant.1
    obtain ⟨b, r, offr, resolvedr, fixedr, valuer⟩ := ihr constant.2
    refine ⟨ExprOp.unbounded op a b, .node op l r, ?_, ?_, ⟨fixedl, fixedr⟩, fun place c => ?_⟩
    · cases op <;> simp [CodeGenerator.resolveOffset, offl, offr, bind, Except.bind, ExprOp.unbounded]
    · simp [resolveTree, resolvedl, resolvedr, bind, Except.bind]
    · rw [Tree.value, valuel, valuer, ExprOp.apply_ofInt]
  | _ => exact constant.elim

/-! ### The code -/

section Size

variable (deterministic : Bool)

theorem movRegImm64_size (dst : Reg) (v : Int) : 5 ≤ (Call.movRegImm64 dst v).size deterministic := by
  simp only [Call.size, Call.assembled, Call.encode, Call.fixup, movRegImm64Bytes]
  split_ifs <;> simp [u32, u64]

/-- A word on the stack costs more than eight bytes of code. -/
theorem Tree.Fixed.depth_le {t : Tree} (fixed : t.Fixed) (dst : Reg) :
    8 * t.depth + 5 ≤ size deterministic (t.calls dst) := by
  induction t generalizing dst with
  | leaf o =>
    obtain ⟨v, rfl⟩ := fixed
    simpa [Tree.calls, Operand.mov, Tree.depth, size] using movRegImm64_size deterministic dst v
  | node op left right ihl ihr =>
    have first := ihl fixed.1 .r11
    have second := ihr fixed.2 .r12
    have push : (Call.pushReg .r11).size deterministic = 2 := rfl
    have pop : (Call.popReg .r11).size deterministic = 2 := rfl
    have combined : 3 ≤ (combine op).size deterministic := by
      cases op <;> cases deterministic <;> decide
    simp only [Tree.calls, Tree.depth, size, List.map_append, List.map_cons, List.map_nil, List.sum_append, List.sum_cons,
      List.sum_nil] at first second ⊢
    omega

end Size

/-- The code of a tree without reads runs from any state; the destination may be the stack pointer
itself, which only the last instruction writes. -/
theorem Tree.Fixed.runs {t : Tree} (fixed : t.Fixed) (room : 8 * t.depth + 8 ≤ 2 ^ 64) {env : Env} {place : String → Word}
    (dst : Reg) (c : Cpu) : ∃ d, effects env place (t.calls dst) c = some d ∧ d.reg dst = t.value place c := by
  cases t with
  | leaf o =>
    refine ⟨_, mov_effects o dst c, ?_⟩
    simp [Tree.value]
  | node op left right =>
    obtain ⟨d, ran, done⟩ := @Tree.runs env place _ (8 * (Tree.node op left right).depth) 0 _ _ none .r11 (.start _ c)
      (fixed.readable _ c) (by simp) (by simp) room (by decide)
    have last : (Tree.node op left right).calls dst = (Tree.node op left right).calls .r11 ++ copyTo dst .r11 := by
      simp [Tree.calls, copyTo]
    refine ⟨d.set dst (d.reg .r11), ?_, ?_⟩
    · rw [last, effects_append, ran, Option.bind_some, copyTo_effects]
    · rw [X64.Cpu.set_reg, if_pos rfl, done.value, fixed.clobber]

/-- The code of the tree, wherever it stands in a text that fits the address space, ends with the
compiler's number in the destination. -/
theorem offset_agrees {g : CodeGenerator} {node : Expr} (constant : g.Constant node) (dst : Reg) :
    ∃ off calls, g.resolveOffset node = .ok off ∧ eval node dst g = .ok () (g.withScript (g.script ++ calls)) ∧
      ∀ (L : Listing) (M : Machine), L.Loaded M → L.offset L.calls.length ≤ 2 ^ 64 → ∀ i, L.At i calls → ∀ c : Cpu,
        ∃ d, M.Completes (L.offset i) (L.offset (i + calls.length)) c d ∧ d.reg dst = BitVec.ofInt 64 off := by
  obtain ⟨off, t, computed, resolved, fixed, value⟩ := resolveTree_constant constant
  refine ⟨off, t.calls dst, computed, eval_ok.mpr ⟨_, by rw [evalCalls_eq, resolved]; rfl, rfl⟩, ?_⟩
  intro L M loaded fits i here c
  have room : 8 * t.depth + 8 ≤ 2 ^ 64 := by
    have within := (((here.sublist.trans (List.drop_sublist i _)).map (Call.size L.deterministic)).sum_le_sum fun _ _ =>
      Nat.zero_le _)
    have code := fixed.depth_le L.deterministic dst
    simp only [Listing.offset, size, List.take_length] at fits code
    omega
  obtain ⟨d, ran, left⟩ := fixed.runs room dst c
  rw [value] at left
  exact ⟨d, loaded.inside (Listing.Inside.straight here ran (Nat.le_refl _) (Nat.le_refl _)), left⟩

/-- `P.y * (2 - 5)` with `y` at 8. -/
theorem offset_agrees_field :
    ∃ (L : Listing) (M : Machine) (d : Cpu), L.Loaded M ∧
      M.Completes 0 (L.offset L.calls.length) (Cpu.filled 5) d ∧ d.reg .rbx = BitVec.ofInt 64 (-24) := by
  let g : CodeGenerator := { CodeGenerator.new false with structs := [("P", ⟨[("x", 0), ("y", 8)], 16⟩)] }
  let node : Expr := .binExpr .mul (.structFieldRef "P" "y") (.binExpr .sub (.number 2) (.number 5))
  have constant : g.Constant node := ⟨⟨_, 8, rfl, rfl⟩, trivial, trivial⟩
  obtain ⟨off, calls, computed, emitted, runs⟩ := offset_agrees constant .rbx
  obtain rfl : -24 = off := Except.ok.inj computed
  obtain ⟨calls', appended, same⟩ := eval_ok.mp emitted
  cases appended
  have script := congrArg CodeGenerator.script same
  simp only [CodeGenerator.withScript_script, List.append_cancel_left_eq] at script
  obtain ⟨L, M, loaded, listed, -, -⟩ := Listing.exists_loaded calls [] .silent (by rw [script]; decide)
  have small : L.offset L.calls.length ≤ 2 ^ 64 := by
    rw [Listing.offset, List.take_length, listed, script]
    cases L.deterministic <;> decide
  obtain ⟨d, ran, value⟩ := runs L M loaded small 0 (by rw [← listed]; exact List.prefix_refl _) (Cpu.filled 5)
  rw [Nat.zero_add, ← listed] at ran
  exact ⟨L, M, d, loaded, ran, value⟩

end Codegen

end Aclm
