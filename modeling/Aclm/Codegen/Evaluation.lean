import Aclm.Codegen.Tree
import Aclm.Codegen.Emit

/-! What the evaluation of an expression leaves in the registers, and when that is its value. -/

set_option autoImplicit false

namespace Aclm.Codegen

open X64 (Word Reg Cpu Env Machine)
open X64.Memory (SameAbove WordAbove)
open Encoder

/-- The destination has the value of the expression at entry, and no other register that a program can name, no
part of the stack and no memory but the words just below it has changed. -/
structure EvalCorrect (place : String → Word) (t : Tree) (dst : Reg) (c d : Cpu) : Prop where
  value : d.reg dst = t.value place c
  regs : ∀ r, User r → r ≠ dst → d.reg r = c.reg r
  sp : d.reg .rsp = c.reg .rsp
  mem : SameAbove (c.reg .rsp) (8 * t.depth) c.mem d.mem

/-- R12 is not read after a right operand was brought into it, as far as the value shows, and has its value at
entry again when it is not the destination. -/
def Unclobbered (place : String → Word) (t : Tree) (dst : Reg) (c : Cpu) : Prop :=
  (t.clobber none).1.value place c = t.value place c ∧
    (dst = .r12 ∨ ∀ last, (t.clobber none).2 = some last → last.value place c = c.reg .r12)

theorem Evaluated.correct_iff {place : String → Word} {t : Tree} {dst : Reg} {c d : Cpu}
    (done : Evaluated place c dst t none c d) (notSp : dst ≠ .rsp) :
    EvalCorrect place t dst c d ↔ Unclobbered place t dst c := by
  constructor
  · intro correct
    refine ⟨done.value.symm.trans correct.value, ?_⟩
    by_cases isR12 : dst = .r12
    · exact .inl isR12
    · refine .inr fun last found => ?_
      have kept := correct.regs .r12 (by decide) (Ne.symm isR12)
      rw [← kept, done.late isR12, found, Option.getD_some]
  · rintro ⟨value, last⟩
    refine ⟨done.value.trans value, fun r user other => ?_, ?_, done.mem⟩
    · by_cases isR12 : r = .r12
      · subst isR12
        rw [done.late (Ne.symm other)]
        cases found : (t.clobber none).2 with
        | none => rfl
        | some tree => exact (last.resolve_left (Ne.symm other)) tree found
      · obtain ⟨-, -, notR11, -⟩ := (user_iff r).mp user
        exact done.regs r other notR11 isR12
    · exact done.regs .rsp (Ne.symm notSp) (by decide) (by decide)

/-! ### What a leaf refers to -/

theorem bindArgs_user {args : List String} {name : String} {r : Reg} (found : (bindArgs args).get? name = some r) :
    User r := by
  have bound : ∀ (pairs : List (String × Reg)) (d : Dict Reg), (∀ p ∈ pairs, User p.2) →
      (∀ n s, d.get? n = some s → User s) →
      ∀ n s, Dict.get? (pairs.foldl (fun d a => d.set a.1 a.2) d) n = some s → User s := by
    intro pairs
    induction pairs with
    | nil => exact fun d _ known => known
    | cons pair rest ih =>
      intro d users known
      refine ih _ (fun p member => users p (List.mem_cons_of_mem _ member)) fun n s entry => ?_
      rw [Dict.get?_set] at entry
      split at entry
      · cases entry
        exact users pair List.mem_cons_self
      · exact known n s entry
  refine bound _ [] (fun p member => ?_) (fun n s entry => by cases entry) name r found
  have registers : ∀ s ∈ CALL_ARGS, User s := by decide
  exact registers p.2 (List.of_mem_zip member).2

/-- The operands of a tree that are locals lie outside the `n` bytes just below the stack pointer. -/
def Tree.Framed (n : Nat) (c : Cpu) : Tree → Prop
  | leaf (.slot off) => WordAbove (c.reg .rsp) n (c.reg .rbp + BitVec.ofInt 64 off)
  | leaf _ => True
  | node _ left right => left.Framed n c ∧ right.Framed n c

theorem operand_user {g : CodeGenerator} {args : List String} (bound : g.fnArgs = bindArgs args) {node : Expr} {r : Reg}
    (found : g.operand node = .ok (.reg r)) : User r := by
  cases node with
  | reg name =>
    cases result : resolve name with
    | error e => simp [CodeGenerator.operand, result, Except.map] at found
    | ok s =>
      simp only [CodeGenerator.operand, result, Except.map, Except.ok.injEq, Operand.reg.injEq] at found
      exact found ▸ user_of_resolve result
  | ident name =>
    simp only [CodeGenerator.operand, CodeGenerator.identOperand] at found
    split at found
    · next src entry =>
      cases found
      exact bindArgs_user (bound ▸ entry)
    · repeat' split at found
      all_goals cases found
  | structFieldRef struct field =>
    simp only [CodeGenerator.operand, CodeGenerator.fieldOperand] at found
    repeat' split at found
    all_goals cases found
  | _ => cases found

theorem resolveTree_readable {g : CodeGenerator} {args : List String} (bound : g.fnArgs = bindArgs args) {node : Expr}
    {t : Tree} (ok : resolveTree g node = .ok t) {n : Nat} {c : Cpu} (framed : t.Framed n c) : t.Readable n c := by
  have atLeaf {node : Expr} {t : Tree} (ok : (g.operand node).map Tree.leaf = .ok t) (framed : t.Framed n c) :
      t.Readable n c := by
    cases found : g.operand node with
    | error e => rw [found] at ok; cases ok
    | ok o =>
      rw [found] at ok
      cases ok
      cases o with
      | reg r => exact operand_user bound found
      | slot off => exact framed
      | _ => trivial
  induction node generalizing t with
  | binExpr op left right ihl ihr =>
    obtain ⟨l, hl, rest⟩ := bind_eq_ok.mp ok
    obtain ⟨r, hr, rest⟩ := bind_eq_ok.mp rest
    cases rest
    exact ⟨ihl hl framed.1, ihr hr framed.2⟩
  | _ => exact atLeaf ok framed

/-! ### The code of an evaluation -/

/-- The code of an evaluation runs to its end, and is right exactly when R12 is not in its own way. -/
theorem eval_correct_iff {g g' : CodeGenerator} {args : List String} (bound : g.fnArgs = bindArgs args) {node : Expr}
    {dst : Reg} (notSp : dst ≠ .rsp) (emission : eval node dst g = .ok () g') :
    ∃ t, resolveTree g node = .ok t ∧ g' = g.withScript (g.script ++ t.calls dst) ∧
      ∀ (L : Listing) (M : Machine), L.Loaded M → ∀ i, L.At i (t.calls dst) →
        ∀ c : Cpu, 8 * t.depth + 8 ≤ 2 ^ 64 → t.Framed (8 * t.depth) c →
          ∃ d, effects L.env L.address (t.calls dst) c = some d ∧
            M.Steps ⟨L.offset i, c⟩ ⟨L.offset (i + (t.calls dst).length), d⟩ ∧
            (EvalCorrect L.address t dst c d ↔ Unclobbered L.address t dst c) := by
  obtain ⟨calls, appended, rfl⟩ := eval_ok.mp emission
  rw [evalCalls_eq] at appended
  cases resolved : resolveTree g node with
  | error e => rw [resolved] at appended; cases appended
  | ok t =>
    rw [resolved] at appended
    cases appended
    refine ⟨t, rfl, rfl, fun L M loaded i here c room framed => ?_⟩
    have readable := resolveTree_readable bound resolved framed
    obtain ⟨d, ran, done⟩ := t.runs (.start _ c) readable (by simp) (by simp) room notSp (j := 0)
    exact ⟨d, ran, loaded.steps (Listing.steps_of_effects here ran), done.correct_iff notSp⟩

/-- `reg10 + (2 - 3)` into `reg10`: the one right operand that R12 held before is its own. -/
theorem eval_correct_difference :
    ∃ (L : Listing) (M : Machine) (d : Cpu), L.Loaded M ∧
      M.Steps ⟨0, Cpu.filled 5⟩ ⟨L.offset L.calls.length, d⟩ ∧ d.reg .r12 = 4 := by
  let node : Expr := .binExpr .add (.reg "reg10") (.binExpr .sub (.number 2) (.number 3))
  obtain ⟨t, resolved, -, runs⟩ := @eval_correct_iff (.new false) _ [] rfl node .r12 (by decide)
    (eval_ok.mpr ⟨_, rfl, rfl⟩)
  cases resolved
  obtain ⟨L, M, loaded, calls, -, -⟩ := Listing.exists_loaded
    (Tree.calls (.node .add (.leaf (.reg .r12)) (.node .sub (.leaf (.imm 2)) (.leaf (.imm 3)))) .r12) [] .silent
    (by decide)
  have here : L.At 0 L.calls := List.prefix_refl _
  rw [calls] at here
  obtain ⟨d, -, steps, right⟩ := runs L M loaded 0 here (Cpu.filled 5) (by decide) ⟨trivial, trivial, trivial⟩
  have correct := right.mpr ⟨rfl, .inl rfl⟩
  rw [Nat.zero_add, ← calls] at steps
  refine ⟨L, M, d, loaded, steps, correct.value.trans ?_⟩
  simp only [Tree.value, Operand.value, ExprOp.apply, Cpu.filled]
  decide

/-- `(1 + 2) + reg10` reads in R12 the 2 that was brought there. -/
theorem eval_incorrect_sum : ¬∀ (g g' : CodeGenerator) (args : List String) (node : Expr) (dst : Reg) (t : Tree),
    g.fnArgs = bindArgs args → dst ≠ .rsp → eval node dst g = .ok () g' → resolveTree g node = .ok t →
    ∀ env place (c d : Cpu), effects env place (t.calls dst) c = some d → EvalCorrect place t dst c d := by
  intro correct
  let node : Expr := .binExpr .add (.binExpr .add (.number 1) (.number 2)) (.reg "reg10")
  let t : Tree := .node .add (.node .add (.leaf (.imm 1)) (.leaf (.imm 2))) (.leaf (.reg .r12))
  have readable : t.Readable (8 * t.depth) (Cpu.filled 5) := ⟨⟨trivial, trivial⟩, show User .r12 by decide⟩
  obtain ⟨d, ran, done⟩ := @Tree.runs .silent (fun _ => 0) t _ 0 _ _ none .rax (.start _ (Cpu.filled 5)) readable (by simp)
    (by decide) (by decide) (by decide)
  have wrong := correct (.new false) _ [] node .rax t rfl (by decide) (eval_ok.mpr ⟨_, rfl, rfl⟩) rfl _ _ _ d ran
  exact absurd ((done.correct_iff (by decide)).mp wrong).1 (by decide)

end Aclm.Codegen
