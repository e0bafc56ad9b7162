import Aclm.Codegen.Reservations

/-! What the statements other than labels emit declares no label of the program, and loses no assertion. -/

set_option autoImplicit false

namespace Aclm.Codegen

open X64 (Reg Byte)
open Encoder

/-! ### The labels of the generator -/

/-- The call is no label that a statement could declare. -/
def internal : Call → Bool
  | .label name => !startsWith name "__lbl_"
  | _ => true

theorem internal_append {as bs : List Call} (first : as.all internal = true) (rest : bs.all internal = true) :
    (as ++ bs).all internal = true := by
  rw [List.all_append, first, rest]
  rfl

/-- What is emitted has labels of the generator only, and no assertion is lost. -/
structure Internal (g g' : CodeGenerator) : Prop where
  script : ∃ calls, g'.script = g.script ++ calls ∧ calls.all internal = true
  asserts : g.assertBytes <+: g'.assertBytes
  deterministic : g'.deterministic = g.deterministic

namespace Internal

variable {g g' g'' : CodeGenerator}

theorem same (script : g'.script = g.script) (asserts : g.assertBytes <+: g'.assertBytes)
    (deterministic : g'.deterministic = g.deterministic) : Internal g g' :=
  ⟨⟨[], by simp [script], rfl⟩, asserts, deterministic⟩

theorem refl (g : CodeGenerator) : Internal g g := same rfl (List.prefix_refl _) rfl

theorem trans (first : Internal g g') (second : Internal g' g'') : Internal g g'' := by
  obtain ⟨as, script, all⟩ := first.script
  obtain ⟨bs, script', all'⟩ := second.script
  exact ⟨⟨as ++ bs, by rw [script', script, List.append_assoc], internal_append all all'⟩,
    first.asserts.trans second.asserts, second.deterministic.trans first.deterministic⟩

end Internal

theorem AllOwn.internal {calls : List Call} (all : AllOwn calls) : calls.all internal = true := by
  induction calls with
  | nil => rfl
  | cons call calls ih =>
    rw [List.all_cons, Bool.and_eq_true]
    cases call with
    | label name => exact ⟨by rw [Codegen.internal, all.1.2]; rfl, ih all.2⟩
    | _ => exact ⟨rfl, ih all⟩

theorem Change.internal {g g' : CodeGenerator} (change : Change g g') : Internal g g' := by
  cases change with
  | calls all => exact ⟨⟨_, rfl, all.internal⟩, List.prefix_refl _, rfl⟩
  | reserved name bytes =>
    unfold Codegen.reserved
    split
    · exact .refl g
    · exact .same rfl (List.prefix_refl _) rfl
  | assertBytes => exact .same rfl (List.prefix_append _ _) rfl
  | _ => exact .same rfl (List.prefix_refl _) rfl

/-- A step of an emission that declares no label of the program. -/
def Undeclared {α : Type} (m : Gen α) : Prop := ∀ g a g', m g = .ok a g' → Internal g g'

namespace Undeclared

variable {α β : Type}

theorem keep {m : Gen α} (same : ∀ g a g', m g = .ok a g' → g' = g) : Undeclared m :=
  fun g a g' ok => same g a g' ok ▸ .refl g

theorem pure (a : α) : Undeclared (pure a) := keep fun _ _ _ ok => (pure_ok.mp ok).2

theorem get : Undeclared get := keep fun _ _ _ ok => (get_ok.mp ok).2

theorem modify {f : CodeGenerator → CodeGenerator} (kept : ∀ g, Internal g (f g)) : Undeclared (modify f) :=
  fun g _ _ ok => modify_ok.mp ok ▸ kept g

theorem bind {x : Gen α} {f : α → Gen β} (first : Undeclared x) (rest : ∀ a, Undeclared (f a)) : Undeclared (x >>= f) := by
  intro g b g' ok
  obtain ⟨a, m, ok₁, ok₂⟩ := bind_ok.mp ok
  exact (first _ _ _ ok₁).trans (rest _ _ _ _ ok₂)

theorem asm {calls : List Call} (all : calls.all internal = true) : Undeclared (asm calls) :=
  modify fun _ => ⟨⟨calls, rfl, all⟩, List.prefix_refl _, rfl⟩

theorem ite {p : Prop} [Decidable p] {x y : Gen α} (yes : Undeclared x) (no : Undeclared y) :
    Undeclared (if p then x else y) := by
  split <;> assumption

/-- Statements other than labels declare none. -/
theorem emitOp {op : Op} (other : ∀ name, op ≠ .label name) : Undeclared (emitOp op) := by
  intro g a g' ok
  have changes := emitOp_regular op other g a g' ok
  exact changes.kept .refl .trans Change.internal

theorem note (line : Int) : Undeclared (note line) :=
  bind get fun _ => ite (modify fun _ => .same rfl (List.prefix_refl _) rfl) (pure _)

end Undeclared

end Aclm.Codegen
