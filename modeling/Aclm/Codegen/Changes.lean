import Aclm.Codegen.Names
import Mathlib.Logic.Relation

/-! What the emitter of a single statement does to the generator, one change at a time. Whatever every change keeps, the
statements keep: their emitters are gone through here and in the next module alone. -/

set_option autoImplicit false

namespace Aclm.Codegen

open X64 (Reg)
open Encoder

/-! ### The labels of the generator -/

/-- The name of a place in the code that no statement declares. -/
def OwnLabel (name : String) : Prop := CodeLabel name ∧ startsWith name "__lbl_" = false

instance (name : String) : Decidable (OwnLabel name) := inferInstanceAs (Decidable (_ ∧ _))

/-- The labels among the calls are the generator's own. -/
def AllOwn : List Call → Prop
  | [] => True
  | .label name :: calls => OwnLabel name ∧ AllOwn calls
  | _ :: calls => AllOwn calls

theorem AllOwn.append {as bs : List Call} (first : AllOwn as) (rest : AllOwn bs) : AllOwn (as ++ bs) := by
  induction as with
  | nil => exact rest
  | cons call calls ih =>
    cases call with
    | label name => exact ⟨first.1, ih first.2⟩
    | _ => exact ih first

theorem AllOwn.allCode {calls : List Call} (all : AllOwn calls) : AllCode calls := by
  induction calls with
  | nil => trivial
  | cons call calls ih =>
    cases call with
    | label name => exact ⟨all.1.1, ih all.2⟩
    | _ => exact ih all

theorem copyTo_own (dst src : Reg) : AllOwn (copyTo dst src) := by
  unfold copyTo
  split <;> trivial

theorem mov_own (o : Operand) (dst : Reg) : AllOwn (o.mov dst) := by
  cases o with
  | reg r => exact copyTo_own dst r
  | _ => trivial

theorem map_pop_own (rs : List Reg) : AllOwn (rs.map .popReg) := by
  induction rs with
  | nil => trivial
  | cons r rs ih => exact ih

theorem ite_own {p : Prop} [Decidable p] {as bs : List Call} (yes : AllOwn as) (no : AllOwn bs) :
    AllOwn (if p then as else bs) := by
  split <;> assumption

/-! ### Changes -/

/-- One of the changes that statements are emitted by. -/
inductive Change (g : CodeGenerator) : CodeGenerator → Prop
  | calls {calls : List Call} (all : AllOwn calls) : Change g (g.withScript (g.script ++ calls))
  | counted : Change g g.nextLabel
  | reserved (name : String) (bytes : List X64.Byte) : Change g (Codegen.reserved g name bytes)
  /-- The number of slots is kept where the offset of a datum would be. -/
  | slots (n : Int) : Change g { g with dataLayout := g.dataLayout.set "__dmaring_slots" n }
  | emitted (stub : Stub) : Change g { g with emitted := stub :: g.emitted }
  | baremetal : Change g { g with baremetal := true }
  | assertBytes (s : AssertBytes) : Change g { g with assertBytes := g.assertBytes ++ [s] }
  | assertSize (s : String × Int) : Change g { g with assertSizes := g.assertSizes ++ [s] }

/-- The generator after some changes. -/
def Changes : CodeGenerator → CodeGenerator → Prop := Relation.ReflTransGen Change

/-- What every change keeps is kept by all of them. -/
theorem Changes.kept {R : CodeGenerator → CodeGenerator → Prop} (refl : ∀ g, R g g)
    (trans : ∀ {g g' g''}, R g g' → R g' g'' → R g g'') (step : ∀ {g g'}, Change g g' → R g g') {g g' : CodeGenerator}
    (changes : Changes g g') : R g g' := by
  induction changes with
  | refl => exact refl g
  | tail _ last ih => exact trans ih (step last)

theorem Change.advances {g g' : CodeGenerator} (change : Change g g') : Advances g g' := by
  cases change with
  | calls all => exact .calls all.allCode
  | reserved name bytes =>
    unfold Codegen.reserved
    split
    · exact .refl g
    · exact .placed _ _ _
  | slots n => exact .placed _ _ g.dataBytes
  | baremetal => exact ⟨⟨⟨[], by simp, trivial⟩, id, rfl, fun _ => rfl⟩, rfl⟩
  | counted | emitted | assertBytes | assertSize => exact .same rfl rfl rfl rfl rfl

/-- An emitter that is made of changes. -/
def Regular {α : Type} (m : Gen α) : Prop := ∀ g a g', m g = .ok a g' → Changes g g'

namespace Regular

variable {α β : Type}

theorem emits {m : Gen α} (regular : Regular m) : Emits m := fun _ _ _ ok =>
  (regular _ _ _ ok).kept Advances.refl Advances.trans Change.advances

theorem keep {m : Gen α} (same : ∀ g a g', m g = .ok a g' → g' = g) : Regular m :=
  fun g a g' ok => same g a g' ok ▸ .refl

theorem pure (a : α) : Regular (pure a) := keep fun _ _ _ ok => (pure_ok.mp ok).2

theorem get : Regular get := keep fun _ _ _ ok => (get_ok.mp ok).2

theorem ofExcept (x : Except PyErr α) : Regular (ofExcept x) := keep fun _ _ _ ok => (ofExcept_ok.mp ok).2

theorem reg (name : String) : Regular (reg name) := ofExcept _

theorem throw (e : PyErr) : Regular (throw e : Gen α) := fun _ _ _ ok => (throw_ok ok).elim

theorem codegenError (msg : String) : Regular (codegenError msg : Gen α) := throw _

theorem modify {f : CodeGenerator → CodeGenerator} (change : ∀ g, Change g (f g)) : Regular (modify f) :=
  fun g _ _ ok => modify_ok.mp ok ▸ .single (change g)

theorem bind {x : Gen α} {f : α → Gen β} (first : Regular x) (rest : ∀ a, Regular (f a)) : Regular (x >>= f) := by
  intro g b g' ok
  obtain ⟨a, m, ok₁, ok₂⟩ := bind_ok.mp ok
  exact (first _ _ _ ok₁).trans (rest _ _ _ _ ok₂)

/-- A step without a result, and the steps after it. -/
theorem seq {x : Gen Unit} {y : Gen β} (first : Regular x) (rest : Regular y) : Regular (do x; y) :=
  first.bind fun _ => rest

theorem calls {calls : List Call} (all : AllOwn calls) : Regular (asm calls) := modify fun _ => .calls all

/-- What follows a new label may count on its form. -/
theorem withLabel {pfx : String} {f : String → Gen β} (rest : ∀ name, OwnLabel name → Regular (f name)) :
    Regular (newLabel pfx >>= f) := by
  intro g b g' ok
  have ok := newLabel_bind_ok.mp ok
  have fresh : OwnLabel (freshLabel pfx (g.labelI + 1)) := by
    rw [OwnLabel, CodeLabel, freshLabel]
    simp only [startsWith, toString, String.toList_append]
    exact ⟨rfl, rfl⟩
  exact .head .counted (rest _ fresh _ _ _ ok)

theorem ite {p : Prop} [Decidable p] {x y : Gen α} (yes : Regular x) (no : Regular y) :
    Regular (if p then x else y) := by
  split <;> assumption

theorem eval (node : Expr) (dst : Reg) : Regular (eval node dst) := by
  induction node generalizing dst with
  | binExpr op left right ihl ihr =>
    unfold Codegen.eval
    exact bind (ihl _) fun _ => bind (calls trivial) fun _ => bind (ihr _) fun _ => bind (calls trivial) fun _ =>
      bind (calls (by cases op <;> trivial)) fun _ => calls (copyTo_own _ _)
  | _ => exact bind get fun _ => bind (ofExcept _) fun o => calls (mov_own o dst)

theorem evalOr (node : Option Expr) (dst : Reg) {default : List Call} (all : AllOwn default) :
    Regular (evalOr node dst default) := by
  cases node with
  | none => exact calls all
  | some node => exact eval node dst

theorem baseReg (base : Expr) : Regular (baseReg base) := by
  cases base with
  | reg name => exact reg name
  | ident name =>
    refine bind get fun g => ?_
    split
    · exact bind (calls trivial) fun _ => pure _
    · exact bind (calls trivial) fun _ => pure _
  | _ => exact throw _

theorem basePhys (base : Expr) : Regular (basePhys base) := by
  cases base with
  | reg name => exact reg name
  | ident name => exact bind (calls trivial) fun _ => pure _
  | number value => exact bind (calls trivial) fun _ => pure _
  | _ => exact throw _

theorem indexReg (index : Option Expr) : Regular (indexReg index) := by
  cases index with
  | none => exact pure _
  | some node =>
    cases node with
    | reg name => exact bind (reg name) fun _ => pure _
    | _ => exact bind (eval _ _) fun _ => pure _

theorem reserve (name : String) (bytes : List X64.Byte) : Regular (reserve name bytes) := by
  intro g u g' ok
  have ok : (do Codegen.reserve name bytes; Pure.pure ()) g = .ok () g' := by simpa using ok
  obtain ⟨-, rfl⟩ := pure_ok.mp (reserve_bind_ok.mp ok)
  exact .single (.reserved name bytes)

theorem once (stub : Stub) {body : List Call} (all : AllOwn body) : Regular (once stub body) :=
  bind get fun _ => ite (pure _) (bind (calls all) fun _ => modify fun _ => .emitted stub)

theorem pushArgs (via : Reg) (args : List Expr) : Regular (pushArgs via args) := by
  induction args with
  | nil => exact pure _
  | cons arg args ih => exact bind (eval _ _) fun _ => bind (calls trivial) fun _ => ih

end Regular

end Aclm.Codegen
