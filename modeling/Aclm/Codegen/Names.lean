import Aclm.Codegen.Generate

/-! What every step of an emission keeps: calls are only appended, and the labels among them do not begin
like the name of a datum; no datum is placed under two offsets. -/

set_option autoImplicit false

namespace Aclm

theorem startsWith_append (pfx s t : String) (short : pfx.toList.length ≤ s.toList.length) :
    startsWith (s ++ t) pfx = startsWith s pfx := by
  simp only [startsWith, String.toList_append]
  generalize s.toList = xs at *
  generalize pfx.toList = ps at *
  induction ps generalizing xs with
  | nil => simp
  | cons p ps ih =>
    cases xs with
    | nil => simp at short
    | cons x xs =>
      simp only [List.cons_append, List.isPrefixOf]
      rw [ih xs (by simpa using short)]

namespace Codegen

open X64 (Reg)
open Encoder

/-- The name of a place in the code. -/
def CodeLabel (name : String) : Prop := startsWith name "__data_" = false

instance (name : String) : Decidable (CodeLabel name) := inferInstanceAs (Decidable (_ = _))

theorem data_startsWith (name : String) : startsWith (data name) "__data_" = true := by
  rw [data, startsWith_append _ _ _ (by decide)]
  decide

theorem codeLabel_lbl (name : String) : CodeLabel (lbl name) := by
  rw [CodeLabel, lbl]
  simp only [startsWith, String.toList_append]
  rfl

/-- The labels among the calls are code labels. -/
def AllCode : List Call → Prop
  | [] => True
  | .label name :: calls => CodeLabel name ∧ AllCode calls
  | _ :: calls => AllCode calls

theorem AllCode.append {as bs : List Call} (first : AllCode as) (rest : AllCode bs) : AllCode (as ++ bs) := by
  induction as with
  | nil => exact rest
  | cons call calls ih =>
    cases call with
    | label name => exact ⟨first.1, ih first.2⟩
    | _ => exact ih first

theorem AllCode.label {calls : List Call} (all : AllCode calls) {name : String}
    (member : .label name ∈ calls) : CodeLabel name := by
  induction calls with
  | nil => cases member
  | cons call calls ih =>
    cases member with
    | head => exact all.1
    | tail _ member =>
      cases call with
      | label _ => exact ih all.2 member
      | _ => exact ih all member

theorem ite_code {p : Prop} [Decidable p] {as bs : List Call} (yes : AllCode as) (no : AllCode bs) :
    AllCode (if p then as else bs) := by
  split <;> assumption

/-- The generator after some emission. -/
structure Extends (g g' : CodeGenerator) : Prop where
  script : ∃ calls, g'.script = g.script ++ calls ∧ AllCode calls
  layout : g.dataLayout.Distinct → g'.dataLayout.Distinct
  deterministic : g'.deterministic = g.deterministic
  baremetal : g.baremetal = true → g'.baremetal = true

namespace Extends

variable {g g' g'' : CodeGenerator}

/-- The parts that an emission is judged by have not changed. -/
theorem same (script : g'.script = g.script) (layout : g'.dataLayout = g.dataLayout)
    (deterministic : g'.deterministic = g.deterministic) (baremetal : g'.baremetal = g.baremetal) : Extends g g' :=
  ⟨⟨[], by simp [script], trivial⟩, layout ▸ id, deterministic, baremetal ▸ id⟩

theorem refl (g : CodeGenerator) : Extends g g := same rfl rfl rfl rfl

theorem trans (first : Extends g g') (second : Extends g' g'') : Extends g g'' := by
  obtain ⟨as, script₁, all₁⟩ := first.script
  obtain ⟨bs, script₂, all₂⟩ := second.script
  exact ⟨⟨as ++ bs, by rw [script₂, script₁, List.append_assoc], all₁.append all₂⟩,
    second.layout ∘ first.layout, second.deterministic.trans first.deterministic,
    second.baremetal ∘ first.baremetal⟩

end Extends

/-- The generator after an emission that is no function definition. -/
structure Advances (g g' : CodeGenerator) : Prop extends Extends g g' where
  inFn : g'.inFn = g.inFn

namespace Advances

variable {g g' g'' : CodeGenerator}

theorem same (script : g'.script = g.script) (layout : g'.dataLayout = g.dataLayout)
    (deterministic : g'.deterministic = g.deterministic) (baremetal : g'.baremetal = g.baremetal)
    (inFn : g'.inFn = g.inFn) : Advances g g' :=
  ⟨.same script layout deterministic baremetal, inFn⟩

theorem refl (g : CodeGenerator) : Advances g g := same rfl rfl rfl rfl rfl

theorem trans (first : Advances g g') (second : Advances g' g'') : Advances g g'' :=
  ⟨first.toExtends.trans second.toExtends, second.inFn.trans first.inFn⟩

theorem calls {calls : List Call} (all : AllCode calls) : Advances g (g.withScript (g.script ++ calls)) :=
  ⟨⟨⟨calls, rfl, all⟩, id, rfl, id⟩, rfl⟩

/-- A datum is placed, whatever is done to the bytes. -/
theorem placed (name : String) (off : Int) (bytes : List X64.Byte) :
    Advances g { g with dataLayout := g.dataLayout.set name off, dataBytes := bytes } :=
  ⟨⟨⟨[], by simp, trivial⟩, fun distinct => distinct.set name off, rfl, id⟩, rfl⟩

end Advances

/-- A step of an emission. -/
def Emits {α : Type} (m : Gen α) : Prop := ∀ g a g', m g = .ok a g' → Advances g g'

namespace Emits

variable {α β : Type}

theorem keep {m : Gen α} (same : ∀ g a g', m g = .ok a g' → g' = g) : Emits m :=
  fun g a g' ok => same g a g' ok ▸ .refl g

theorem pure (a : α) : Emits (pure a) := keep fun _ _ _ ok => (pure_ok.mp ok).2

theorem get : Emits get := keep fun _ _ _ ok => (get_ok.mp ok).2

theorem modify {f : CodeGenerator → CodeGenerator} (advance : ∀ g, Advances g (f g)) : Emits (modify f) :=
  fun g _ _ ok => modify_ok.mp ok ▸ advance g

theorem bind {x : Gen α} {f : α → Gen β} (first : Emits x) (rest : ∀ a, Emits (f a)) : Emits (x >>= f) := by
  intro g b g' ok
  obtain ⟨a, m, ok₁, ok₂⟩ := bind_ok.mp ok
  exact (first _ _ _ ok₁).trans (rest _ _ _ _ ok₂)

/-- A step without a result, and the steps after it. -/
theorem seq {x : Gen Unit} {y : Gen β} (first : Emits x) (rest : Emits y) : Emits (do x; y) :=
  first.bind fun _ => rest

theorem calls {calls : List Call} (all : AllCode calls) : Emits (asm calls) :=
  fun _ _ _ ok => asm_ok.mp ok ▸ .calls all

theorem ite {p : Prop} [Decidable p] {x y : Gen α} (yes : Emits x) (no : Emits y) :
    Emits (if p then x else y) := by
  split <;> assumption

end Emits

end Codegen

end Aclm
