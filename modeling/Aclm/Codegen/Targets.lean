import Aclm.Codegen.Labels
import Aclm.Encoder.Link

/-! What a finished emission has: the labels of its code, the layout of its data, and the offset that
each name is linked to. -/

set_option autoImplicit false

namespace Aclm.Codegen

open Encoder

/-! ### Before the code -/

/-- A declaration places data and does nothing else to the generator. -/
structure Declares (g g' : CodeGenerator) : Prop where
  script : g'.script = g.script
  layout : g.dataLayout.Distinct → g'.dataLayout.Distinct
  baremetal : g'.baremetal = g.baremetal

namespace Declares

variable {g g' g'' : CodeGenerator}

theorem refl (g : CodeGenerator) : Declares g g := ⟨rfl, id, rfl⟩

theorem trans (first : Declares g g') (second : Declares g' g'') : Declares g g'' :=
  ⟨second.script.trans first.script, second.layout ∘ first.layout, second.baremetal.trans first.baremetal⟩

theorem placeDatum (g : CodeGenerator) (name : String) (off : Int) (bytes : List X64.Byte) :
    Declares g (placeDatum g name off bytes) :=
  ⟨rfl, fun distinct => distinct.set name off, rfl⟩

theorem addCell (name : String) (n : Nat) (needed : Bool) (g : CodeGenerator) : Declares g (addCell name n needed g) := by
  cases needed with
  | false => exact refl g
  | true => exact placeDatum g name _ _

theorem collectDatum {g g' : CodeGenerator} {off off' : Int} {op : Op} (ok : collectDatum g off op = .ok (g', off')) : Declares g g' := by
  cases op with
  | dataAlloc name size =>
    obtain ⟨n, -, placed⟩ := bind_eq_ok.mp ok
    cases placed
    exact placeDatum g name off _
  | dataConst name value =>
    cases value with
    | number value => cases ok; exact ⟨rfl, fun distinct => distinct.set name off, rfl⟩
    | string value => cases ok; exact ⟨rfl, fun distinct => distinct.set name off, rfl⟩
  | dataBytes name values => cases ok; exact ⟨rfl, fun distinct => distinct.set name off, rfl⟩
  | _ => cases ok; exact ⟨rfl, id, rfl⟩

theorem collectData {g g' : CodeGenerator} {stmts : List Stmt} {off : Int} (ok : collectData stmts g off = .ok g') : Declares g g' := by
  induction stmts generalizing g off with
  | nil => cases ok; exact refl _
  | cons s rest ih =>
    cases s with
    | fnDef => exact ih ok
    | op line op =>
      obtain ⟨placed, first, rest⟩ := bind_eq_ok.mp ok
      exact (collectDatum first).trans (ih rest)

end Declares

/-- Emission begins with no code, and on bare metal if some top-level statement says so. -/
theorem prepare_ok {opts : Options} {p : Program} {g : CodeGenerator} (ok : prepare opts p = .ok g) :
    g.script = [] ∧ g.dataLayout.Distinct ∧ g.baremetal = p.statements.any baremetalStmt := by
  obtain ⟨m, collected, rest⟩ := bind_eq_ok.mp ok
  cases rest
  have declared := Declares.collectData collected
  have timespec := Declares.addCell "__timespec" 16 (p.statements.any pulseStmt)
    { m with deterministic := p.statements.any deterministicStmt }
  have cells := timespec.trans (.addCell "__thr_futex" 24 (p.statements.any threadStmt) _)
  exact ⟨cells.script.trans declared.script, cells.layout (declared.layout List.nodup_nil),
    cells.baremetal.trans declared.baremetal⟩

theorem emitted_ok {opts : Options} {p : Program} {g : CodeGenerator} {a : Assembler} :
    emitted opts p = .ok (g, a) ↔ ∃ g₀, prepare opts p = .ok g₀ ∧ emitProgram p.statements g₀ = .ok () g ∧
      (Assembler.empty g.deterministic).run g.script = .ok a := by
  rw [emitted, bind_eq_ok]
  refine exists_congr fun g₀ => and_congr_right fun _ => ?_
  cases result : emitProgram p.statements g₀ with
  | ok u m =>
    simp only [bind_eq_ok, EStateM.Result.ok.injEq, true_and, Except.ok.injEq, Prod.mk.injEq]
    constructor
    · rintro ⟨b, run, rfl, rfl⟩
      exact ⟨rfl, run⟩
    · rintro ⟨rfl, run⟩
      exact ⟨a, run, rfl, rfl⟩
  | error e m =>
    cases run : (Assembler.empty m.deterministic).run m.script <;> simp [run, bind, Except.bind]

/-- What the code of a whole program is judged by. -/
structure Finished (g : CodeGenerator) (a : Assembler) : Prop where
  run : (Assembler.empty g.deterministic).run g.script = .ok a
  labels : AllCode g.script
  layout : g.dataLayout.Distinct

theorem finished_of_emitted {opts : Options} {p : Program} {g : CodeGenerator} {a : Assembler}
    (ok : emitted opts p = .ok (g, a)) : Finished g a := by
  obtain ⟨g₀, prepared, emission, run⟩ := emitted_ok.mp ok
  obtain ⟨empty, distinct, -⟩ := prepare_ok prepared
  have advance := emitProgram_emission _ _ _ emission
  obtain ⟨calls, script, all⟩ := advance.script
  rw [empty, List.nil_append] at script
  exact ⟨run, script ▸ all, advance.layout distinct⟩

/-! ### The offsets of the names -/

theorem data_injective : Function.Injective data := by
  intro s t same
  apply String.toList_injective
  have lists := congrArg String.toList same
  simpa [data] using lists

theorem lbl_injective : Function.Injective lbl := by
  intro s t same
  apply String.toList_injective
  have lists := congrArg String.toList same
  simpa [lbl] using lists

theorem addData_other {codeLen : Nat} {layout offs : Dict Int} {name : String}
    (other : ∀ k ∈ layout.keys, data k ≠ name) : (addData codeLen layout offs).get? name = offs.get? name := by
  induction layout generalizing offs with
  | nil => rfl
  | cons entry rest ih =>
    have first := other entry.1 List.mem_cons_self
    change (addData codeLen rest _).get? name = _
    rw [ih fun k member => other k (List.mem_cons_of_mem _ member), Dict.get?_set, if_neg first]

theorem addData_data (codeLen : Nat) (offs : Dict Int) {layout : Dict Int} {name : String} {off : Int}
    (distinct : layout.Distinct) (found : layout.get? name = some off) :
    (addData codeLen layout offs).get? (data name) = some (codeLen + off) := by
  induction layout generalizing offs with
  | nil => cases found
  | cons entry rest ih =>
    obtain ⟨k, v⟩ := entry
    obtain ⟨fresh, distinct⟩ := List.nodup_cons.mp distinct
    change (addData codeLen rest _).get? (data name) = _
    unfold Dict.get? at found
    split at found
    · next same =>
      cases found
      subst same
      have others : ∀ key ∈ Dict.keys rest, data key ≠ data k :=
        fun key member same => fresh (by rw [← data_injective same]; exact member)
      rw [addData_other others, Dict.get?_set, if_pos rfl]
    · exact ih _ distinct found

theorem shiftData_get? (pad : Nat) (offs : Dict Int) (name : String) :
    (shiftData pad offs).get? name =
      (offs.get? name).map fun v => if startsWith name "__data_" then v + (pad : Int) else v := by
  induction offs with
  | nil => rfl
  | cons entry rest ih =>
    obtain ⟨k, v⟩ := entry
    have key : (if startsWith k "__data_" then (k, v + (pad : Int)) else (k, v)) =
        (k, if startsWith k "__data_" then v + (pad : Int) else v) := by
      split <;> rfl
    simp only [shiftData, List.map_cons, key, Dict.get?] at ih ⊢
    split
    · next same => rw [same, Option.map_some]
    · exact ih

/-- The gap that the linker puts between the code and the data. -/
def dataGap (opts : Options) (a : Assembler) : Nat := if opts.wx then wxPad a.code.length else 0

section Targets

variable {opts : Options} {g : CodeGenerator} {a : Assembler}

/-- Only labels and data are linked to anything. -/
theorem target_cases {name : String} {v : Int} (found : (targetOffsets opts g a).get? name = some v) :
    (∃ o, a.labels.get? name = some o) ∨ ∃ key off, name = data key ∧ g.dataLayout.get? key = some off := by
  have known : ∃ v, (addData a.code.length g.dataLayout a.labelOffsets).get? name = some v := by
    unfold targetOffsets at found
    split at found
    · rw [shiftData_get?] at found
      obtain ⟨v, inner, -⟩ := Option.map_eq_some_iff.mp found
      exact ⟨v, inner⟩
    · exact ⟨v, found⟩
  by_cases datum : ∃ key ∈ g.dataLayout.keys, data key = name
  · obtain ⟨key, member, same⟩ := datum
    obtain ⟨off, entry⟩ := Dict.get?_of_mem_keys member
    exact .inr ⟨key, off, same.symm, entry⟩
  · obtain ⟨v, known⟩ := known
    rw [addData_other fun key member same => datum ⟨key, member, same⟩, Assembler.labelOffsets, Dict.get?_map_value] at known
    obtain ⟨o, label, -⟩ := Option.map_eq_some_iff.mp known
    exact .inl ⟨o, label⟩

variable (done : Finished g a)
include done

/-- The labels of the code. -/
theorem Finished.codeLabel {name : String} {o : Nat} (found : a.labels.get? name = some o) : CodeLabel name := by
  rw [Assembler.run_labels done.run] at found
  simp only [Assembler.empty, List.length_nil, Dict.get?, Option.none_or] at found
  obtain ⟨before, after, shape, -⟩ := Assembler.labelsFrom_boundary g.script 0 found
  exact done.labels.label (by rw [shape]; simp)

/-- A label is linked to its offset. -/
theorem Finished.target_label {name : String} {o : Nat} (found : a.labels.get? name = some o) :
    (targetOffsets opts g a).get? name = some (o : Int) := by
  have code := done.codeLabel found
  have offset : (addData a.code.length g.dataLayout a.labelOffsets).get? name = some (o : Int) := by
    rw [addData_other, Assembler.labelOffsets, Dict.get?_map_value, found]
    · rfl
    · intro k _ same
      have := data_startsWith k
      rw [same, code] at this
      cases this
  unfold targetOffsets
  split
  · rw [shiftData_get?, offset, code]
    rfl
  · exact offset

/-- A datum is linked to its offset behind the code and the gap. -/
theorem Finished.target_data {name : String} {off : Int} (found : g.dataLayout.get? name = some off) :
    (targetOffsets opts g a).get? (data name) = some (a.code.length + off + dataGap opts a) := by
  have offset := addData_data a.code.length a.labelOffsets done.layout found
  unfold targetOffsets dataGap
  split
  · rw [shiftData_get?, offset, Option.map_some, data_startsWith]
    rfl
  · rw [offset]
    simp

end Targets

end Aclm.Codegen
