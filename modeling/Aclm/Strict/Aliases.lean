import Aclm.Strict

/-! When the analysis tells that a text names one register in two ways. -/

set_option autoImplicit false

namespace Aclm.Strict

open Text
open X64 (Reg)

variable (U : CharClasses) (C : Casing)

/-- A text uses a name outside its comments, as a whole word and in either case. -/
def Uses (src : Text) (name : String) : Prop :=
  ∃ line ∈ lines src, IsWord U name.toList (C.lower (beforeHash line))

def UsesOne (src : Text) (pairs : List (String × String)) : Prop :=
  ∃ pair ∈ pairs, Uses U C src pair.1 ∧ Uses U C src pair.2

def virtualNames : List String := VIRTUAL.keys ++ VIRTUAL_COMPAT.keys

/-- The hardware names, with the names of the 32-bit halves or without. -/
def hardwareNames (halves : Bool) : List String := PHYSICAL.keys ++ if halves then PARTIAL32.keys else []

/-- A virtual name and a hardware name that resolve to one register, both of them used. -/
def Aliased (halves : Bool) (src : Text) : Prop :=
  ∃ virt ∈ virtualNames, ∃ phys ∈ hardwareNames halves, ∃ r, resolve virt = .ok r ∧ resolve phys = .ok r ∧
    Uses U C src virt ∧ Uses U C src phys

def Reported (src : Text) : Prop :=
  ∃ f ∈ analyzeSource U C src, ∃ phys virt, f = dualNaming phys virt

/-- The pairs on which the table of the analysis and the register map agree. -/
def COMMON : List (String × String) :=
  [("reg1", "rax"), ("reg2", "rbx"), ("reg3", "rcx"), ("reg4", "rdx"), ("reg5", "rsi"), ("reg6", "rdi"),
   ("reg7", "r8"), ("reg8", "r9"), ("reg9", "r10")]

/-- The pairs that the analysis alone takes for one register: it still counts R11 among those with a virtual name. -/
def FALSE_ALARMS : List (String × String) := [("reg10", "r11"), ("reg11", "r12"), ("reg12", "r13")]

/-- The pairs that name one register and that the analysis passes over. -/
def missed (halves : Bool) : List (String × String) :=
  [("reg10", "r12"), ("reg11", "r13"), ("reg12", "r14"), ("reg13", "r14")] ++
    if halves then
      [("reg1", "eax"), ("reg2", "ebx"), ("reg3", "ecx"), ("reg4", "edx"), ("reg5", "esi"), ("reg6", "edi"),
       ("reg7", "r8d"), ("reg8", "r9d"), ("reg9", "r10d"), ("reg10", "r12d"), ("reg11", "r13d"),
       ("reg12", "r14d"), ("reg13", "r14d")]
    else []

/-- Every name in the tables is a word with no blank in it. -/
def Solid (name : String) : Prop := name.toList ≠ [] ∧ ∀ c ∈ name.toList, isSpace c = false

instance (name : String) : Decidable (Solid name) := inferInstanceAs (Decidable (_ ∧ _))

theorem any_hasWord {name : String} (solid : Solid name) (src : Text) :
    (lows C src).any (hasWord U · name) = true ↔ Uses U C src name := by
  simp only [lows, List.any_map, List.any_eq_true, Function.comp_apply, hasWord_iff U solid.1,
    isWord_strip U solid.2 solid.1, Uses]

theorem mem_dualNamings (f : Finding) (src : Text) :
    f ∈ dualNamings U (lows C src) ↔
      ∃ pair ∈ COMMON ++ FALSE_ALARMS, (Uses U C src pair.1 ∧ Uses U C src pair.2) ∧ f = dualNaming pair.2 pair.1 := by
  have solid : ∀ entry ∈ PHYS_TO_VIRT, Solid entry.1 ∧ Solid entry.2 := by decide
  -- The names of the R14 of the analysis are not both names it looks for.
  have known : ∀ pair : String × String,
      pair ∈ COMMON ++ FALSE_ALARMS ↔ (pair.2, pair.1) ∈ PHYS_TO_VIRT ∧ pair.1 ∈ VIRTUAL.keys := by
    have forth : ∀ pair ∈ COMMON ++ FALSE_ALARMS, (pair.2, pair.1) ∈ PHYS_TO_VIRT ∧ pair.1 ∈ VIRTUAL.keys := by decide
    have back : ∀ entry ∈ PHYS_TO_VIRT, entry.2 ∈ VIRTUAL.keys → (entry.2, entry.1) ∈ COMMON ++ FALSE_ALARMS := by
      decide
    exact fun pair => ⟨forth pair, fun known => back _ known.1 known.2⟩
  simp only [dualNamings, List.mem_map, List.mem_filter, decide_eq_true_eq, usedPhys, usedVirtual]
  constructor
  · rintro ⟨⟨phys, virt⟩, ⟨entry, ⟨-, usesPhys⟩, listed, usesVirt⟩, rfl⟩
    rw [any_hasWord U C (solid _ entry).1] at usesPhys
    rw [any_hasWord U C (solid _ entry).2] at usesVirt
    exact ⟨(virt, phys), (known _).mpr ⟨entry, listed⟩, ⟨usesVirt, usesPhys⟩, rfl⟩
  · rintro ⟨⟨virt, phys⟩, member, ⟨usesVirt, usesPhys⟩, rfl⟩
    obtain ⟨entry, listed⟩ := (known _).mp member
    refine ⟨(phys, virt), ⟨entry, ⟨?_, ?_⟩, listed, ?_⟩, rfl⟩
    · exact List.mem_map_of_mem entry
    · exact (any_hasWord U C (solid _ entry).1 src).mpr usesPhys
    · exact (any_hasWord U C (solid _ entry).2 src).mpr usesVirt

/-- What is reported for a line does not look like a dual naming. -/
theorem lineFindings_other {low : Text} {i : Nat} {f : Finding} (member : f ∈ lineFindings U low i)
    (phys virt : String) : f ≠ dualNaming phys virt := by
  have begun : ∃ text, f.message = atLine i text := by
    simp only [lineFindings, List.mem_append, List.mem_ite_nil_right, List.mem_singleton] at member
    rcases member with (((⟨-, rfl⟩ | ⟨-, rfl⟩) | ⟨-, rfl⟩) | ⟨-, rfl⟩) | ⟨-, rfl⟩ <;> exact ⟨_, rfl⟩
  obtain ⟨text, begun⟩ := begun
  intro same
  have first : ("line " ++ toString i ++ ": " ++ text).toList.head? =
      ("file uses both '" ++ virt ++ "' and '" ++ phys ++ "' (identical physical register)").toList.head? :=
    congrArg (fun s : String => s.toList.head?) (begun.symm.trans (congrArg Finding.message same))
  simp at first

theorem reported_iff_usesOne (src : Text) : Reported U C src ↔ UsesOne U C src (COMMON ++ FALSE_ALARMS) := by
  constructor
  · rintro ⟨f, member, phys, virt, dual⟩
    rcases (mem_analyzeSource U C f src).mp member with ⟨low, i, -, -, found⟩ | found | ⟨-, note⟩
    · exact absurd dual (lineFindings_other U found phys virt)
    · obtain ⟨pair, known, uses, -⟩ := (mem_dualNamings U C f src).mp found
      exact ⟨pair, known, uses⟩
    · cases note.symm.trans dual
  · rintro ⟨pair, known, uses⟩
    exact ⟨_, (mem_analyzeSource U C _ src).mpr (.inr (.inl ((mem_dualNamings U C _ src).mpr ⟨pair, known, uses, rfl⟩))),
      pair.2, pair.1, rfl⟩

/-- The names of a table and the registers they resolve to. -/
theorem resolve_named : ∀ entry ∈ VIRTUAL ++ VIRTUAL_COMPAT ++ PHYSICAL ++ PARTIAL32, resolve entry.1 = .ok entry.2 := by
  decide

theorem virtual_resolves {entry : String × Reg} (member : entry ∈ VIRTUAL ++ VIRTUAL_COMPAT) :
    resolve entry.1 = .ok entry.2 :=
  resolve_named entry (List.mem_append_left _ (List.mem_append_left _ member))

theorem virtual_named {virt : String} (isVirtual : virt ∈ virtualNames) :
    ∃ r, (virt, r) ∈ VIRTUAL ++ VIRTUAL_COMPAT ∧ resolve virt = .ok r := by
  rw [virtualNames, Dict.keys, Dict.keys, ← List.map_append] at isVirtual
  obtain ⟨entry, member, rfl⟩ := List.mem_map.mp isVirtual
  exact ⟨entry.2, member, virtual_resolves member⟩

/-- The hardware names with their registers, with those of the 32-bit halves or without. -/
def hardwareTable (halves : Bool) : Dict Reg := PHYSICAL ++ if halves then PARTIAL32 else []

theorem mem_hardwareTable {halves : Bool} {entry : String × Reg} (member : entry ∈ hardwareTable halves) :
    entry ∈ PHYSICAL ++ PARTIAL32 := by
  rcases List.mem_append.mp member with whole | half
  · exact List.mem_append_left _ whole
  · cases halves with
    | true => exact List.mem_append_right _ half
    | false => cases half

theorem hardware_resolves {halves : Bool} {entry : String × Reg} (member : entry ∈ hardwareTable halves) :
    resolve entry.1 = .ok entry.2 := by
  refine resolve_named entry ?_
  rw [List.append_assoc]
  exact List.mem_append_right _ (mem_hardwareTable member)

theorem hardware_named {halves : Bool} {phys : String} (hardware : phys ∈ hardwareNames halves) :
    ∃ r, (phys, r) ∈ hardwareTable halves ∧ resolve phys = .ok r := by
  have named : hardwareNames halves = (hardwareTable halves).map Prod.fst := by cases halves <;> rfl
  rw [named] at hardware
  obtain ⟨entry, member, rfl⟩ := List.mem_map.mp hardware
  exact ⟨entry.2, member, hardware_resolves member⟩

theorem aliased_iff (halves : Bool) (src : Text) :
    Aliased U C halves src ↔ UsesOne U C src (COMMON ++ missed halves) := by
  have one : ∀ virt ∈ VIRTUAL ++ VIRTUAL_COMPAT, ∀ phys ∈ hardwareTable halves,
      virt.2 = phys.2 → (virt.1, phys.1) ∈ COMMON ++ missed halves := by
    revert halves
    decide
  have all : ∀ pair ∈ COMMON ++ missed halves, pair.1 ∈ virtualNames ∧ pair.2 ∈ hardwareNames halves ∧
      ∃ entry ∈ VIRTUAL ++ VIRTUAL_COMPAT, entry.1 = pair.1 ∧ (pair.2, entry.2) ∈ hardwareTable halves := by
    clear one
    revert halves
    decide
  constructor
  · rintro ⟨virt, isVirtual, phys, hardware, r, left, right, uses⟩
    obtain ⟨r, named, resolves⟩ := virtual_named isVirtual
    obtain ⟨r', named', resolves'⟩ := hardware_named hardware
    obtain rfl : r = r' := by
      rw [left] at resolves
      rw [right] at resolves'
      cases resolves
      cases resolves'
      rfl
    exact ⟨_, one _ named _ named' rfl, uses⟩
  · rintro ⟨pair, member, uses⟩
    obtain ⟨isVirtual, hardware, entry, listed, name, named⟩ := all pair member
    have virt : resolve pair.1 = .ok entry.2 := by
      rw [← name]
      exact virtual_resolves listed
    have phys : resolve (pair.2, entry.2).1 = .ok entry.2 := hardware_resolves named
    exact ⟨pair.1, isVirtual, pair.2, hardware, entry.2, virt, phys, uses⟩

theorem usesOne_append (src : Text) (left right : List (String × String)) :
    UsesOne U C src (left ++ right) ↔ UsesOne U C src left ∨ UsesOne U C src right := by
  simp only [UsesOne, List.mem_append, or_and_right, exists_or]

/-- A dual naming is told exactly where there is one, except in the texts that use none of the pairs both tables have,
and either one of the false alarms or one of the missed pairs. -/
theorem dual_naming_iff (halves : Bool) (src : Text) :
    (Reported U C src ↔ Aliased U C halves src) ↔
      (UsesOne U C src COMMON ∨ (UsesOne U C src FALSE_ALARMS ↔ UsesOne U C src (missed halves))) := by
  rw [reported_iff_usesOne, aliased_iff, usesOne_append, usesOne_append]
  tauto

/-- The same question put to the search of the analysis. -/
theorem usesOne_iff {pairs : List (String × String)} (solid : ∀ pair ∈ pairs, Solid pair.1 ∧ Solid pair.2) (src : Text) :
    UsesOne U C src pairs ↔
      (pairs.any fun pair => (lows C src).any (hasWord U · pair.1) && (lows C src).any (hasWord U · pair.2)) = true := by
  simp only [UsesOne, List.any_eq_true (l := pairs), Bool.and_eq_true]
  refine exists_congr fun pair => and_congr_right fun member => ?_
  rw [any_hasWord U C (solid pair member).1, any_hasWord U C (solid pair member).2]

/-- R12 by both of its names, with nothing reported; and one of the names of R13 beside that of R12, which is. -/
theorem dual_naming_wrong :
    let U := CharClasses.ascii
    let C := Casing.ascii
    let missedPair := "cpu:set reg10 = r12\n".toList
    let falseAlarm := "cpu:set reg11 = r12\n".toList
    (¬ Reported U C missedPair ∧ Aliased U C false missedPair) ∧ Reported U C falseAlarm ∧ ¬ Aliased U C false falseAlarm := by
  have solid : ∀ pair ∈ COMMON ++ FALSE_ALARMS, Solid pair.1 ∧ Solid pair.2 := by decide
  have solid' : ∀ pair ∈ COMMON ++ missed false, Solid pair.1 ∧ Solid pair.2 := by decide
  simp only [reported_iff_usesOne, aliased_iff, usesOne_iff _ _ solid, usesOne_iff _ _ solid']
  decide

end Aclm.Strict
