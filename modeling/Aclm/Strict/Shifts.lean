import Aclm.Compiler
import Mathlib.Data.List.Infix

/-! What the strict mode knows of the double shifts with RCX among their operands, against what is compiled. -/

set_option autoImplicit false

namespace Aclm.Strict

open Text Compiler

variable (U : CharClasses) (C : Casing) (disk : Disk)

/-! ### The statements of a program -/

/-- A double shift with the register of its count among its operands. -/
def ShiftsCount : Op → Prop
  | .cpuShld dest src | .cpuShrd dest src => resolve dest = .ok .rcx ∨ resolve src = .ok .rcx
  | _ => False

def UsesCount (p : Program) : Prop := ∃ op ∈ p.ops, ShiftsCount op

/-! ### What is reported -/

/-- The names that the analysis knows for the register of the count. -/
def COUNT : List String := ["reg3", "rcx", "ecx"]

/-- A line has the statement spelled in one piece, and a name of RCX as a word, outside its comment. -/
def Flagged (text : Text) : Prop :=
  ∃ line ∈ lines text, let low := C.lower (beforeHash line)
    ("cpu:shld".toList <:+: low ∨ "cpu:shrd".toList <:+: low) ∧
      ∃ name ∈ COUNT, IsWord U name.toList low

theorem infix_lstrip {piece : Text} (solid : ∀ c ∈ piece, isSpace c = false) (some : piece ≠ []) (text : Text) :
    piece <:+: lstrip text ↔ piece <:+: text := by
  constructor
  · exact fun inner => inner.trans (List.dropWhile_suffix _).isInfix
  · rintro ⟨before, after, rfl⟩
    exact ⟨before.dropWhile isSpace, after, (lstrip_around solid some before after).symm⟩

theorem infix_strip {piece : Text} (solid : ∀ c ∈ piece, isSpace c = false) (some : piece ≠ []) (text : Text) :
    piece <:+: rstrip (lstrip text) ↔ piece <:+: text := by
  have back := infix_lstrip (show ∀ c ∈ piece.reverse, isSpace c = false by simpa using solid) (by simpa using some)
    (lstrip text).reverse
  rw [List.reverse_infix, infix_lstrip solid some] at back
  rw [← back, ← List.reverse_infix, rstrip, List.reverse_reverse]
  rfl

theorem within_iff (sub : String) (low : Text) : within sub low = true ↔ sub.toList <:+: low := decide_eq_true_iff

theorem lineFindings_error {low : Text} {i : Nat} :
    (∃ f ∈ lineFindings U low i, f.severity = .error) ↔
      (within "cpu:shld" low = true ∨ within "cpu:shrd" low = true) ∧ ∃ name ∈ COUNT, hasWord U low name = true := by
  have count : (∃ name ∈ COUNT, hasWord U low name = true) ↔
      (hasWord U low "reg3" = true ∨ hasWord U low "rcx" = true) ∨ hasWord U low "ecx" = true := by
    simp [COUNT, or_assoc]
  simp only [lineFindings, List.mem_append, List.mem_ite_nil_right, List.mem_singleton, count, Bool.and_eq_true,
    Bool.or_eq_true]
  constructor
  · rintro ⟨f, (((⟨found, -⟩ | ⟨-, rfl⟩) | ⟨-, rfl⟩) | ⟨-, rfl⟩) | ⟨-, rfl⟩, severity⟩
    · exact found
    all_goals cases severity
  · exact fun found => ⟨_, .inl (.inl (.inl (.inl ⟨found, rfl⟩))), rfl⟩

/-- Neither the blanks around a line nor its number matter. -/
theorem lineFindings_strip (line : Text) (i : Nat) :
    (∃ f ∈ lineFindings U (rstrip (lstrip line)) i, f.severity = .error) ↔
      ("cpu:shld".toList <:+: line ∨ "cpu:shrd".toList <:+: line) ∧ ∃ name ∈ COUNT, IsWord U name.toList line := by
  have solid : ∀ name ∈ "cpu:shld" :: "cpu:shrd" :: COUNT, name.toList ≠ [] ∧ ∀ c ∈ name.toList, isSpace c = false := by
    decide
  have piece {name : String} (member : name ∈ "cpu:shld" :: "cpu:shrd" :: COUNT) :
      within name (rstrip (lstrip line)) = true ↔ name.toList <:+: line :=
    (within_iff _ _).trans (infix_strip (solid name member).2 (solid name member).1 line)
  rw [lineFindings_error, piece (by simp), piece (by simp)]
  refine and_congr_right fun _ => exists_congr fun name => and_congr_right fun member => ?_
  obtain ⟨some, whole⟩ := solid name (by simp [member])
  rw [hasWord_iff U some, isWord_strip U whole some]

/-- The analysis has an error exactly for the texts with such a line. -/
theorem hasErrors_iff (text : Text) : hasErrors (analyzeSource U C text) = true ↔ Flagged U C text := by
  have others : ∀ f ∈ dualNamings U (lows C text), f.severity ≠ .error := by
    intro f member
    obtain ⟨entry, -, rfl⟩ := List.mem_map.mp member
    exact nofun
  simp only [hasErrors, List.any_eq_true, decide_eq_true_eq, mem_analyzeSource]
  constructor
  · rintro ⟨f, ⟨low, i, placed, -, member⟩ | member | ⟨-, rfl⟩, severity⟩
    · obtain ⟨line, inText, rfl⟩ := List.mem_map.mp (List.fst_mem_of_mem_zipIdx placed)
      exact ⟨line, inText, (lineFindings_strip U _ i).mp ⟨f, member, severity⟩⟩
    · exact absurd severity (others f member)
    · cases severity
  · rintro ⟨line, inText, flagged⟩
    have listed : rstrip (lstrip (C.lower (beforeHash line))) ∈ lows C text := List.mem_map_of_mem inText
    obtain ⟨n, inside, same⟩ := List.getElem_of_mem listed
    have placed : (rstrip (lstrip (C.lower (beforeHash line))), 1 + n) ∈ (lows C text).zipIdx 1 := by
      rw [List.mk_add_mem_zipIdx_iff_getElem?, List.getElem?_eq_getElem inside, same]
    obtain ⟨f, member, severity⟩ := (lineFindings_strip U _ (1 + n)).mpr flagged
    refine ⟨f, .inl ⟨_, _, placed, fun empty => ?_, member⟩, severity⟩
    rw [empty] at member
    obtain ⟨-, name, -, found⟩ := (lineFindings_error U).mp ⟨f, member, severity⟩
    cases found

/-! ### The text that is analysed -/

theorem splitLinesFrom_flatten (line text : Text) : (splitLinesFrom line text).flatten = line ++ text := by
  fun_induction splitLinesFrom line text with
  | case1 => rfl
  | case2 line other => simp
  | case3 line s ih => simp [ih]
  | case4 line c s _ stop ih => simp [ih]
  | case5 line c s _ stop ih => simp [ih]

theorem includeOf_within {line inc : Text} (found : includeOf line = some inc) : "include:".toList <:+: line := by
  unfold includeOf at found
  split at found
  · next s begun =>
    have inner : "include:".toList <:+: lstrip line := ⟨[], s, by simp [begun]⟩
    exact inner.trans (List.dropWhile_suffix _).isInfix
  · cases found

/-- A text in which no line includes a file is its own resolution. -/
theorem resolveLines_plain (nested : List Text → Text → Text → Except PyErr (List Text × Text)) (baseDir : Text)
    (seen : List Text) {source : List Text} (plain : ∀ line ∈ source, includeOf line = none) :
    resolveLines disk nested baseDir seen source = .ok (seen, source.flatten) := by
  induction source with
  | nil => rfl
  | cons line rest ih =>
    rw [resolveLines, plain line List.mem_cons_self]
    simp only [ih fun line member => plain line (List.mem_cons_of_mem _ member), ok_bind]
    rfl

/-- What is analysed is the text with its includes resolved. -/
theorem analysed_eq {limit : Nat} {src path text expanded : Text} (looked : analysed disk limit src path = .ok expanded)
    (whole : resolved disk limit src path = .ok text) : expanded = text := by
  unfold analysed at looked
  split at looked
  · exact Except.ok.inj (looked.symm.trans whole)
  · next absent =>
    have plain : ∀ line ∈ splitLines src, includeOf line = none := by
      intro line member
      cases found : includeOf line with
      | none => rfl
      | some inc =>
        have inner : line <:+: (splitLines src).flatten := List.infix_of_mem_flatten member
        rw [splitLines, splitLinesFrom_flatten, List.nil_append] at inner
        exact absurd ((within_iff _ _).mpr ((includeOf_within found).trans inner)) absent
    cases limit with
    | zero => cases whole
    | succ limit =>
      simp only [resolved, resolveIncludes, List.not_mem_nil, if_false, resolveLines_plain disk _ _ _ plain] at whole
      cases looked
      cases whole
      exact (splitLinesFrom_flatten [] src).symm

/-! ### Soundness -/

/-- A file compiles: its text with the includes resolved, and the program that this text is. -/
def Compiles (limit : Nat) (opts : Options) (path text : Text) (p : Program) : Prop :=
  ∃ src, disk.read path = .ok src ∧ resolved disk limit (withoutModes C src) path = .ok text ∧
    programOf U text path = .ok p ∧ (generate opts p).isOk = true

/-- `compile_file` comes to an image. -/
def Accepts (limit : Nat) (opts : Options) (strict warn : Bool) (path : Text) : Prop :=
  (compileFile U C disk limit opts strict warn path).isOk = true

theorem isOk_mapError {α : Type} (x : Except PyErr α) (f : PyErr → PyErr) : (x.mapError f).isOk = x.isOk := by
  cases x <;> rfl

theorem compileSource_isOk (limit : Nat) (opts : Options) (src path : Text) :
    (compileSource U disk limit opts src path).isOk = true ↔
      ∃ text p, resolved disk limit src path = .ok text ∧ programOf U text path = .ok p ∧ (generate opts p).isOk = true := by
  constructor
  · intro ok
    obtain ⟨image, found⟩ := exists_of_isOk ok
    obtain ⟨text, whole, rest⟩ := bind_eq_ok.mp found
    obtain ⟨p, program, made⟩ := bind_eq_ok.mp rest
    exact ⟨text, p, whole, program, by rw [made]; rfl⟩
  · rintro ⟨text, p, whole, program, made⟩
    rw [compileSource, whole, ok_bind, program, ok_bind, made]

/-- In strict mode a file comes to an image when it compiles and no line of the text before the macros is flagged. -/
theorem accepts_iff (limit : Nat) (opts : Options) (warn : Bool) (path : Text) :
    Accepts U C disk limit opts true warn path ↔
      ∃ text p, Compiles U C disk limit opts path text p ∧ ¬ Flagged U C text := by
  unfold Accepts compileFile
  constructor
  · intro ok
    obtain ⟨image, found⟩ := exists_of_isOk ok
    obtain ⟨src, read, rest⟩ := bind_eq_ok.mp found
    simp only [Bool.true_or, if_true, Bool.true_and] at rest
    obtain ⟨expanded, looked, rest⟩ := bind_eq_ok.mp rest
    split at rest
    · cases rest
    · next silent =>
      have ok : (compileSource U disk limit opts (withoutModes C src) path).isOk = true := by
        rw [← isOk_mapError _ reportedError, rest]
        rfl
      obtain ⟨text, p, whole, program, made⟩ := (compileSource_isOk U disk limit opts _ path).mp ok
      obtain rfl := analysed_eq disk looked whole
      exact ⟨expanded, p, ⟨src, read, whole, program, made⟩, fun flagged => silent ((hasErrors_iff U C expanded).mpr flagged)⟩
  · rintro ⟨text, p, ⟨src, read, whole, program, made⟩, silent⟩
    have looked : analysed disk limit (withoutModes C src) path = .ok text := by
      cases found : analysed disk limit (withoutModes C src) path with
      | ok expanded => rw [analysed_eq disk found whole]
      | error e =>
        unfold analysed at found
        split at found
        · exact found.symm.trans whole
        · cases found
    have clean : hasErrors (analyzeSource U C text) = false := by
      rw [← Bool.not_eq_true, hasErrors_iff]
      exact silent
    have ok := (compileSource_isOk U disk limit opts _ path).mpr ⟨text, p, whole, program, made⟩
    rw [← isOk_mapError _ reportedError] at ok
    simp only [read, ok_bind, Bool.true_or, if_true, looked, clean, Bool.and_false, Bool.false_eq_true, if_false]
    exact ok

theorem Compiles.unique {limit : Nat} {opts : Options} {path text text' : Text} {p p' : Program}
    (one : Compiles U C disk limit opts path text p) (other : Compiles U C disk limit opts path text' p') :
    text = text' ∧ p = p' := by
  obtain ⟨src, read, whole, program, -⟩ := one
  obtain ⟨src', read', whole', program', -⟩ := other
  obtain rfl := Except.ok.inj (read.symm.trans read')
  obtain rfl := Except.ok.inj (whole.symm.trans whole')
  exact ⟨rfl, Except.ok.inj (program.symm.trans program')⟩

/-- What the strict mode accepts has no double shift that names the register of its count, exactly for the files in whose
text, with the includes resolved but the macros not yet expanded, the analysis finds one whenever the program has one. -/
theorem strict_shifts_iff (limit : Nat) (opts : Options) (warn : Bool) (path : Text) :
    (Accepts U C disk limit opts true warn path → ∀ text p, Compiles U C disk limit opts path text p → ¬ UsesCount p) ↔
      ∀ text p, Compiles U C disk limit opts path text p → UsesCount p → Flagged U C text := by
  rw [accepts_iff]
  constructor
  · intro sound text p compiles uses
    by_contra silent
    exact sound ⟨text, p, compiles, silent⟩ text p compiles uses
  · rintro seen ⟨text, p, compiles, silent⟩ text' p' compiles' uses
    obtain ⟨rfl, rfl⟩ := compiles.unique U C disk compiles'
    exact silent (seen text p compiles uses)

/-! ### A statement that is not seen -/

/-- One file, with a blank behind the colon. -/
def spaced : Disk where
  getcwd := "/".toList
  package := "/aclm".toList
  isfile path := path = "/f".toList
  read path := if path = "/f".toList then .ok "cpu: shld reg3, reg1\n".toList else .error (.osError "no such file")

/-- Whether a text reads as one shift by CL that is built, with CL's register for its destination. -/
def buildsCount : Except PyErr Program → Bool
  | .ok ⟨[.op line (.cpuShld dest src)]⟩ => (generate ⟨false, false, false⟩ ⟨[.op line (.cpuShld dest src)]⟩).isOk &&
      decide (resolve dest = .ok .rcx)
  | _ => false

theorem strict_shifts_wrong :
    Accepts .ascii .ascii spaced 1 ⟨false, false, false⟩ true false "/f".toList ∧
      ∃ text p, Compiles .ascii .ascii spaced 1 ⟨false, false, false⟩ "/f".toList text p ∧ UsesCount p := by
  have found : buildsCount (programOf .ascii "cpu: shld reg3, reg1".toList "/f".toList) = true := by decide +kernel
  refine ⟨by unfold Accepts; decide +kernel, ?_⟩
  unfold buildsCount at found
  split at found
  · next line dest src program =>
    obtain ⟨made, count⟩ := Bool.and_eq_true_iff.mp found
    have whole : resolved spaced 1 (withoutModes .ascii "cpu: shld reg3, reg1\n".toList) "/f".toList =
        .ok "cpu: shld reg3, reg1".toList := by decide +kernel
    exact ⟨_, _, ⟨_, rfl, whole, program, made⟩, _, List.mem_singleton.mpr rfl, .inl (of_decide_eq_true count)⟩
  · cases found

end Aclm.Strict
