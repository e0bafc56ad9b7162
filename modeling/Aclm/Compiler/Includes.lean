import Aclm.Compiler
import Aclm.Unfolding

/-! Includes: when `resolve_includes` finds a circle, and what it returns. -/

set_option autoImplicit false

namespace Aclm.Compiler

open Text

/-- A file as it is opened: the name it is opened with and its text. -/
structure Source where
  name : Text
  text : Text
deriving DecidableEq

/-- The name by which an opened file is remembered. -/
def pathOf (disk : Disk) (name : Text) : Text := if name ≠ "<src>".toList then disk.abspath name else name

variable (disk : Disk)

namespace Source

def baseDir (s : Source) : Text :=
  if pathOf disk s.name ≠ "<src>".toList then Path.dirname (pathOf disk s.name) else disk.getcwd

/-- The file that a line includes. -/
def target (baseDir line : Text) : Option Source := do
  let inc ← includeOf line
  let found ← (candidates disk baseDir inc).find? disk.isfile
  let text ← (disk.read found).toOption
  some ⟨found, text⟩

def piece (baseDir line : Text) : Text ⊕ Source :=
  match target disk baseDir line with
  | some s => .inr s
  | none => .inl line

def mark (text : String) (name : Text) : Text := s!"# ---- {text} {String.ofList name} ----\n".toList

end Source

/-- The files, line by line. -/
def sources : Documents Source Text Char where
  pieces s := (splitLines s.text).map (Source.piece disk (s.baseDir disk))
  key s := pathOf disk s.name
  around s body := Source.mark "include" s.name ++ endWithNewline body ++ Source.mark "end include" s.name

/-- Every include line of the file names a file that is there and can be read. -/
def Source.Complete (s : Source) : Prop :=
  ∀ line ∈ splitLines s.text, (includeOf line).isSome = true → (target disk (s.baseDir disk) line).isSome = true

instance (s : Source) : Decidable (s.Complete disk) :=
  inferInstanceAs (Decidable (∀ line ∈ splitLines s.text, _ = true → _ = true))

/-- All files that the include lines lead to are there. -/
def AllThere (start : Source) : Prop := ∀ route s, (sources disk).Leads [.inr start] route s → s.Complete disk

def raised : Documents.Stop Text → PyErr
  | .tooDeep => .recursionError
  | .again path => .systemExit s!"circular include: {String.ofList path}"

/-- Following include lines from the start file leads back to a file that is still being expanded. -/
def Circular (start : Source) : Prop := (sources disk).Cyclic [.inr start]

/-- No file is reached from the start file along two different sequences of include lines. -/
def EachOnce (start : Source) : Prop := (sources disk).Once ∅ [.inr start]

/-- The error for circular includes is raised exactly when there is a circle; without one, the text comes back with each
include line replaced by the expansion of the included file. -/
def CirclesFound (limit : Nat) (start : Source) : Prop :=
  ((∃ path : String, resolved disk limit start.text start.name = .error (.systemExit s!"circular include: {path}")) ↔
      Circular disk start) ∧
    (¬ Circular disk start → ∃ out, resolved disk limit start.text start.name = .ok out ∧
      (sources disk).Expands ((sources disk).pieces start) out)

variable {disk}

/-- What the code computes for the lines of a file is their expansion. -/
theorem resolveLines_eq {n : Nat}
    (nested : ∀ seen s, (∀ route u, (sources disk).Leads [.inr s] route u → u.Complete disk) →
      resolveIncludes disk n seen s.text s.name = ((sources disk).expand n seen s).mapError raised)
    {baseDir : Text} {lines : List Text} (there : ∀ line ∈ lines, (includeOf line).isSome = true →
      (Source.target disk baseDir line).isSome = true)
    (within : ∀ route u, (sources disk).Leads (lines.map (Source.piece disk baseDir)) route u → u.Complete disk)
    (seen : List Text) :
    resolveLines disk (resolveIncludes disk n) baseDir seen lines =
      ((sources disk).expandPieces ((sources disk).expand n) seen (lines.map (Source.piece disk baseDir))).mapError raised := by
  induction lines generalizing seen with
  | nil => rfl
  | cons line rest ih =>
    have behind (seen : List Text) := ih (fun line member => there line (List.mem_cons_of_mem _ member))
      (fun route u leads => by
        obtain ⟨i, inner, -, later⟩ := leads.cons_tail
        exact within _ u later) seen
    rw [resolveLines, List.map_cons]
    cases found : includeOf line with
    -- A plain line is a piece of text.
    | none =>
      have plain : Source.piece disk baseDir line = .inl line := by
        rw [Source.piece, Source.target, found]
        rfl
      rw [plain, Documents.expandPieces, behind]
      cases (sources disk).expandPieces ((sources disk).expand n) seen (rest.map (Source.piece disk baseDir)) <;> rfl
    -- The document of an include is expanded first, and what it has opened is seen by the lines behind it.
    | some inc =>
      obtain ⟨s, target⟩ := Option.isSome_iff_exists.mp (there line List.mem_cons_self (by rw [found]; rfl))
      have document : Source.piece disk baseDir line = .inr s := by rw [Source.piece, target]
      have inner := nested seen s fun route u leads => by
        refine within route u ?_
        rw [List.map_cons, document]
        exact leads.first _
      rw [document, Documents.expandPieces]
      obtain ⟨inc', same, opened⟩ := Option.bind_eq_some_iff.mp target
      obtain ⟨name, place, opened⟩ := Option.bind_eq_some_iff.mp opened
      obtain ⟨text, read, made⟩ := Option.bind_eq_some_iff.mp opened
      cases made
      cases found.symm.trans same
      obtain read : disk.read name = .ok text := by
        cases contents : disk.read name with
        | error e =>
          rw [contents] at read
          cases read
        | ok t =>
          rw [contents] at read
          cases read
          rfl
      simp only [place, read, ok_bind, inner]
      cases (sources disk).expand n seen ⟨name, text⟩ with
      | error stop => rfl
      | ok result =>
        obtain ⟨opened, body⟩ := result
        change (resolveLines disk (resolveIncludes disk n) baseDir opened rest >>= _) =
          ((sources disk).expandPieces ((sources disk).expand n) opened _ >>= _).mapError raised
        rw [behind]
        cases (sources disk).expandPieces ((sources disk).expand n) opened (rest.map (Source.piece disk baseDir)) <;> rfl

theorem resolveIncludes_eq (n : Nat) (seen : List Text) {s : Source} (there : AllThere disk s) :
    resolveIncludes disk n seen s.text s.name = ((sources disk).expand n seen s).mapError raised := by
  induction n generalizing seen s with
  | zero => rfl
  | succ n ih =>
    rw [resolveIncludes, Documents.expand]
    by_cases old : pathOf disk s.name ∈ seen
    · rw [if_pos (show (sources disk).key s ∈ seen from old)]
      exact if_pos old
    · rw [if_neg (show (sources disk).key s ∉ seen from old)]
      refine (if_neg old).trans (resolveLines_eq (fun seen s there => ih seen there) (there [0] s .head) ?_ _)
      exact fun route u leads => there _ u leads.into

theorem isfile_of_piece {u w : Source} (member : .inr w ∈ (sources disk).pieces u) : disk.isfile w.name = true := by
  obtain ⟨line, -, same⟩ := List.mem_map.mp member
  rw [Source.piece] at same
  cases target : Source.target disk (u.baseDir disk) line with
  | none =>
    rw [target] at same
    cases same
  | some s =>
    rw [target] at same
    cases same
    obtain ⟨inc, -, opened⟩ := Option.bind_eq_some_iff.mp target
    obtain ⟨name, place, opened⟩ := Option.bind_eq_some_iff.mp opened
    obtain ⟨text, -, made⟩ := Option.bind_eq_some_iff.mp opened
    cases made
    exact List.find?_some place

/-- In a finite file system with all included files there, the circles are found exactly if there is one or every file is
reached only once. -/
theorem circles_found_iff {files : List Text} (finite : ∀ name, disk.isfile name = true → pathOf disk name ∈ files)
    {limit : Nat} (deep : files.length + 1 < limit) {start : Source} (there : AllThere disk start) :
    CirclesFound disk limit start ↔ Circular disk start ∨ EachOnce disk start := by
  have listed : ∀ k ∈ (sources disk).keys [.inr start], k ∈ pathOf disk start.name :: files := by
    rintro k ⟨route, w, leads, rfl⟩
    rcases leads.piece with first | ⟨u, member⟩
    · cases List.mem_singleton.mp first
      exact List.mem_cons_self
    · exact List.mem_cons_of_mem _ (finite _ (isfile_of_piece member))
  obtain ⟨once, twice⟩ := Documents.expand_iff listed deep
  have same := resolveIncludes_eq limit [] there
  constructor
  · intro found
    by_contra neither
    obtain ⟨straight, again⟩ := not_or.mp neither
    obtain ⟨out, ok, -⟩ := found.2 straight
    obtain ⟨k, stopped⟩ := twice again
    rw [resolved, same, stopped] at ok
    cases ok
  · rintro (circle | each)
    · obtain ⟨k, stopped⟩ := twice fun each => each.not_cyclic circle
      refine ⟨iff_of_true ⟨String.ofList k, ?_⟩ circle, fun straight => absurd circle straight⟩
      rw [resolved, same, stopped]
      rfl
    · obtain ⟨seen, out, ok, expands⟩ := once each
      have returned : resolved disk limit start.text start.name = .ok out := by
        rw [resolved, same, ok]
        rfl
      refine ⟨iff_of_false ?_ each.not_cyclic, fun _ => ⟨out, returned, expands⟩⟩
      rintro ⟨path, stopped⟩
      cases returned.symm.trans stopped

/-! ### A file in itself, and a file twice -/

/-- The root directory with one file. -/
def oneFile (file : Source) : Disk where
  getcwd := "/".toList
  package := "/aclm".toList
  isfile path := path = file.name
  read path := if path = file.name then .ok file.text else .error (.osError "no such file")

theorem oneFile_finite (file : Source) (name : Text) (found : (oneFile file).isfile name = true) :
    pathOf (oneFile file) name ∈ [pathOf (oneFile file) file.name] := by
  rw [of_decide_eq_true found]
  exact List.mem_singleton_self _

def inItself : Source := ⟨"/m".toList, "include: \"m\"\n".toList⟩

theorem inItself_pieces : (sources (oneFile inItself)).pieces inItself = [.inr inItself] := by decide

theorem circles_found_self : CirclesFound (oneFile inItself) 3 inItself := by
  have there : AllThere (oneFile inItself) inItself := by
    intro route s leads
    obtain rfl : s = inItself := by
      refine leads.within ?_ fun w member => Sum.inr.inj (List.mem_singleton.mp member)
      rintro u rfl w member
      rw [inItself_pieces] at member
      exact Sum.inr.inj (List.mem_singleton.mp member)
    decide
  refine (circles_found_iff (oneFile_finite inItself) (by decide) there).mpr (.inl ?_)
  exact ⟨[0], [0], inItself, inItself, .head, inItself_pieces ▸ .head, rfl⟩

def shared : Source := ⟨"/a".toList, "cpu:nop\n".toList⟩

def twice : Source := ⟨"/m".toList, "include: \"a\"\ninclude: \"a\"\n".toList⟩

/-- No circle, but a file that is included twice. -/
theorem circles_found_wrong : ¬ CirclesFound (oneFile shared) 5 twice := by
  intro found
  have raised : resolved (oneFile shared) 5 twice.text twice.name = .error (.systemExit "circular include: /a") := by
    decide
  have leaf : (sources (oneFile shared)).pieces shared = [.inl shared.text] := by decide
  have inner : (sources (oneFile shared)).pieces twice = [.inr shared, .inr shared] := by decide
  obtain ⟨route, back, u, w, leads, returns, same⟩ := found.1.mp ⟨"/a", raised⟩
  have reached : u = twice ∨ u = shared := by
    refine leads.within (S := fun u => u = twice ∨ u = shared) ?_
      fun w member => .inl (Sum.inr.inj (List.mem_singleton.mp member))
    rintro u (rfl | rfl) w member
    · rw [inner] at member
      exact .inr (by simpa using member)
    · rw [leaf] at member
      cases List.mem_singleton.mp member
  have below : w = shared ∧ u = twice := by
    rcases reached with rfl | rfl
    · refine ⟨returns.within (S := (· = shared)) ?_ fun w member => ?_, rfl⟩
      · rintro u rfl w member
        rw [leaf] at member
        cases List.mem_singleton.mp member
      · rw [inner] at member
        simpa using member
    · rw [leaf] at returns
      rcases Documents.leads_cons.mp returns with ⟨u, document, _⟩ | ⟨i, inner, -, later⟩
      · cases document
      · exact absurd later Documents.not_leads_nil
  obtain ⟨rfl, rfl⟩ := below
  exact absurd same (by decide)

end Aclm.Compiler
