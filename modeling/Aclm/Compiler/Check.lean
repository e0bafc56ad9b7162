import Aclm.Codegen.Places
import Aclm.Compiler.ModeLines
import Aclm.Parser.Texts

/-! The two drivers, which build a file and which only check it: one of them leaves out the mode lines before the passes, the
other one has them skipped by the parser. -/

set_option autoImplicit false

namespace Aclm.Compiler

open Text Macros Codegen

/-! ### Lines that the parser skips -/

section Skipped

variable {U : CharClasses} {parser : Parser}

/-- The statements of a text whose local labels have not been renamed yet. -/
def labelled (U : CharClasses) (parser : Parser) (text : Text) : Option (List Stmt) :=
  parser.statementsOf (expandLocalLabels U text)

theorem subLabels_line (known : Locals) (front rest : Text) :
    subLabels U renameLocal known (front ++ '\n' :: rest) = subLabels U renameLocal known front ++
      '\n' :: subLabels U renameLocal (keptAfter renameLocal known (cut U front)) rest := by
  have parted := cutFrom_append (U := U) (c := '\n') (word_ascii U (by decide)) (by decide) rest 0 front (Nat.zero_le _)
  rw [subLabels_eq, cut, parted, subCuts_append, ← cut, ← subLabels_eq, subLabels_eq _ _ rest]
  rfl

theorem labelled_newline (text : Text) : labelled U parser (text ++ ['\n']) = labelled U parser text := by
  rw [labelled, expandLocalLabels, subLabels_line]
  exact Parse.statementsOf_newline _

/-- Behind `front` the line is one of its own that the parser skips, or nothing that follows makes a program. -/
structure Skipped (U : CharClasses) (parser : Parser) (front line : Text) : Prop where
  line : ∃ body, line = body ++ ['\n'] ∧ cut U body = body.map Cut.char ∧ parser.statementsOf body = some []
  begins : front = [] ∨ ∃ before, front = before ++ ['\n']
  outside : (labelled U parser front).isSome = true ∨ ∀ rest, labelled U parser (front ++ rest) = none

theorem subCuts_chars (known : Locals) (body : Text) :
    subCuts renameLocal known (body.map Cut.char) = body ∧ keptAfter renameLocal known (body.map Cut.char) = known := by
  induction body with
  | nil => exact ⟨rfl, rfl⟩
  | cons c body ih => exact ⟨congrArg (c :: ·) ih.1, ih.2⟩

theorem Skipped.labelled {front line : Text} (skipped : Skipped U parser front line) (rest : Text) :
    labelled U parser (front ++ (line ++ rest)) = Compiler.labelled U parser (front ++ rest) := by
  obtain ⟨body, rfl, plain, empty⟩ := skipped.line
  have behind (known : Locals) : parser.statementsOf (subLabels U renameLocal known (body ++ ['\n'] ++ rest)) =
      parser.statementsOf (subLabels U renameLocal known rest) := by
    obtain ⟨same, kept⟩ := subCuts_chars known body
    rw [List.append_assoc, List.singleton_append, subLabels_line, subLabels_eq _ _ body, plain, same, kept,
      Parse.statementsOf_append empty]
    simp only [List.nil_append, Option.map_id']
  rcases skipped.begins with rfl | ⟨before, rfl⟩
  · exact behind ⟨0, []⟩
  · rcases skipped.outside with program | never
    · obtain ⟨stmts, reads⟩ := Option.isSome_iff_exists.mp program
      rw [labelled_newline] at reads
      have parted (rest : Text) := Parse.statementsOf_append reads
        (subLabels U renameLocal (keptAfter renameLocal ⟨0, []⟩ (cut U before)) rest)
      have whole (rest : Text) : Compiler.labelled U parser (before ++ ['\n'] ++ rest) =
          (parser.statementsOf (subLabels U renameLocal (keptAfter renameLocal ⟨0, []⟩ (cut U before)) rest)).map
            (stmts ++ ·) := by
        rw [Compiler.labelled, expandLocalLabels, List.append_assoc, List.singleton_append, subLabels_line]
        exact parted rest
      rw [whole, whole, behind]
    · rw [never, never]

/-- Without the lines that are skipped a text has the same statements. -/
theorem labelled_thinned {M : Text → Prop} {ends : Prop} {lines lines' : List Text} (thin : Thinned M ends lines lines')
    (before : Text) (skipped : ∀ front line back, lines = front ++ line :: back → M line →
      Skipped U parser (before ++ front.flatten) line) :
    labelled U parser (before ++ lines.flatten) = labelled U parser (before ++ lines'.flatten) := by
  induction thin generalizing before with
  | nil => rfl
  | @keep line lines lines' rest ih =>
    have behind := ih (before ++ line) fun front out back split here => by
      have inner := skipped (line :: front) out back (by rw [split]; rfl) here
      rwa [List.flatten_cons, ← List.append_assoc] at inner
    rwa [List.append_assoc, List.append_assoc, ← List.flatten_cons, ← List.flatten_cons] at behind
  | @drop line lines lines' out rest ih =>
    have behind := ih (before ++ line) fun front other back split here => by
      have inner := skipped (line :: front) other back (by rw [split]; rfl) here
      rwa [List.flatten_cons, ← List.append_assoc] at inner
    have first := skipped [] line lines rfl out
    rw [List.flatten_nil, List.append_nil] at first
    rw [List.append_assoc, List.append_assoc] at behind
    rw [List.flatten_cons, behind, first.labelled]
  | blank last => exact (labelled_newline before).trans (congrArg _ (List.append_nil before).symm)
  | @last last line some whole =>
    have end' := @labelled_newline U parser (before ++ line)
    rw [List.append_assoc] at end'
    simpa only [List.flatten_cons, List.flatten_nil, List.append_nil] using end'

end Skipped

/-! ### The lines of a file -/

section Lines

variable {C : Casing}

/-- A line without its end. -/
def Body (body : Text) : Prop := ∀ c ∈ body, lineBreak c = false

def ended (bodies : List Text) : List Text := bodies.map (· ++ ['\n'])

theorem whole_ended {bodies : List Text} (plain : ∀ body ∈ bodies, Body body) : ∀ line ∈ ended bodies, Whole line := by
  intro line member
  obtain ⟨body, inside, rfl⟩ := List.mem_map.mp member
  exact ⟨body, rfl, plain body inside⟩

theorem splitLines_flatten {lines : List Text} (whole : ∀ line ∈ lines, Whole line) (rest : Text) :
    splitLines (lines.flatten ++ rest) = lines ++ splitLines rest := by
  induction lines with
  | nil => rfl
  | cons line lines ih =>
    obtain ⟨here, behind⟩ := List.forall_mem_cons.mp whole
    rw [List.flatten_cons, List.append_assoc, here.splitLines, ih behind]
    rfl

theorem splitLines_body {body : Text} (plain : Body body) (some : body ≠ []) : splitLines body = [body] := by
  have one := splitLinesFrom_plain plain [] []
  rw [List.append_nil, List.nil_append, splitLinesFrom, if_neg some] at one
  exact one

/-- A text whose only line breaks are newlines, line by line. -/
theorem exists_bodies {src : Text} (breaks : ∀ c ∈ src, lineBreak c = true → c = '\n') :
    ∃ bodies last, src = (ended bodies).flatten ++ last ∧ (∀ body ∈ bodies, Body body) ∧ Body last := by
  induction src with
  | nil => exact ⟨[], [], rfl, List.forall_mem_nil _, List.forall_mem_nil _⟩
  | cons c src ih =>
    obtain ⟨here, behind⟩ := List.forall_mem_cons.mp breaks
    obtain ⟨bodies, last, rfl, plain, plain'⟩ := ih behind
    by_cases newline : c = '\n'
    · subst newline
      exact ⟨[] :: bodies, last, rfl, List.forall_mem_cons.mpr ⟨List.forall_mem_nil _, plain⟩, plain'⟩
    · have inner : lineBreak c = false := Bool.eq_false_iff.mpr fun stop => newline (here stop)
      cases bodies with
      | nil => exact ⟨[], c :: last, rfl, plain, List.forall_mem_cons.mpr ⟨inner, plain'⟩⟩
      | cons body bodies =>
        obtain ⟨first, rest⟩ := List.forall_mem_cons.mp plain
        exact ⟨(c :: body) :: bodies, last, rfl, List.forall_mem_cons.mpr ⟨List.forall_mem_cons.mpr ⟨inner, first⟩, rest⟩, plain'⟩

theorem rdropWhile_body {body : Text} (plain : Body body) : body.rdropWhile lineBreak = body := by
  rcases List.eq_nil_or_concat body with rfl | ⟨front, c, rfl⟩
  · rfl
  · rw [List.concat_eq_append] at plain ⊢
    have last := plain c (by simp)
    rw [List.rdropWhile_concat_neg _ _ _ (by simp [last])]

theorem rdropWhile_ended {body : Text} (plain : Body body) : (body ++ ['\n']).rdropWhile lineBreak = body := by
  rw [List.rdropWhile_concat_pos _ _ _ rfl, rdropWhile_body plain]

theorem lines_ended {bodies : List Text} (plain : ∀ body ∈ bodies, Body body) :
    (ended bodies).map (fun line => line.rdropWhile lineBreak) = bodies := by
  rw [ended, List.map_map]
  exact (List.map_congr_left fun body member => rdropWhile_ended (plain body member)).trans (List.map_id bodies)

theorem modeLine_newline (line : Text) : modeLine C (line ++ ['\n']) = modeLine C line := by
  unfold modeLine
  by_cases blank : lstrip line = []
  · rw [lstrip_newline_nil blank, blank]
  · rw [lstrip_newline_some blank, rstrip_newline]

/-- Without the end of the last line. -/
theorem thinned_intercalate {bodies : List Text} (plain : ∀ body ∈ bodies, Body body) :
    Thinned (fun _ => False) True (ended bodies) (splitLines (['\n'].intercalate bodies)) := by
  induction bodies with
  | nil => exact .nil
  | cons body bodies ih =>
    obtain ⟨here, behind⟩ := List.forall_mem_cons.mp plain
    cases bodies with
    | nil =>
      have one : ['\n'].intercalate [body] = body := by simp [List.intercalate]
      rw [one]
      by_cases empty : body = []
      · subst empty
        exact .blank trivial
      · rw [splitLines_body here empty]
        exact .last trivial empty here
    | cons next bodies =>
      have more : ['\n'].intercalate (body :: next :: bodies) = body ++ ['\n'] ++ ['\n'].intercalate (next :: bodies) := by
        simp [List.intercalate]
      rw [more, Whole.splitLines ⟨body, rfl, here⟩]
      exact .keep _ (ih behind)

/-- What a file is made of, line by line: with an end behind its last line, as it is, and before it is built. -/
structure FileLines (C : Casing) (src : Text) (bodies : List Text) : Prop where
  plain {body : Text} (member : body ∈ bodies) : Body body
  closed : splitLines (endWithNewline src) = ended bodies
  whole : Thinned (fun _ => False) True (ended bodies) (splitLines src)
  built : withoutModes C src = ['\n'].intercalate (bodies.filter fun body => !modeLine C body)

theorem fileLines_closed {bodies : List Text} (plain : ∀ body ∈ bodies, Body body) (some : bodies ≠ []) :
    FileLines C (ended bodies).flatten bodies := by
  have lines : splitLines (ended bodies).flatten = ended bodies := by
    have split := splitLines_flatten (whole_ended plain) []
    rwa [List.append_nil, show splitLines [] = [] from rfl, List.append_nil] at split
  have last : endWithNewline (ended bodies).flatten = (ended bodies).flatten := by
    obtain ⟨front, body, rfl⟩ := List.eq_nil_or_concat bodies |>.resolve_left some
    rw [endWithNewline, if_pos (by simp [ended])]
  refine ⟨fun member => plain _ member, by rw [last, lines], ?_, ?_⟩
  · rw [lines]
    exact .refl _
  · rw [withoutModes, Text.lines, lines, lines_ended plain]

theorem fileLines_open {bodies : List Text} {last : Text} (plain : ∀ body ∈ bodies, Body body) (plain' : Body last)
    (some : last ≠ []) : FileLines C ((ended bodies).flatten ++ last) (bodies ++ [last]) := by
  have all : ∀ body ∈ bodies ++ [last], Body body := List.forall_mem_append.mpr ⟨plain, List.forall_mem_singleton.mpr plain'⟩
  have shape : ended (bodies ++ [last]) = ended bodies ++ [last ++ ['\n']] := by simp [ended]
  have lines : splitLines ((ended bodies).flatten ++ last) = ended bodies ++ [last] := by
    rw [splitLines_flatten (whole_ended plain), splitLines_body plain' some]
  have closed : endWithNewline ((ended bodies).flatten ++ last) = (ended (bodies ++ [last])).flatten := by
    have other : ((ended bodies).flatten ++ last).getLast? ≠ Option.some '\n' := by
      rw [List.getLast?_append_of_ne_nil _ some]
      intro same
      have inside := plain' '\n' (List.mem_of_getLast? same)
      cases inside
    rw [endWithNewline, if_neg other, shape, List.flatten_append]
    simp
  refine ⟨fun member => all _ member, ?_, ?_, ?_⟩
  · have split := splitLines_flatten (whole_ended all) []
    rw [List.append_nil, show splitLines [] = [] from rfl, List.append_nil] at split
    rw [closed, split]
  · rw [lines, shape]
    exact (Thinned.refl _).append (.last trivial some plain')
  · rw [withoutModes, Text.lines, lines, List.map_append, lines_ended plain, List.map_singleton, rdropWhile_body plain']

/-- An empty file gets an empty line. -/
theorem fileLines_nil : FileLines C [] [[]] := by
  have other : modeLine C [] = false := by
    unfold modeLine
    rw [show rstrip (lstrip []) = [] from rfl, C.ascii_lower [] (List.forall_mem_nil _)]
    rfl
  refine ⟨fun member => ?_, rfl, .blank trivial, ?_⟩
  · rw [List.mem_singleton.mp member]
    exact List.forall_mem_nil _
  · rw [List.filter_cons_of_pos (by simp [other])]
    rfl

theorem exists_fileLines {src : Text} (breaks : ∀ c ∈ src, lineBreak c = true → c = '\n') : ∃ bodies, FileLines C src bodies := by
  obtain ⟨bodies, last, rfl, plain, plain'⟩ := exists_bodies breaks
  by_cases some : last = []
  · subst some
    rw [List.append_nil]
    by_cases none : bodies = []
    · subst none
      exact ⟨_, fileLines_nil⟩
    · exact ⟨_, fileLines_closed plain none⟩
  · exact ⟨_, fileLines_open plain plain' some⟩

end Lines

/-! ### What a file is compiled to -/

section Files

variable (U : CharClasses) (C : Casing) (disk : Disk)

/-- The lines that the passes make of a file. -/
def expandedFile (limit : Nat) (src path : Text) : Except PyErr (List Text) := do
  expandedLines U (String.ofList path) (← resolved disk limit src path)

/-- The statements that these lines are, without their places. -/
def fileStatements (limit : Nat) (src path : Text) : Option (List Stmt) :=
  (expandedFile U disk limit src path).toOption.bind fun lines => labelled U ⟨String.ofList path, U⟩ lines.flatten

variable {U disk}

theorem programOf_statements (text path : Text) :
    ((programOf U text path).toOption.map fun p => Stmt.unlinedAll p.statements) =
      (expandedLines U (String.ofList path) text).toOption.bind fun lines => labelled U ⟨String.ofList path, U⟩ lines.flatten := by
  unfold programOf
  simp only [expandMacros_eq]
  cases expandedLines U (String.ofList path) text with
  | error e => rfl
  | ok lines =>
    change _ = labelled U ⟨String.ofList path, U⟩ lines.flatten
    simp only [ok_bind, labelled, Parser.statementsOf]
    cases Lexer.tokenize U (String.ofList path) (expandLocalLabels U lines.flatten) with
    | error e => rfl
    | ok toks =>
      simp only [ok_bind, Parser.parse, Parse.outcome, Except.toOption, Option.bind_some]
      cases Parse.statements (toks.length + 1) [] ⟨String.ofList path, U⟩ toks with
      | error e => rfl
      | ok out => rfl

/-- Without a listing a file compiles when its statements do. -/
theorem compileSource_iff {opts : Options} (quiet : opts.listing = false) (limit : Nat) (src path : Text) :
    (compileSource U disk limit opts src path).isOk = true ↔
      ∃ stmts, fileStatements U disk limit src path = some stmts ∧ (generate opts ⟨stmts⟩).isOk = true := by
  rw [Strict.compileSource_isOk]
  unfold fileStatements expandedFile
  constructor
  · rintro ⟨text, p, whole, program, made⟩
    refine ⟨Stmt.unlinedAll p.statements, ?_, by rwa [generate_unlined quiet]⟩
    rw [whole, ok_bind, ← programOf_statements, program]
    rfl
  · rintro ⟨stmts, reads, made⟩
    cases whole : resolved disk limit src path with
    | error e =>
      rw [whole] at reads
      cases reads
    | ok text =>
      rw [whole, ok_bind, ← programOf_statements] at reads
      cases program : programOf U text path with
      | error e =>
        rw [program] at reads
        cases reads
      | ok p =>
        rw [program] at reads
        cases reads
        exact ⟨text, p, rfl, program, by rwa [generate_unlined quiet] at made⟩

/-- A file without lines that the parser skips is compiled to the same statements. -/
theorem fileStatements_thinned {M : Text → Prop} {ends : Prop} (passed : Passed U M) (includes : ∀ {line}, M line → includeOf line = none)
    {limit : Nat} {src src' path : Text} (thin : Thinned M ends (splitLines src) (splitLines src'))
    (whole : ∀ line ∈ splitLines src, Whole line)
    (skipped : ∀ lines, expandedFile U disk limit src path = .ok lines → ∀ front line back, lines = front ++ line :: back → M line →
      Skipped U ⟨String.ofList path, U⟩ front.flatten line) :
    fileStatements U disk limit src path = fileStatements U disk limit src' path := by
  have both : Both (Thinned M ends) (expandedFile U disk limit src path) (expandedFile U disk limit src' path) :=
    (resolved_thinned includes thin whole limit path).bind fun _ _ thin => expandedLines_thinned passed _ thin
  unfold fileStatements
  generalize expandedFile U disk limit src path = x, expandedFile U disk limit src' path = y at both skipped
  cases both with
  | error e e' => rfl
  | @ok lines lines' thin =>
    have same := @labelled_thinned U ⟨String.ofList path, U⟩ M ends lines lines' thin [] fun front line back split out =>
      skipped lines rfl front line back split out
    exact same

end Files

/-! ### The two drivers -/

section Drivers

variable (U : CharClasses) (C : Casing) (disk : Disk)

/-- What both drivers compile with. -/
def plainOptions : Options := ⟨false, false, false⟩

/-- The outcome of `check_file`, behind the compilation. -/
def checked (limit : Nat) (strict warn : Bool) (src path : Text) : Except PyErr Nat := do
  if strict || warn then
    let expanded ← resolved disk limit src path
    if strict && Strict.hasErrors (Strict.analyzeSource U C expanded) then return 2
  return 0

/-- `check_file` -/
def checkFile (limit : Nat) (strict warn : Bool) (path : Text) : Except PyErr Nat := do
  let src ← disk.read path
  match compileSource U disk limit plainOptions src path with
  | .ok _ => checked U C disk limit strict warn src path
  | .error (.syntaxError _) | .error (.codegenError _) | .error (.valueError _) => .ok 1
  | .error e => .error e

theorem checkFile_iff {limit : Nat} {src path : Text} (read : disk.read path = .ok src) :
    checkFile U C disk limit false false path = .ok 0 ↔ (compileSource U disk limit plainOptions src path).isOk = true := by
  rw [checkFile, read, ok_bind]
  cases compileSource U disk limit plainOptions src path with
  | ok image => exact ⟨fun _ => rfl, fun _ => rfl⟩
  | error e => cases e <;> exact ⟨nofun, nofun⟩

theorem compileFile_iff {limit : Nat} {src path : Text} (read : disk.read path = .ok src) :
    (compileFile U C disk limit plainOptions false false path).isOk = true ↔
      (compileSource U disk limit plainOptions (withoutModes C src) path).isOk = true := by
  rw [compileFile, read, ok_bind]
  exact Bool.eq_iff_iff.mp (Strict.isOk_mapError _ reportedError)

/-- Only the letters of `mode` themselves, in either case, have them as their lower case. -/
def ReadsModes : Prop := ∀ s : Text, ("mode:".toList.isPrefixOf (C.lower s) = true → "mode:".toList <+: s.map Char.toLower) ∧
  ("@mode:".toList.isPrefixOf (C.lower s) = true → "@mode:".toList <+: s.map Char.toLower)

/-- The mode lines of a file. -/
def modeLines (src : Text) : List Text := (splitLines (endWithNewline src)).filter (modeLine C)

/-- The lines of the file end with newlines only; and wherever the passes put one of its own mode lines, the parser skips it, or
does not come to it. -/
structure ModesSkipped (limit : Nat) (src path : Text) : Prop where
  breaks : ∀ c ∈ src, lineBreak c = true → c = '\n'
  modes : ∀ lines, expandedFile U disk limit (endWithNewline src) path = .ok lines → ∀ front line back, lines = front ++ line :: back →
    Descends U (modeLines C src) line → Skipped U ⟨String.ofList path, U⟩ front.flatten line

variable {U C disk}

theorem modeLine_of_prefix {word line : Text} (letters : word = "mode".toList ∨ word = "@mode".toList)
    (begins : word ++ [':'] <+: (rstrip (lstrip line)).map Char.toLower) : ModeLine line := by
  obtain ⟨rest, shape⟩ := begins
  obtain ⟨front, behind, split, lowered, -⟩ := List.map_eq_append_iff.mp shape.symm
  obtain ⟨word', colon, rfl, word_eq, last⟩ := List.map_eq_append_iff.mp lowered
  obtain ⟨c, rfl, lower⟩ : ∃ c, colon = [c] ∧ c.toLower = ':' := by
    obtain ⟨c, tail, rfl⟩ := List.exists_cons_of_ne_nil (l := colon) (by rintro rfl; cases last)
    obtain ⟨first, nil⟩ := List.cons.inj last
    exact ⟨c, by rw [List.map_eq_nil_iff.mp nil], first⟩
  obtain rfl := eq_of_toLower lower (by decide)
  have parted : rstrip (lstrip line) ++ ((lstrip line).reverse.takeWhile isSpace).reverse = lstrip line := by
    rw [rstrip, ← List.reverse_append, List.takeWhile_append_dropWhile, List.reverse_reverse]
  rw [split] at parted
  refine ⟨line.takeWhile isSpace, word', behind ++ ((lstrip line).reverse.takeWhile isSpace).reverse, ?_,
    fun c => List.mem_takeWhile_imp, by rwa [word_eq]⟩
  conv_lhs => rw [← List.takeWhile_append_dropWhile (p := isSpace) (l := line)]
  refine congrArg (line.takeWhile isSpace ++ ·) (parted.symm.trans ?_)
  simp

theorem modeLine_modeLine (reads : ReadsModes C) {line : Text} (mode : modeLine C line = true) : ModeLine line := by
  rcases Bool.or_eq_true_iff.mp mode with found | found
  · exact modeLine_of_prefix (.inr rfl) ((reads _).2 found)
  · exact modeLine_of_prefix (.inl rfl) ((reads _).1 found)

theorem thinned_filter {M : Text → Prop} {keep : Text → Bool} {bodies : List Text}
    (left : ∀ body ∈ bodies, keep body = false → M (body ++ ['\n'])) :
    Thinned M False (ended bodies) (ended (bodies.filter keep)) := by
  induction bodies with
  | nil => exact .nil
  | cons body bodies ih =>
    obtain ⟨here, behind⟩ := List.forall_mem_cons.mp left
    by_cases kept : keep body = true
    · rw [List.filter_cons_of_pos kept]
      exact .keep _ (ih behind)
    · rw [List.filter_cons_of_neg kept]
      exact .drop (here (Bool.eq_false_iff.mpr kept)) (ih behind)

/-- The mode lines make no difference to the statements. -/
theorem fileStatements_withoutModes (reads : ReadsModes C) {limit : Nat} {src path : Text}
    (skipped : ModesSkipped U C disk limit src path) :
    fileStatements U disk limit src path = fileStatements U disk limit (withoutModes C src) path := by
  obtain ⟨bodies, file⟩ := exists_fileLines (C := C) skipped.breaks
  have whole := whole_ended fun body member => file.plain member
  have nothing : Passed U fun _ => False := ⟨False.elim, fun _ _ => False.elim, fun _ _ => False.elim⟩
  -- With an end behind its last line the file is what it was.
  have first : fileStatements U disk limit (endWithNewline src) path = fileStatements U disk limit src path :=
    fileStatements_thinned nothing False.elim (file.closed ▸ file.whole) (file.closed ▸ whole) fun _ _ _ _ _ _ => False.elim
  have modes : ∀ line ∈ modeLines C src, ModeLine line := fun line member => modeLine_modeLine reads (List.mem_filter.mp member).2
  have keptPlain : ∀ body ∈ bodies.filter fun body => !modeLine C body, Body body :=
    fun body member => file.plain (List.mem_filter.mp member).1
  have keptLines : splitLines (ended (bodies.filter fun body => !modeLine C body)).flatten =
      ended (bodies.filter fun body => !modeLine C body) := by
    have split := splitLines_flatten (whole_ended keptPlain) []
    rwa [List.append_nil, show splitLines [] = [] from rfl, List.append_nil] at split
  -- Then the mode lines are left out,
  have second : fileStatements U disk limit (endWithNewline src) path =
      fileStatements U disk limit (ended (bodies.filter fun body => !modeLine C body)).flatten path := by
    have thin : Thinned (Descends U (modeLines C src)) False (ended bodies)
        (ended (bodies.filter fun body => !modeLine C body)) := by
      refine thinned_filter fun body member out => .own (List.mem_filter.mpr ⟨?_, ?_⟩)
      · rw [file.closed]
        exact List.mem_map_of_mem member
      · rw [modeLine_newline]
        simpa using out
    rw [← file.closed, ← keptLines] at thin
    exact fileStatements_thinned (descends_passed modes) (fun out => (out.modeLine modes).includes) thin (file.closed ▸ whole)
      skipped.modes
  -- and last the end of the last line.
  have third : fileStatements U disk limit (ended (bodies.filter fun body => !modeLine C body)).flatten path =
      fileStatements U disk limit (withoutModes C src) path := by
    have keptWhole := whole_ended keptPlain
    have thin := thinned_intercalate keptPlain
    rw [← keptLines] at keptWhole
    rw [← file.built, ← keptLines] at thin
    exact fileStatements_thinned nothing False.elim thin keptWhole fun _ _ _ _ _ _ => False.elim
  exact first.symm.trans (second.trans third)

/-- A file is found in order exactly if it is built, where the parser skips the mode lines that the build leaves out. -/
theorem check_iff_build (reads : ReadsModes C) {limit : Nat} {path : Text}
    (skipped : ∀ src, disk.read path = .ok src → ModesSkipped U C disk limit src path) :
    checkFile U C disk limit false false path = .ok 0 ↔
      (compileFile U C disk limit plainOptions false false path).isOk = true := by
  cases read : disk.read path with
  | error e =>
    rw [checkFile, compileFile, read]
    exact ⟨nofun, nofun⟩
  | ok src =>
    rw [checkFile_iff U C disk read, compileFile_iff U C disk read, compileSource_iff rfl, compileSource_iff rfl,
      fileStatements_withoutModes reads (skipped src read)]

theorem readsModes_ascii : ReadsModes .ascii := fun _ => ⟨List.isPrefixOf_iff_prefix.mp, List.isPrefixOf_iff_prefix.mp⟩

def moded : Source := ⟨"/f".toList, "@mode: metal\nret\n".toList⟩

/-- The mode line in front of a program is skipped. -/
theorem moded_skipped : ModesSkipped .ascii .ascii (oneFile moded) 1 moded.text moded.name where
  breaks := by decide
  modes := by
    have expanded : expandedFile .ascii (oneFile moded) 1 (endWithNewline moded.text) moded.name =
        .ok ["@mode: metal\n".toList, "ret\n".toList] := by decide +kernel
    intro lines found front line back split descends
    cases expanded.symm.trans found
    rcases front with _ | ⟨first, _ | ⟨second, front⟩⟩
    · obtain ⟨rfl, -⟩ := List.cons.inj split
      have none : (Parser.statementsOf ⟨String.ofList moded.name, .ascii⟩ "@mode: metal".toList).map List.length = some 0 := by
        decide +kernel
      obtain ⟨stmts, reads, empty⟩ := Option.map_eq_some_iff.mp none
      rw [List.length_eq_zero_iff] at empty
      exact ⟨⟨"@mode: metal".toList, rfl, by decide, empty ▸ reads⟩, .inl rfl, .inl (by decide +kernel)⟩
    · obtain ⟨rfl, -⟩ := List.cons.inj (List.cons.inj split).2
      have mode := descends.modeLine fun line member => modeLine_modeLine readsModes_ascii (List.mem_filter.mp member).2
      obtain ⟨word, rest, stripped, ⟨m, o, behind, rfl, lower, -, -⟩ | ⟨behind, rfl⟩⟩ := mode.lstrip
      · obtain ⟨rfl, -⟩ := List.cons.inj stripped
        cases lower
      · exact absurd (List.cons.inj stripped).1 (by decide)
    · simp at split

theorem check_iff_build_moded : checkFile .ascii .ascii (oneFile moded) 1 false false moded.name = .ok 0 ↔
    (compileFile .ascii .ascii (oneFile moded) 1 plainOptions false false moded.name).isOk = true :=
  check_iff_build readsModes_ascii fun src read => by
    cases read
    exact moded_skipped

/-- A mode line in the body of a function. -/
def inBody : Source := ⟨"/f".toList, "fn:f\nmode: x\nret\nend:fn\n".toList⟩

theorem check_iff_build_wrong : ¬ (checkFile .ascii .ascii (oneFile inBody) 1 false false inBody.name = .ok 0 ↔
    (compileFile .ascii .ascii (oneFile inBody) 1 plainOptions false false inBody.name).isOk = true) := by
  have check : checkFile .ascii .ascii (oneFile inBody) 1 false false inBody.name = .ok 1 := by decide +kernel
  have built : (compileFile .ascii .ascii (oneFile inBody) 1 plainOptions false false inBody.name).isOk = true := by
    decide +kernel
  rw [check]
  exact fun same => nomatch same.mpr built

end Drivers

end Aclm.Compiler
