import Aclm.Compiler.Includes
import Aclm.Macros.Thinned
import Aclm.Strict.Shifts

/-! Mode lines: no pass over the text looks at them, wherever they stand. -/

set_option autoImplicit false

namespace Aclm

namespace Text

/-! ### Whole lines -/

/-- One line, with its end. -/
def Whole (line : Text) : Prop := ∃ body, line = body ++ ['\n'] ∧ ∀ c ∈ body, lineBreak c = false

theorem splitLinesFrom_plain {body : Text} (plain : ∀ c ∈ body, lineBreak c = false) (line rest : Text) :
    splitLinesFrom line (body ++ rest) = splitLinesFrom (line ++ body) rest := by
  induction body generalizing line with
  | nil => rw [List.append_nil, List.nil_append]
  | cons c body ih =>
    obtain ⟨here, behind⟩ := List.forall_mem_cons.mp plain
    rw [List.cons_append, splitLinesFrom, if_neg (Bool.eq_false_iff.mp here), ih behind, List.append_assoc]
    · rfl
    · rintro s rfl -
      cases here

theorem Whole.splitLines {line : Text} (whole : Whole line) (rest : Text) :
    splitLines (line ++ rest) = line :: Text.splitLines rest := by
  obtain ⟨body, rfl, plain⟩ := whole
  rw [Text.splitLines, List.append_assoc, splitLinesFrom_plain plain]
  rfl

theorem Whole.line {line : Text} (whole : Whole line) : Text.splitLines line = [line] := by
  have parted := whole.splitLines []
  rwa [List.append_nil] at parted

/-- Behind a newline another line begins. -/
theorem splitLinesFrom_newline (line front rest : Text) :
    splitLinesFrom line (front ++ '\n' :: rest) = splitLinesFrom line (front ++ ['\n']) ++ splitLines rest := by
  fun_induction splitLinesFrom line front with
  | case1 => rfl
  | case2 line some => rfl
  | case3 line s ih =>
    simp only [List.cons_append, splitLinesFrom, ih]
  | case4 line c s crlf stop ih =>
    by_cases last : c = '\r' ∧ s = []
    · obtain ⟨rfl, rfl⟩ := last
      rfl
    · have split (rest : Text) : splitLinesFrom line (c :: (s ++ rest)) = (line ++ [c]) :: splitLinesFrom [] (s ++ rest) := by
        rw [splitLinesFrom, if_pos stop]
        rintro t rfl same
        cases s with
        | nil => exact last ⟨rfl, rfl⟩
        | cons d s =>
          cases same
          exact crlf s rfl rfl
      rw [List.cons_append, List.cons_append, split, split, ih]
      rfl
  | case5 line c s crlf more ih =>
    have other (rest : Text) : splitLinesFrom line (c :: (s ++ rest)) = splitLinesFrom (line ++ [c]) (s ++ rest) := by
      rw [splitLinesFrom, if_neg more]
      rintro t rfl -
      exact more rfl
    rw [List.cons_append, List.cons_append, other, other, ih]

theorem splitLines_newline (front rest : Text) :
    splitLines (front ++ ['\n'] ++ rest) = splitLines (front ++ ['\n']) ++ splitLines rest := by
  rw [List.append_assoc]
  exact splitLinesFrom_newline [] front rest

end Text

namespace Compiler

open Text Macros

/-! ### Includes -/

/-- The file that is named, behind the opening quote. -/
def quoted (s : Text) : Option Text :=
  let inc := s.takeWhile (· ≠ '"')
  match s.drop inc.length with
  | _ :: rest => if inc ≠ [] ∧ (lstrip rest).head?.all (· = '#') then some inc else none
  | [] => none

theorem quoted_newline (s : Text) : quoted (s ++ ['\n']) = quoted s := by
  have ends (rest : Text) : (lstrip (rest ++ ['\n'])).head?.all (· = '#') = (lstrip rest).head?.all (· = '#') := by
    by_cases blank : lstrip rest = []
    · rw [lstrip_newline_nil blank, blank]
    · obtain ⟨c, t, shape⟩ := List.exists_cons_of_ne_nil blank
      rw [lstrip_newline_some blank, shape]
      rfl
  unfold quoted
  have parted : s.takeWhile (· ≠ '"') ++ s.drop (s.takeWhile (· ≠ '"')).length = s :=
    (List.prefix_iff_eq_append.mp (List.takeWhile_prefix _))
  cases behind : s.drop (s.takeWhile (· ≠ '"')).length with
  | nil =>
    -- The quote is not closed, and the end of the line does not close it.
    have all : s.takeWhile (· ≠ '"') = s := by rw [behind, List.append_nil] at parted; exact parted
    have open' : (s ++ ['\n']).takeWhile (· ≠ '"') = s ++ ['\n'] := by
      rw [List.takeWhile_append, if_pos (congrArg List.length all)]
      rfl
    simp only [open', all, List.drop_length]
  | cons c rest =>
    have fewer : (s.takeWhile (· ≠ '"')).length ≠ s.length := by
      intro same
      rw [same, List.drop_length] at behind
      cases behind
    have same : (s ++ ['\n']).takeWhile (· ≠ '"') = s.takeWhile (· ≠ '"') := by rw [List.takeWhile_append, if_neg fewer]
    have longer : (s ++ ['\n']).drop (s.takeWhile (· ≠ '"')).length = c :: (rest ++ ['\n']) := by
      rw [List.drop_append_of_le_length (List.takeWhile_prefix _).length_le, behind]
      rfl
    simp only [same, longer, behind, ends]

/-- The name in double quotes that a text begins with. -/
def named : Text → Option Text
  | '"' :: s => quoted s
  | _ => none

theorem named_newline (s : Text) : named (s ++ ['\n']) = named s := by
  unfold named
  split
  · next s' begun =>
    obtain ⟨t, rfl, rfl⟩ := (append_newline (w := ['"']) (by decide)).mp begun
    exact quoted_newline t
  · next other =>
    split
    · next s => exact (other _ rfl).elim
    · rfl

theorem includeOf_newline (line : Text) : includeOf (line ++ ['\n']) = includeOf line := by
  unfold includeOf
  by_cases blank : lstrip line = []
  · rw [lstrip_newline_nil blank, blank]
  rw [lstrip_newline_some blank]
  generalize lstrip line = s
  split
  · next s' begun =>
    obtain ⟨t, rfl, rfl⟩ := (append_newline (w := "include:".toList) (by decide)).mp begun
    change named (lstrip (t ++ ['\n'])) = named (lstrip t)
    by_cases blank : lstrip t = []
    · rw [lstrip_newline_nil blank, blank]
    · rw [lstrip_newline_some blank]
      exact named_newline _
  · next other =>
    split
    · next s => exact (other _ rfl).elim
    · rfl

section Includes

variable {disk : Disk} {M : Text → Prop} {ends : Prop} {lines lines' : List Text}

theorem thinned_behind (front : Text) {rest rest' : Text} (thin : Thinned M ends (splitLines rest) (splitLines rest')) :
    Thinned M ends (splitLines (front ++ ['\n'] ++ rest)) (splitLines (front ++ ['\n'] ++ rest')) := by
  rw [splitLines_newline, splitLines_newline]
  exact (Thinned.refl _).append thin

/-- Lines that include nothing are all that is missing once the includes are resolved. -/
theorem resolveLines_thinned (quiet : ∀ {line}, M line → includeOf line = none)
    (nested : List Text → Text → Text → Except PyErr (List Text × Text)) (baseDir : Text) (thin : Thinned M ends lines lines')
    (whole : ∀ line ∈ lines, Whole line) (seen : List Text) :
    Both (fun out out' => out.1 = out'.1 ∧ Thinned M ends (splitLines out.2) (splitLines out'.2))
      (resolveLines disk nested baseDir seen lines) (resolveLines disk nested baseDir seen lines') := by
  have included (inc : Text) {rest rest' : List Text} (behind : ∀ seen,
      Both (fun out out' => out.1 = out'.1 ∧ Thinned M ends (splitLines out.2) (splitLines out'.2))
        (resolveLines disk nested baseDir seen rest) (resolveLines disk nested baseDir seen rest')) {line line' : Text}
      (found : includeOf line = some inc) (found' : includeOf line' = some inc) (seen : List Text) :
      Both (fun out out' => out.1 = out'.1 ∧ Thinned M ends (splitLines out.2) (splitLines out'.2))
        (resolveLines disk nested baseDir seen (line :: rest)) (resolveLines disk nested baseDir seen (line' :: rest')) := by
    rw [resolveLines, resolveLines, found, found']
    dsimp only
    split
    · exact .error _ _
    · next name place =>
      cases disk.read name with
      | error e => exact .error _ _
      | ok text =>
        rw [ok_bind, ok_bind]
        cases nested seen text name with
        | error e => exact .error _ _
        | ok out =>
          rw [ok_bind, ok_bind]
          refine (behind out.1).bind fun more more' related => .ok ⟨related.1, ?_⟩
          have mark : s!"# ---- end include {String.ofList name} ----\n".toList =
              s!"# ---- end include {String.ofList name} ----".toList ++ ['\n'] := by
            change (("# ---- end include " ++ String.ofList name) ++ " ----\n").toList =
              (("# ---- end include " ++ String.ofList name) ++ " ----").toList ++ ['\n']
            simp only [String.toList_append, List.append_assoc]
            rfl
          have both := thinned_behind (s!"# ---- include {String.ofList name} ----\n".toList ++ endWithNewline out.2 ++
            s!"# ---- end include {String.ofList name} ----".toList) related.2
          rw [List.append_assoc _ _ ['\n'], ← mark] at both
          exact both
  induction thin generalizing seen with
  | nil => exact .ok ⟨rfl, .nil⟩
  | @keep line lines lines' rest ih =>
    obtain ⟨here, behind⟩ := List.forall_mem_cons.mp whole
    cases found : includeOf line with
    | some inc => exact included inc (ih behind) found found seen
    | none =>
      rw [resolveLines, resolveLines, found]
      refine (ih behind seen).bind fun out out' related => .ok ⟨related.1, ?_⟩
      rw [here.splitLines, here.splitLines]
      exact .keep line related.2
  | @drop line lines lines' out rest ih =>
    obtain ⟨here, behind⟩ := List.forall_mem_cons.mp whole
    rw [resolveLines, quiet out]
    refine (ih behind seen).left fun _ _ related => .ok ⟨related.1, ?_⟩
    rw [here.splitLines]
    exact .drop out related.2
  | blank last => exact .ok ⟨rfl, .blank last⟩
  | @last last line some plain =>
    cases found : includeOf line with
    | some inc => exact included inc (fun seen => .ok ⟨rfl, .nil⟩) ((includeOf_newline line).trans found) found seen
    | none =>
      have long : resolveLines disk nested baseDir seen [line ++ ['\n']] = .ok (seen, line ++ ['\n']) := by
        simp only [resolveLines, includeOf_newline, found]
        exact congrArg (fun out => Except.ok (seen, out)) (List.append_nil _)
      have short : resolveLines disk nested baseDir seen [line] = .ok (seen, line) := by
        simp only [resolveLines, found]
        exact congrArg (fun out => Except.ok (seen, out)) (List.append_nil _)
      have lines : splitLines line = [line] := by
        have one := splitLinesFrom_plain plain [] []
        rw [List.append_nil, List.nil_append, splitLinesFrom, if_neg some] at one
        exact one
      rw [long, short]
      refine .ok ⟨rfl, ?_⟩
      rw [Whole.line ⟨line, rfl, plain⟩, lines]
      exact .last last some plain

end Includes

theorem resolved_thinned {disk : Disk} {M : Text → Prop} {ends : Prop} (quiet : ∀ {line}, M line → includeOf line = none)
    {src src' : Text} (thin : Thinned M ends (splitLines src) (splitLines src')) (whole : ∀ line ∈ splitLines src, Whole line)
    (limit : Nat) (path : Text) :
    Both (fun text text' => Thinned M ends (splitLines text) (splitLines text')) (resolved disk limit src path)
      (resolved disk limit src' path) := by
  cases limit with
  | zero => exact .error _ _
  | succ limit =>
    simp only [resolved, resolveIncludes, List.not_mem_nil, if_false]
    exact (resolveLines_thinned quiet _ _ thin whole _).map fun _ _ related => related.2

/-! ### Mode lines -/

/-- A line that begins, behind blanks, with `mode:` or `@mode:` in letters of either case. -/
structure ModeLine (line : Text) : Prop where
  begins : ∃ blanks word rest, line = blanks ++ (word ++ ':' :: rest) ∧ (∀ c ∈ blanks, isSpace c = true) ∧
    (word.map Char.toLower = "mode".toList ∨ word.map Char.toLower = "@mode".toList)

theorem toLower_of_not_isUpper {c : Char} (other : ¬ c.isUpper = true) : c.toLower = c :=
  dif_neg fun upper => other (decide_eq_true upper)

theorem alpha_of_toLower {c : Char} (lower : c.toLower.isLower = true) : c.isAlpha = true := by
  change (c.isUpper || c.isLower) = true
  by_cases upper : c.isUpper = true
  · rw [upper, Bool.true_or]
  · rw [toLower_of_not_isUpper upper] at lower
    rw [lower, Bool.or_true]

/-- Only letters are lower-cased to something else. -/
theorem eq_of_toLower {c d : Char} (same : c.toLower = d) (other : d.toNat < 97) : c = d := by
  by_cases upper : c.isUpper = true
  · have upper : c.val ≥ 'A'.val ∧ c.val ≤ 'Z'.val := of_decide_eq_true upper
    have shifted : c.toLower = ⟨c.val + 32, _⟩ := dif_pos upper
    have value := congrArg (fun d : Char => d.val.toNat) (shifted.symm.trans same)
    have low := UInt32.le_iff_toNat_le.mp upper.1
    have high := UInt32.le_iff_toNat_le.mp upper.2
    simp only [UInt32.toNat_add] at value
    change (c.val.toNat + 32) % 2 ^ 32 = d.toNat at value
    change 65 ≤ c.val.toNat at low
    change c.val.toNat ≤ 90 at high
    omega
  · rwa [toLower_of_not_isUpper upper] at same

/-- The word of a mode line, letter by letter. -/
theorem mode_letters {word : Text} (mode : word.map Char.toLower = "mode".toList) : ∃ m o rest, word = m :: o :: rest ∧
    m.toLower = 'm' ∧ o.toLower = 'o' ∧ ∀ c ∈ word, c.isAlpha = true := by
  have alpha : ∀ c ∈ word, c.isAlpha = true := by
    intro c member
    have lowered : c.toLower ∈ "mode".toList := mode ▸ List.mem_map_of_mem member
    have lower : ∀ d ∈ "mode".toList, d.isLower = true := by decide
    exact alpha_of_toLower (lower _ lowered)
  obtain ⟨m, tail, rfl⟩ : ∃ m tail, word = m :: tail := List.exists_cons_of_ne_nil (by rintro rfl; cases mode)
  obtain ⟨first, mode⟩ := List.cons.inj mode
  obtain ⟨o, rest, rfl⟩ : ∃ o rest, tail = o :: rest := List.exists_cons_of_ne_nil (by rintro rfl; cases mode)
  exact ⟨m, o, rest, rfl, first, (List.cons.inj mode).1, alpha⟩

theorem at_letters {word : Text} (mode : word.map Char.toLower = "@mode".toList) : ∃ rest, word = '@' :: rest ∧
    rest.map Char.toLower = "mode".toList := by
  obtain ⟨c, rest, rfl⟩ : ∃ c rest, word = c :: rest := List.exists_cons_of_ne_nil (by rintro rfl; cases mode)
  obtain ⟨first, mode⟩ := List.cons.inj mode
  exact ⟨rest, eq_of_toLower first (by decide) ▸ rfl, mode⟩

theorem alpha_plain {c : Char} (alpha : c.isAlpha = true) : isSpace c = false := by
  cases space : isSpace c with
  | false => rfl
  | true =>
    have none := CharClasses.ascii.space_alnum c space
    change c.isAlphanum = false at none
    rw [Char.isAlphanum, alpha] at none
    cases none

/-- Behind the blanks there is an at sign, or the word itself. -/
theorem ModeLine.lstrip {line : Text} (mode : ModeLine line) : ∃ word rest, lstrip line = word ++ ':' :: rest ∧
    ((∃ m o behind, word = m :: o :: behind ∧ m.toLower = 'm' ∧ o.toLower = 'o' ∧ ∀ c ∈ word, c.isAlpha = true) ∨
      ∃ behind, word = '@' :: behind) := by
  obtain ⟨blanks, word, rest, rfl, spaces, mode⟩ := mode.begins
  refine ⟨word, rest, ?_, mode.imp mode_letters fun mode => (at_letters mode).imp fun _ found => found.1⟩
  have first : ∃ c tail, word = c :: tail ∧ isSpace c = false := by
    rcases mode with mode | mode
    · obtain ⟨m, o, tail, rfl, -, -, alpha⟩ := mode_letters mode
      exact ⟨m, o :: tail, rfl, alpha_plain (alpha m List.mem_cons_self)⟩
    · obtain ⟨tail, rfl, -⟩ := at_letters mode
      exact ⟨'@', tail, rfl, rfl⟩
  obtain ⟨c, tail, rfl, solid⟩ := first
  rw [Text.lstrip, List.dropWhile_append_of_pos spaces]
  exact List.dropWhile_cons_of_neg (by simp [solid])

/-- What is left between the blanks stands behind those in front. -/
theorem lstrip_rstrip {line s : Text} {c : Char} (stripped : Text.lstrip (rstrip line) = c :: s) :
    ∃ t, Text.lstrip line = c :: s ++ t := by
  have parted : rstrip line ++ (line.reverse.takeWhile isSpace).reverse = line := by
    rw [rstrip, ← List.reverse_append, List.takeWhile_append_dropWhile, List.reverse_reverse]
  refine ⟨(line.reverse.takeWhile isSpace).reverse, ?_⟩
  conv_lhs => rw [← parted]
  unfold Text.lstrip at stripped ⊢
  rw [List.dropWhile_append, stripped]
  rfl

theorem alpha_word {U : CharClasses} {c : Char} (alpha : c.isAlpha = true) : word U c = true :=
  identStart_word (by simp [identStart, alpha])

/-- No pass looks at a mode line. -/
theorem ModeLine.quiet {U : CharClasses} {line : Text} (mode : ModeLine line) : Quiet U line where
  start := by
    obtain ⟨word, rest, stripped, begins⟩ := mode.lstrip
    unfold macroStart
    split
    · next s begun =>
      rw [stripped] at begun
      -- The word begins with `mo`, in letters of either case, or with an at sign, and `macro:` with neither.
      rcases begins with ⟨m, o, behind, rfl, -, lower, -⟩ | ⟨behind, rfl⟩
      · obtain ⟨-, tail⟩ := List.cons.inj begun
        obtain ⟨rfl, -⟩ := List.cons.inj tail
        cases lower
      · exact absurd (List.cons.inj begun).1 (by decide)
    · rfl
  ends := by
    obtain ⟨word, rest, stripped, begins⟩ := mode.lstrip
    refine decide_eq_false fun closed => ?_
    have letters : "end:macro".toList = ['e', 'n', 'd', ':', 'm', 'a', 'c', 'r', 'o'] := by decide
    obtain ⟨t, whole⟩ := lstrip_rstrip (closed.trans letters)
    rw [stripped] at whole
    rcases begins with ⟨m, o, behind, rfl, lower, -, -⟩ | ⟨behind, rfl⟩
    · have first : m = 'e' := (List.cons.inj whole).1
      subst first
      cases lower
    · have first : '@' = 'e' := (List.cons.inj whole).1
      cases first
  call := by
    intro macros
    obtain ⟨word, rest, stripped, begins⟩ := mode.lstrip
    have colon : Text.lstrip (':' :: rest) = ':' :: rest := rfl
    -- The word of the mode may be an identifier, but a colon follows it, and no call goes on with one.
    have found : ident U (Text.lstrip line) = none ∨ ∃ name, ident U (Text.lstrip line) = some (name, ':' :: rest) := by
      rw [stripped]
      rcases begins with ⟨m, o, behind, rfl, -, -, alpha⟩ | ⟨behind, rfl⟩
      · have letters : ∀ c ∈ o :: behind, Text.word U c = true :=
          fun c member => alpha_word (alpha c (List.mem_cons_of_mem m member))
        obtain ⟨taken, left⟩ := takeWhile_word (U := U) (t := ':' :: rest) letters fun ⟨c, first, inside⟩ => by
          cases first
          rw [word_ascii U (by decide)] at inside
          cases inside
        refine .inr ⟨.ofList (m :: o :: behind), ?_⟩
        rw [List.cons_append, ident, if_pos (by simp [identStart, alpha m List.mem_cons_self]), taken, left]
      · exact .inl rfl
    unfold invocation matchCall matchBare
    rcases found with none | ⟨name, found⟩
    · simp only [none]
      rfl
    · simp [found, colon]

theorem ModeLine.includes {line : Text} (mode : ModeLine line) : includeOf line = none := by
  obtain ⟨word, rest, stripped, begins⟩ := mode.lstrip
  unfold includeOf
  split
  · next s begun =>
    rw [stripped] at begun
    rcases begins with ⟨m, o, behind, rfl, lower, -, -⟩ | ⟨behind, rfl⟩
    · obtain ⟨rfl, -⟩ := List.cons.inj begun
      cases lower
    · exact absurd (List.cons.inj begun).1 (by decide)
  · rfl

/-! ### What the passes make of a mode line -/

theorem replaceFrom_front {key new : Text} {front : Text} (none : '$' ∉ front) (rest : Text) :
    replaceFrom ('$' :: key) new 0 (front ++ rest) = front ++ replaceFrom ('$' :: key) new 0 rest := by
  induction front with
  | nil => rfl
  | cons c front ih =>
    have here := List.ne_of_not_mem_cons none
    rw [List.cons_append, replaceFrom, if_neg (by simp [List.isPrefixOf, here]), ih (List.not_mem_of_not_mem_cons none)]
    rfl

theorem subLabelsFrom_front {U : CharClasses} {σ : Type} (f : σ → String → Text × σ) (state : σ) {front : Text}
    (none : '~' ∉ front) (rest : Text) :
    subLabelsFrom U f state 0 (front ++ rest) = front ++ subLabelsFrom U f state 0 rest := by
  induction front with
  | nil => rfl
  | cons c front ih =>
    have here := List.ne_of_not_mem_cons none
    have plain : localLabel U (c :: (front ++ rest)) = Option.none := by
      unfold localLabel
      split
      · next same => exact absurd (List.cons.inj same).1.symm here
      · rfl
    rw [List.cons_append, subLabelsFrom, plain]
    exact congrArg (c :: ·) (ih (List.not_mem_of_not_mem_cons none))

/-- The front of a mode line has neither a parameter nor a label. -/
theorem ModeLine.front {line : Text} (mode : ModeLine line) : ∃ front rest, line = front ++ rest ∧ '$' ∉ front ∧ '~' ∉ front ∧
    ∀ rest, ModeLine (front ++ rest) := by
  obtain ⟨blanks, word, rest, rfl, spaces, mode⟩ := mode.begins
  have plain (d : Char) (solid : isSpace d = false) (other : d ≠ ':') (apart : d.toLower ∉ "@mode".toList) :
      d ∉ blanks ++ (word ++ [':']) := by
    intro member
    rcases List.mem_append.mp member with blank | member
    · rw [spaces d blank] at solid
      cases solid
    rcases List.mem_append.mp member with letter | colon
    · have lowered := List.mem_map_of_mem (f := Char.toLower) letter
      rcases mode with mode | mode
      · rw [mode] at lowered
        exact apart (List.mem_cons_of_mem '@' lowered)
      · exact apart (mode ▸ lowered)
    · exact other (List.mem_singleton.mp colon)
  exact ⟨blanks ++ (word ++ [':']), rest, by simp, plain '$' rfl (by decide) (by decide), plain '~' rfl (by decide) (by decide),
    fun rest => ⟨blanks, word, rest, by simp, spaces, mode⟩⟩

theorem ModeLine.substituted (d : Dict Text) {line : Text} (mode : ModeLine line) : ModeLine (substitute d line) := by
  obtain ⟨front, rest, rfl, dollar, -, any⟩ := mode.front
  have turns (d : Dict Text) (rest : Text) : ∃ rest', substitute d (front ++ rest) = front ++ rest' := by
    induction d generalizing rest with
    | nil => exact ⟨rest, rfl⟩
    | cons entry d ih =>
      obtain ⟨rest', same⟩ := ih (replaceFrom ('$' :: entry.1.toList) entry.2 0 rest)
      refine ⟨rest', ?_⟩
      rw [← same, ← replaceFrom_front dollar]
      rfl
  obtain ⟨rest', same⟩ := turns d rest
  rw [same]
  exact any rest'

theorem ModeLine.numbered {U : CharClasses} (n : Nat) {line : Text} (mode : ModeLine line) : ModeLine (numberLabels U n line) := by
  obtain ⟨front, rest, rfl, -, tilde, any⟩ := mode.front
  rw [numberLabels, subLabels, subLabelsFrom_front _ _ tilde]
  exact any _

/-- The lines that the passes make of some lines. -/
inductive Descends (U : CharClasses) (own : List Text) : Text → Prop
  | own {line : Text} (member : line ∈ own) : Descends U own line
  | numbered (n : Nat) {line : Text} (from' : Descends U own line) : Descends U own (numberLabels U n line)
  | substituted (d : Dict Text) {line : Text} (from' : Descends U own line) : Descends U own (substitute d line)

/-- Mode lines are mode lines still, whatever the passes make of them. -/
theorem Descends.modeLine {U : CharClasses} {own : List Text} (modes : ∀ line ∈ own, ModeLine line) {line : Text}
    (descends : Descends U own line) : ModeLine line := by
  induction descends with
  | own member => exact modes _ member
  | numbered n _ ih => exact ih.numbered n
  | substituted d _ ih => exact ih.substituted d

theorem descends_passed {U : CharClasses} {own : List Text} (modes : ∀ line ∈ own, ModeLine line) :
    Passed U (Descends U own) where
  quiet out := (out.modeLine modes).quiet
  numbered n _ out := .numbered n out
  substituted d _ out := .substituted d out

end Compiler

end Aclm
