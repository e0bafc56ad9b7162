import Aclm.Lexer.Pieces
import Aclm.Parser.Grammar
import Mathlib.Data.List.TakeWhile

/-! Subtractions of a numeral, with blanks around the minus sign and without: what the lexer makes of
the sign, and what of the tokens is one operand. -/

set_option autoImplicit false

namespace Aclm.Parse

open Text Lexer

variable {self : Parser}

/-! ### Numerals -/

/-- None of the tests before the one for digits holds of a digit, of whatever script. -/
theorem scan_digit {U : CharClasses} (file : String) (p : Pos) {c : Char} (digit : U.isdigit c = true) (s : Text) :
    scan U file p c s = .ok (token .number (numberBody U (c :: s)) ((numberBody U (c :: s)).length - 1)) := by
  have ne (d : Char) (ascii : d.toNat < 128) (other : d.isDigit = false) : c ≠ d := by
    rintro rfl
    rw [U.ascii_digit c ascii, other] at digit
    cases digit
  have plain : punctuation c = none := by
    unfold punctuation
    split <;> first | rfl | exact absurd rfl (ne _ (by decide) (by decide))
  unfold scan
  rw [if_neg (by simp only [ne ' ' (by decide) rfl, ne '\t' (by decide) rfl, ne '\r' (by decide) rfl, or_self, not_false_eq_true]),
    if_neg (ne _ (by decide) rfl), if_neg (ne _ (by decide) rfl), if_neg (ne _ (by decide) rfl), plain]
  simp only [ne '~' (by decide) rfl, ne '-' (by decide) rfl, digit, if_true, if_false]

/-- What follows is no part of a number in front of it. -/
theorem numberBody_append {U : CharClasses} {s rest : Text} (whole : numberBody U s = s) (apart : begins (word U) rest = false) :
    numberBody U (s ++ rest) = s := by
  have stop (class' : Char → Bool) (part : ∀ c, class' c = true → word U c = true) : begins class' rest = false := by
    cases rest with
    | nil => rfl
    | cons c rest =>
      cases inside : class' c with
      | false => exact inside
      | true => exact absurd (part c inside) (by simp [show word U c = false from apart])
  have alnum := stop U.isalnum fun c inside => by simp [word, inside]
  have digit := stop U.isdigit fun c inside => by simp [word, U.alnum_of_digit c inside]
  have joined (class' : Char → Bool) (none : begins class' rest = false) (t : Text) (all : t.takeWhile class' = t) :
      (t ++ rest).takeWhile class' = t :=
    takeWhile_all (List.takeWhile_eq_self_iff.mp all) none
  -- The prefix of a hexadecimal number does not come from behind the text.
  have noX {x : Char} (is : x = 'x' ∨ x = 'X') (other : ∀ t, s ≠ '0' :: x :: t) (t : Text) : s ++ rest ≠ '0' :: x :: t := by
    have alnum' : U.isalnum '0' = true ∧ U.isalnum x = true := by
      rcases is with rfl | rfl <;> constructor <;> rw [U.ascii_alnum _ (by decide)] <;> decide
    intro same
    rcases s with _ | ⟨z, _ | ⟨d, t'⟩⟩
    · rw [List.nil_append] at same
      exact absurd alnum'.1 (by simpa [same, begins] using alnum)
    · have behind : rest = x :: t := by simpa using (List.cons.inj same).2
      exact absurd alnum'.2 (by simpa [behind, begins] using alnum)
    · simp only [List.cons_append, List.cons.injEq] at same
      obtain ⟨rfl, rfl, -⟩ := same
      exact other t' rfl
  unfold numberBody at whole
  split at whole
  · next t =>
    simp only [List.cons.injEq, true_and] at whole
    exact congrArg (fun t => '0' :: 'x' :: t) (joined _ alnum t whole)
  · next t =>
    simp only [List.cons.injEq, true_and] at whole
    exact congrArg (fun t => '0' :: 'X' :: t) (joined _ alnum t whole)
  · next lower upper =>
    unfold numberBody
    split
    · next same => exact absurd same (noX (.inl rfl) lower _)
    · next same => exact absurd same (noX (.inr rfl) upper _)
    · exact joined _ digit s whole

/-- The texts of a numeral: digits, or a minus sign and digits. -/
inductive Numeral (self : Parser) : Text → Int → Prop
  | digits {c : Char} {s : Text} {v : Int} (digit : self.chars.isdigit c = true) (whole : numberBody self.chars (c :: s) = c :: s)
    (is : Text.int self.chars 0 (c :: s) = .ok v) : Numeral self (c :: s) v
  | negative {c : Char} {s : Text} {v : Int} (digit : self.chars.isdigit c = true) (whole : numberBody self.chars (c :: s) = c :: s)
    (is : Text.int self.chars 0 (c :: s) = .ok v) : Numeral self ('-' :: c :: s) (-v)

/-- A numeral in a text, with the sign in front of it or with none. -/
theorem reads_digits {c : Char} {s : Text} (digit : self.chars.isdigit c = true)
    (whole : numberBody self.chars (c :: s) = c :: s) (p : Pos) {rest : Text} (apart : begins (word self.chars) rest = false) :
    Reads self.chars self.filename p (c :: s) [⟨.number, .ofList (c :: s), p.line, p.col⟩] rest := by
  refine .of_scan (some (.number, .ofList (c :: s))) ?_
  rw [scan_digit _ p digit, ← List.cons_append, numberBody_append whole apart]
  rfl

theorem reads_negative {c : Char} {s : Text} {v : Int} (digit : self.chars.isdigit c = true)
    (whole : numberBody self.chars (c :: s) = c :: s) (is : Text.int self.chars 0 (c :: s) = .ok v) (p : Pos) {rest : Text}
    (apart : begins (word self.chars) rest = false) : Reads self.chars self.filename p ('-' :: c :: s)
      [⟨.number, toString (-v), p.line, p.col⟩] rest := by
  refine .of_scan (some (.number, toString (-v))) ?_
  have front : begins self.chars.isdigit (c :: s ++ rest) = true := digit
  have plain : punctuation '-' = none := rfl
  unfold scan
  rw [if_neg (by decide), if_neg (by decide), if_neg (by decide), if_neg (by decide), plain]
  simp only [front, if_true]
  rw [numberBody_append whole apart, is, if_neg (by decide), ok_bind, token, String.ofList_toList]

theorem reads_minus (p : Pos) {rest : Text} (other : begins self.chars.isdigit rest = false) :
    Reads self.chars self.filename p ['-'] [⟨.minus, "-", p.line, p.col⟩] rest := by
  refine .of_scan (some (.minus, "-")) ?_
  have plain : punctuation '-' = none := rfl
  unfold scan
  rw [if_neg (by decide), if_neg (by decide), if_neg (by decide), if_neg (by decide), plain]
  simp only [List.nil_append, other]
  rfl

/-- A numeral is one token that has its value. -/
theorem Numeral.reads {n : Text} {v : Int} (numeral : Numeral self n v) (p : Pos) {rest : Text}
    (apart : begins (word self.chars) rest = false) : ∃ t : Tok, Reads self.chars self.filename p n [t] rest ∧
      t.kind = .number ∧ Text.int self.chars 0 t.value.toList = .ok v := by
  cases numeral with
  | digits digit whole is => exact ⟨_, reads_digits digit whole p apart, rfl, by rw [String.toList_ofList]; exact is⟩
  | negative digit whole is => exact ⟨_, reads_negative digit whole is p apart, rfl, int_toString _⟩

/-! ### The four spellings -/

/-- Where there is a blank around the minus sign. -/
inductive Spacing where
  | both | before | behind | none
  deriving DecidableEq, Repr

def Spacing.text : Spacing → Text
  | both => [' ', '-', ' ']
  | before => [' ', '-']
  | behind => ['-', ' ']
  | none => ['-']

/-- What a rule derives from a text, wherever it stands in front of something that is no part of a word. -/
def TextOf (self : Parser) (rule : Rule) (a : Text) (e : Expr) : Prop :=
  ∀ p rest, begins (word self.chars) rest = false →
    ∃ toks, Reads self.chars self.filename p a toks rest ∧ Derives self rule toks e

theorem begins_blank_digit (rest : Text) : begins self.chars.isdigit (' ' :: rest) = false := by
  rw [begins, self.chars.ascii_digit _ (by decide)]
  decide

theorem begins_minus_digit (rest : Text) : begins self.chars.isdigit ('-' :: rest) = false := by
  rw [begins, self.chars.ascii_digit _ (by decide)]
  decide

/-- The sign is a minus sign in front of a blank, and in front of anything but a digit. -/
theorem Spacing.reads (spacing : Spacing) (p : Pos) (rest : Text)
    (plain : spacing = both ∨ spacing = behind ∨ begins self.chars.isdigit rest = false) :
    ∃ t : Tok, Reads self.chars self.filename p spacing.text [t] rest ∧ t.kind = .minus := by
  cases spacing with
  | both =>
    have sign := @reads_minus self (p.past [' ']) _ (begins_blank_digit rest)
    have blank := @reads_blank self.chars self.filename ((p.past [' ']).past ['-']) ' ' (.inl rfl) rest
    exact ⟨_, (reads_blank p (.inl rfl) _).append (s := [' ']) (t := ['-', ' ']) (sign.append (t := [' ']) blank), rfl⟩
  | before =>
    have sign := @reads_minus self (p.past [' ']) _ (plain.resolve_left (by decide) |>.resolve_left (by decide))
    exact ⟨_, (reads_blank p (.inl rfl) _).append (s := [' ']) (t := ['-']) sign, rfl⟩
  | behind =>
    have sign := @reads_minus self p _ (begins_blank_digit rest)
    exact ⟨_, sign.append (t := [' ']) (reads_blank (p.past ['-']) (.inl rfl) rest), rfl⟩
  | none => exact ⟨_, reads_minus p (plain.resolve_left (by decide) |>.resolve_left (by decide)), rfl⟩

theorem apart_ascii {U : CharClasses} {c : Char} (ascii : c.toNat < 128) (other : (c.isAlphanum || c == '_') = false) (s : Text) :
    begins (word U) (c :: s) = false := by
  rw [begins, word_ascii U ascii, other]

theorem Spacing.apart {U : CharClasses} (spacing : Spacing) (s : Text) : begins (word U) (spacing.text ++ s) = false := by
  cases spacing with
  | both | before => exact apart_ascii (by decide) (by decide) _
  | behind | none => exact apart_ascii (by decide) (by decide) _

section Spelled

variable {a n : Text} {e : Expr} {v : Int} {rest : Text}

/-- Where the sign is a minus sign, the text is a subtraction. -/
theorem subtraction_text (operand : TextOf self .primary a e) (numeral : Numeral self n v) (spacing : Spacing)
    (plain : spacing = .both ∨ spacing = .behind ∨ ∃ m, n = '-' :: m) :
    TextOf self .sum (a ++ (spacing.text ++ n)) (.binExpr .sub e (.number v)) := by
  intro p rest apart
  obtain ⟨left, before, derives⟩ := operand p (spacing.text ++ (n ++ rest)) (spacing.apart _)
  have noDigit : spacing = .both ∨ spacing = .behind ∨ begins self.chars.isdigit (n ++ rest) = false := by
    refine plain.imp_right (.imp_right ?_)
    rintro ⟨m, rfl⟩
    exact begins_minus_digit _
  obtain ⟨sign, middle, isMinus⟩ := @Spacing.reads self spacing (p.past a) (n ++ rest) noDigit
  obtain ⟨t, behind, kind, is⟩ := numeral.reads ((p.past a).past spacing.text) apart
  rw [← List.append_assoc spacing.text] at before
  refine ⟨left ++ ([sign] ++ [t]), before.append (middle.append behind), ?_⟩
  exact derives.product.sum.add (by rw [isMinus]; rfl) (Derives.number kind is).product

/-- Where it is the sign of a numeral, the text is two operands. -/
theorem juxtaposed_reads (operand : TextOf self .primary a e) {spacing : Spacing} (close : spacing = .before ∨ spacing = .none)
    {c : Char} {s : Text} (digit : self.chars.isdigit c = true) (whole : numberBody self.chars (c :: s) = c :: s)
    (is : Text.int self.chars 0 (c :: s) = .ok v) (p : Pos) (apart : begins (word self.chars) rest = false) : ∃ toks t,
      Reads self.chars self.filename p (a ++ (spacing.text ++ c :: s)) (toks ++ [t]) rest ∧ Derives self .primary toks e ∧
        t.kind = .number ∧ Text.int self.chars 0 t.value.toList = .ok (-v) := by
  obtain ⟨left, before, derives⟩ := operand p (spacing.text ++ c :: s ++ rest) (by rw [List.append_assoc]; exact spacing.apart _)
  rcases close with rfl | rfl
  · have blank := @reads_blank self.chars self.filename (p.past a) ' ' (.inl rfl) ('-' :: c :: s ++ rest)
    have behind := reads_negative digit whole is ((p.past a).past [' ']) apart
    exact ⟨left, _, before.append (t := ' ' :: '-' :: c :: s) (blank.append (t := '-' :: c :: s) behind), derives, rfl, int_toString _⟩
  · have behind := reads_negative digit whole is (p.past a) apart
    exact ⟨left, _, before.append (t := '-' :: c :: s) behind, derives, rfl, int_toString _⟩

end Spelled

/-! ### Texts of operands -/

theorem text_word {c : Char} {s : Text} (start : identStart c = true) (inside : ∀ d ∈ s, word self.chars d = true) :
    TextOf self .primary (c :: s)
      (if isRegName (.ofList (c :: s)) then .reg (.ofList (c :: s)) else .ident (.ofList (c :: s))) := by
  intro p rest apart
  refine ⟨_, reads_ident p start inside apart, ?_⟩
  by_cases named : isRegName (.ofList (c :: s)) = true
  · rw [if_pos named]
    exact .reg rfl named
  · rw [if_neg named]
    exact .ident rfl (by simpa using named)

theorem text_field {c d : Char} {s f : Text} (start : identStart c = true) (inside : ∀ x ∈ s, word self.chars x = true)
    (other : isRegName (.ofList (c :: s)) = false) (startField : identStart d = true)
    (insideField : ∀ x ∈ f, word self.chars x = true) :
    TextOf self .primary (c :: s ++ '.' :: d :: f) (.structFieldRef (.ofList (c :: s)) (.ofList (d :: f))) := by
  intro p rest apart
  have struct := @reads_ident self.chars self.filename p c s ('.' :: (d :: f ++ rest)) start inside
    (apart_ascii (by decide) (by decide) _)
  have dot := @reads_punctuation self.chars self.filename (p.past (c :: s)) '.' .dot rfl (d :: f ++ rest)
  have field := @reads_ident self.chars self.filename ((p.past (c :: s)).past ['.']) d f rest startField insideField apart
  exact ⟨_, struct.append (t := '.' :: d :: f) (dot.append (t := d :: f) field), .field rfl other rfl rfl⟩

theorem Numeral.text {n : Text} {v : Int} (numeral : Numeral self n v) : TextOf self .primary n (.number v) := by
  intro p rest apart
  obtain ⟨t, reads, kind, is⟩ := numeral.reads p apart
  exact ⟨[t], reads, .number kind is⟩

theorem text_enclosed {s : Text} {e : Expr} (inner : TextOf self .sum s e) :
    TextOf self .primary ('(' :: s ++ [')']) e := by
  intro p rest _
  have opens := @reads_punctuation self.chars self.filename p '(' .lparen rfl (s ++ [')'] ++ rest)
  obtain ⟨toks, reads, derives⟩ := inner (p.past ['(']) (')' :: rest) (apart_ascii (by decide) (by decide) _)
  have closes := @reads_punctuation self.chars self.filename ((p.past ['(']).past s) ')' .rparen rfl rest
  exact ⟨_, opens.append (t := s ++ [')']) (reads.append (t := [')']) closes), derives.enclosed rfl rfl⟩

/-! ### Where operands are read -/

/-- A statement takes one operand, or as many as stand before its end. -/
inductive Position where
  | operand | operands
  deriving DecidableEq, Repr

def Position.read : Position → Parse (List Expr)
  | operand => do return [← Parse.operand]
  | operands => Parse.operands

/-- What it reads behind an operand. -/
def Position.readMore : Position → Parse (List Expr)
  | operand => pure []
  | operands => Parse.operands

/-- With more turns and behind other arguments the loop reads the same. -/
theorem operandsFrom_more {n : Nat} {args out : List Expr} {toks last : List Tok}
    (ran : operandsFrom n args self toks = .ok (out, last)) {m : Nat} (more : n ≤ m) (before : List Expr) :
    operandsFrom m (before ++ args) self toks = .ok (before ++ out, last) := by
  induction n generalizing m args toks with
  | zero => cases ran
  | succ n ih =>
    obtain ⟨m, rfl⟩ := Nat.exists_eq_succ_of_ne_zero (by omega : m ≠ 0)
    rw [operandsFrom, bind_ok] at ran
    obtain ⟨ends, _, isEnd, ran⟩ := ran
    rw [operandsFrom, bind_run isEnd]
    cases ends with
    | true =>
      cases ran
      rfl
    | false =>
      rw [if_neg (by decide), bind_ok] at ran
      obtain ⟨isComma, _, accepted, ran⟩ := ran
      rw [if_neg (by decide), bind_run accepted]
      cases isComma with
      | true => exact ih ran (by omega)
      | false =>
        rw [if_neg (by decide), bind_ok] at ran
        obtain ⟨e, _, read, ran⟩ := ran
        rw [if_neg (by decide), bind_run read, List.append_assoc]
        exact ih ran (by omega)

theorem Derives.starts {rule : Rule} {toks : List Tok} {e : Expr} (derives : Derives self rule toks e) :
    ∃ t tail, toks = t :: tail ∧ (t.kind = .number ∨ t.kind = .string ∨ t.kind = .ident ∨ t.kind = .lparen) := by
  induction derives with
  | number kind => exact ⟨_, _, rfl, .inl kind⟩
  | string kind => exact ⟨_, _, rfl, .inr (.inl kind)⟩
  | reg kind | ident kind | field kind => exact ⟨_, _, rfl, .inr (.inr (.inl kind))⟩
  | enclosed opens => exact ⟨_, _, rfl, .inr (.inr (.inr opens))⟩
  | product _ ih | sum _ ih => exact ih
  | mul _ _ _ first | add _ _ _ first =>
    obtain ⟨t, tail, rfl, starts⟩ := first
    exact ⟨t, _, rfl, starts⟩

/-- An operand and what is read behind it. -/
theorem operands_cons {toks more last : List Tok} {u : Tok} {e : Expr} {es : List Expr} (derives : Derives self .sum toks e)
    (follows : Follows u) (rest : operands self (u :: more) = .ok (es, last)) :
    operands self (toks ++ u :: more) = .ok (e :: es, last) := by
  have read : operand self (toks ++ u :: more) = .ok (e, u :: more) := (operand_iff follows).mpr derives
  obtain ⟨t, tail, rfl, starts⟩ := derives.starts
  have inside : t.kind ≠ .newline ∧ t.kind ≠ .eof ∧ t.kind ≠ .comma := by
    rcases starts with is | is | is | is <;> simp [is]
  rw [operands, bind_run (rfl : remaining self _ = _)] at rest ⊢
  have one := operandsFrom_more rest (by simp : (u :: more).length + 1 ≤ (t :: tail ++ u :: more).length) [e]
  rw [operandsFrom, List.cons_append, bind_run (atEnd_cons ⟨inside.1, inside.2.1⟩), if_neg (by decide),
    bind_run (accept_other inside.2.2), if_neg (by decide), ← List.cons_append, bind_run read]
  exact one

theorem Position.read_text (position : Position) {toks more last : List Tok} {u : Tok} {e : Expr} {es : List Expr}
    (derives : Derives self .sum toks e) (follows : Follows u) (rest : position.readMore self (u :: more) = .ok (es, last)) :
    position.read self (toks ++ u :: more) = .ok (e :: es, last) := by
  cases position with
  | operand =>
    cases rest
    exact bind_run ((operand_iff follows).mpr derives)
  | operands => exact operands_cons derives follows rest

/-- Of two operands in a row, a position for one takes the first. -/
theorem Position.read_two (position : Position) {toks more last : List Tok} {t u : Tok} {e : Expr} {w : Int} {es : List Expr}
    (derives : Derives self .primary toks e) (kind : t.kind = .number) (is : Text.int self.chars 0 t.value.toList = .ok w)
    (follows : Follows u) (rest : position.readMore self (u :: more) = .ok (es, last)) :
    ∃ out left, position.read self (toks ++ t :: u :: more) = .ok (e :: out, left) := by
  have apart : Follows t := by refine ⟨?_, ?_, ?_, ?_⟩ <;> simp [kind]
  cases position with
  | operand => exact ⟨[], _, bind_run ((operand_iff apart).mpr derives.product.sum)⟩
  | operands =>
    have second : Parse.operands self (t :: u :: more) = .ok (.number w :: es, last) :=
      operands_cons (Derives.number kind is).product.sum follows rest
    exact ⟨_, _, operands_cons derives.product.sum apart second⟩

/-- What stands behind an operand is no part of it, and is read to the end of what the position takes. -/
def Continues (self : Parser) (position : Position) (rest : Text) : Prop :=
  ∀ p, ∃ u more es last, tokenizeFrom self.chars self.filename 0 p rest = .ok (u :: more) ∧ Follows u ∧
    position.readMore self (u :: more) = .ok (es, last)

/-- In front of the others, the text is read as one operand. -/
def ReadAs (self : Parser) (position : Position) (s : Text) (e : Expr) (rest : Text) : Prop :=
  ∀ p more es last, tokenizeFrom self.chars self.filename 0 (p.past s) rest = .ok more →
    position.readMore self more = .ok (es, last) →
      ∃ toks, tokenizeFrom self.chars self.filename 0 p (s ++ rest) = .ok toks ∧ position.read self toks = .ok (e :: es, last)

section Read

variable {position : Position} {rest : Text}

theorem TextOf.readAs {s : Text} {e : Expr} (text : TextOf self .sum s e) (apart : begins (word self.chars) rest = false)
    (continues : Continues self position rest) : ReadAs self position s e rest := by
  intro p more es last behind others
  obtain ⟨toks, reads, derives⟩ := text p rest apart
  obtain ⟨u, more', _, _, read, follows, -⟩ := continues (p.past s)
  cases behind.symm.trans read
  exact ⟨_, reads.ok behind, position.read_text derives follows others⟩

theorem sub_ne (e right : Expr) : e ≠ .binExpr .sub e right := by
  intro same
  have size := congrArg sizeOf same
  simp only [Expr.binExpr.sizeOf_spec] at size
  omega

/-- One spelling is a subtraction just where its sign is none of the numeral's. -/
theorem readAs_iff {a n : Text} {e : Expr} {v : Int} (operand : TextOf self .primary a e) (numeral : Numeral self n v)
    (apart : begins (word self.chars) rest = false) (continues : Continues self position rest) (spacing : Spacing) :
    ReadAs self position (a ++ (spacing.text ++ n)) (.binExpr .sub e (.number v)) rest ↔
      spacing = .both ∨ spacing = .behind ∨ ∃ m, n = '-' :: m := by
  constructor
  · intro reads
    by_contra taken
    obtain ⟨noBoth, noBehind, unsigned⟩ : spacing ≠ .both ∧ spacing ≠ .behind ∧ ¬∃ m, n = '-' :: m := by tauto
    have close : spacing = .before ∨ spacing = .none := by cases spacing <;> simp_all
    cases numeral with
    | negative => exact unsigned ⟨_, rfl⟩
    | @digits c s _ digit whole is =>
      obtain ⟨toks, t, lexed, derives, kind, isNegative⟩ := juxtaposed_reads operand close digit whole is ⟨1, 1⟩ apart
      obtain ⟨u, more, es, last, behind, follows, others⟩ := continues (Pos.past ⟨1, 1⟩ (a ++ (spacing.text ++ c :: s)))
      obtain ⟨_, lexed', read⟩ := reads _ _ _ _ behind others
      cases lexed'.symm.trans (lexed.ok behind)
      obtain ⟨out, left, two⟩ := position.read_two derives kind isNegative follows others
      rw [List.append_assoc, List.singleton_append, two] at read
      exact sub_ne e _ (List.cons.inj (Prod.mk.inj (Except.ok.inj read)).1).1
  · exact fun plain => (subtraction_text operand numeral spacing plain).readAs apart continues

theorem continues_end (position : Position) : Continues self position [] := by
  intro p
  have follows : Follows ⟨.eof, "", p.line, p.col⟩ := by refine ⟨?_, ?_, ?_, ?_⟩ <;> exact T.noConfusion
  cases position with
  | operand | operands => exact ⟨_, _, _, _, rfl, follows, rfl⟩

end Read

/-- The four spellings are one subtraction just where the numeral has a sign of its own: in front of a digit
the lexer takes the minus sign for the numeral's, whatever stands before it. -/
theorem subtraction_spelled {position : Position} {a n rest : Text} {e : Expr} {v : Int} (operand : TextOf self .primary a e)
    (numeral : Numeral self n v) (apart : begins (word self.chars) rest = false) (continues : Continues self position rest) :
    (∀ spacing : Spacing, ReadAs self position (a ++ (spacing.text ++ n)) (.binExpr .sub e (.number v)) rest) ↔
      ∃ m, n = '-' :: m := by
  constructor
  · intro every
    rcases (readAs_iff operand numeral apart continues .none).mp (every .none) with both | behind | signed
    · cases both
    · cases behind
    · exact signed
  · exact fun signed spacing => (readAs_iff operand numeral apart continues spacing).mpr (.inr (.inr signed))

theorem text_reg1 : TextOf ⟨"f", .ascii⟩ .primary "reg1".toList (.reg "reg1") :=
  @text_word ⟨"f", .ascii⟩ 'r' ['e', 'g', '1'] (by decide) (by decide)

/-- `call ~f reg1--5` and `call ~f reg1 - -5` have one argument. -/
theorem subtraction_spelled_signed :
    ReadAs ⟨"f", .ascii⟩ .operands "reg1--5".toList (.binExpr .sub (.reg "reg1") (.number (-5))) [] ∧
      ReadAs ⟨"f", .ascii⟩ .operands "reg1 - -5".toList (.binExpr .sub (.reg "reg1") (.number (-5))) [] := by
  have every := (subtraction_spelled text_reg1 (.negative (by decide) (by decide) (by rfl)) rfl
    (continues_end .operands)).mpr ⟨"5".toList, rfl⟩
  exact ⟨every .none, every .both⟩

/-- `call ~f reg1-1` has two arguments. -/
theorem subtraction_two : ¬ ∀ spacing : Spacing, ReadAs ⟨"f", .ascii⟩ .operands
    ("reg1".toList ++ (spacing.text ++ "1".toList)) (.binExpr .sub (.reg "reg1") (.number 1)) [] := by
  intro every
  have one : Numeral ⟨"f", .ascii⟩ "1".toList 1 := .digits (by decide) (by decide) (by rfl)
  have plain := (readAs_iff text_reg1 one rfl (continues_end .operands) .none).mp (every .none)
  simp at plain

end Aclm.Parse
