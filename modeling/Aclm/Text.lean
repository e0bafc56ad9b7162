import Aclm.Python

/-! The string methods that the passes over the source text are made of. -/

set_option autoImplicit false

namespace Aclm

abbrev Text := List Char

/-- By the characters of the text, not by all there are. -/
instance (p : Char → Prop) [DecidablePred p] (s : Text) : Decidable (∀ c ∈ s, p c) := List.decidableBAll p s

/-- Python's classes of characters. What lies outside ASCII depends on the version of the tables. -/
structure CharClasses where
  isalpha : Char → Bool
  isdigit : Char → Bool
  isalnum : Char → Bool
  /-- The value of a decimal digit, of any script. -/
  decimal : Char → Option Nat
  ascii_alpha : ∀ c : Char, c.toNat < 128 → isalpha c = c.isAlpha
  ascii_digit : ∀ c : Char, c.toNat < 128 → isdigit c = c.isDigit
  ascii_alnum : ∀ c : Char, c.toNat < 128 → isalnum c = c.isAlphanum
  ascii_decimal : ∀ c : Char, c.toNat < 128 → decimal c = if c.isDigit then some (c.toNat - 48) else none
  alnum_of_alpha : ∀ c, isalpha c = true → isalnum c = true
  alnum_of_digit : ∀ c, isdigit c = true → isalnum c = true
  space_alnum : ∀ c, isSpace c = true → isalnum c = false

theorem isAlpha_ranges (c : Char) : c.isAlpha =
    (decide (65 ≤ c.toNat ∧ c.toNat ≤ 90) || decide (97 ≤ c.toNat) && decide (c.toNat ≤ 122)) := rfl

/-- The tables of a Python that knows of ASCII only. -/
def CharClasses.ascii : CharClasses where
  isalpha := Char.isAlpha
  isdigit := Char.isDigit
  isalnum := Char.isAlphanum
  decimal c := if c.isDigit then some (c.toNat - 48) else none
  ascii_alpha _ _ := rfl
  ascii_digit _ _ := rfl
  ascii_alnum _ _ := rfl
  ascii_decimal _ _ := rfl
  alnum_of_alpha c alpha := by simp [Char.isAlphanum, alpha]
  alnum_of_digit c digit := by simp [Char.isAlphanum, digit]
  space_alnum c space := by
    simp only [isSpace, Bool.or_eq_true, Bool.and_eq_true, decide_eq_true_eq, beq_iff_eq] at space
    simp only [Char.isAlphanum, isAlpha_ranges, Char.isDigit, Bool.or_eq_false_iff, Bool.and_eq_false_iff,
      decide_eq_false_iff_not, UInt32.le_iff_toNat_le, ge_iff_le]
    change (¬(65 ≤ c.toNat ∧ c.toNat ≤ 90) ∧ (¬97 ≤ c.toNat ∨ ¬c.toNat ≤ 122)) ∧ (¬48 ≤ c.toNat ∨ ¬c.toNat ≤ 57)
    omega

namespace Text

variable (U : CharClasses)

/-- `\w` -/
def word (c : Char) : Bool := U.isalnum c || c == '_'

theorem word_ascii {c : Char} (ascii : c.toNat < 128) : word U c = (c.isAlphanum || c == '_') := by
  rw [word, U.ascii_alnum c ascii]

/-- `[A-Za-z_]` -/
def identStart (c : Char) : Bool := c.isAlpha || c == '_'

/-- `[A-Za-z_][\w]*` at the front, and the rest. -/
def ident : Text → Option (String × Text)
  | c :: s => if identStart c then some (.ofList (c :: s.takeWhile (word U)), s.dropWhile (word U)) else none
  | [] => none

def lstrip (s : Text) : Text := s.dropWhile isSpace

def rstrip (s : Text) : Text := (s.reverse.dropWhile isSpace).reverse

/-- The characters at which `str.splitlines` ends a line. -/
def lineBreak (c : Char) : Bool :=
  let n := c.toNat
  (10 ≤ n && n ≤ 13) || (28 ≤ n && n ≤ 30) || n == 0x85 || n == 0x2028 || n == 0x2029

/-- `s.splitlines(keepends=True)`, with the line begun so far. -/
def splitLinesFrom (line : Text) : Text → List Text
  | [] => if line = [] then [] else [line]
  | '\r' :: '\n' :: s => (line ++ ['\r', '\n']) :: splitLinesFrom [] s
  | c :: s => if lineBreak c then (line ++ [c]) :: splitLinesFrom [] s else splitLinesFrom (line ++ [c]) s

def splitLines (s : Text) : List Text := splitLinesFrom [] s

/-- The non-empty pieces between the characters of a class. -/
def pieces (separator : Char → Bool) (s : Text) : List Text := (s.splitOnP separator).filter (· ≠ [])

/-- `s.split()` -/
def split (s : Text) : List Text := pieces isSpace s

/-- `s.replace(old, new)` for an `old` that is not empty; so many characters are still to be skipped. -/
def replaceFrom (old new : Text) : Nat → Text → Text
  | _, [] => []
  | k + 1, _ :: s => replaceFrom old new k s
  | 0, c :: s =>
    if old.isPrefixOf (c :: s) then new ++ replaceFrom old new (old.length - 1) s else c :: replaceFrom old new 0 s

def replace (old new s : Text) : Text := replaceFrom old new 0 s

/-- `~@name` at the front. -/
def localLabel : Text → Option String
  | '~' :: '@' :: s => (ident U s).map Prod.fst
  | _ => none

/-- `re.sub` over the local labels, with what the function keeps between its calls. -/
def subLabelsFrom {σ : Type} (f : σ → String → Text × σ) : σ → Nat → Text → Text
  | _, _, [] => []
  | state, k + 1, _ :: s => subLabelsFrom f state k s
  | state, 0, c :: s => match localLabel U (c :: s) with
    | some name => (f state name).1 ++ subLabelsFrom f (f state name).2 (name.length + 1) s
    | none => c :: subLabelsFrom f state 0 s

def subLabels {σ : Type} (f : σ → String → Text × σ) (state : σ) (s : Text) : Text := subLabelsFrom U f state 0 s

theorem pieces_append {separator : Char → Bool} (s t : Text) {c : Char} (apart : separator c = true) :
    pieces separator (s ++ c :: t) = pieces separator s ++ pieces separator t := by
  simp only [pieces, List.splitOnP_append_cons s t apart, List.filter_append]

theorem pieces_separators {separator : Char → Bool} {s : Text} (all : ∀ c ∈ s, separator c = true) :
    pieces separator s = [] := by
  induction s with
  | nil => rfl
  | cons c s ih =>
    have apart := pieces_append [] s (all c List.mem_cons_self)
    rw [List.nil_append] at apart
    rw [apart, ih fun d member => all d (List.mem_cons_of_mem _ member)]
    rfl

theorem pieces_word {separator : Char → Bool} {s : Text} (some : s ≠ []) (all : ∀ c ∈ s, separator c = false) :
    pieces separator s = [s] := by
  simp [pieces, List.splitOnP_eq_singleton all, some]

/-- Replacing one character by another is done character by character. -/
theorem replace_single (c d : Char) (s : Text) : replace [c] [d] s = s.map fun x => if x = c then d else x := by
  unfold replace
  induction s with
  | nil => rfl
  | cons x s ih =>
    rw [replaceFrom, List.map_cons]
    by_cases same : c = x
    · subst same
      simp [List.isPrefixOf, ih]
    · simp [List.isPrefixOf, same, Ne.symm same, ih]

/-! ### Numbers -/

def hex (n : Nat) : Char := Nat.digitChar n

/-- `repr(s)`; what is printable outside ASCII depends on the tables, and is taken for printable here. -/
def repr (s : Text) : String :=
  let quote : Char := if '\'' ∈ s ∧ '"' ∉ s then '"' else '\''
  let escape (c : Char) : Text :=
    if c = '\\' ∨ c = quote then ['\\', c]
    else if c = '\n' then ['\\', 'n']
    else if c = '\r' then ['\\', 'r']
    else if c = '\t' then ['\\', 't']
    else if c.toNat < 32 ∨ c.toNat = 127 then ['\\', 'x', hex (c.toNat / 16), hex (c.toNat % 16)]
    else [c]
  .ofList (quote :: s.flatMap escape ++ [quote])

def digitValue (base : Nat) (c : Char) : Option Nat :=
  let value := match U.decimal c with
    | some d => some d
    | none => if c.isLower then some (c.toNat - 87) else if c.isUpper then some (c.toNat - 55) else none
  value.filter (· < base)

/-- Digits, with the value of those before them; a single underscore may stand before each. -/
def digitsFrom (base : Nat) : Nat → Text → Option Nat
  | value, [] => some value
  | value, '_' :: c :: s => (digitValue U base c).bind fun d => digitsFrom base (value * base + d) s
  | value, c :: s => (digitValue U base c).bind fun d => digitsFrom base (value * base + d) s

/-- A number begins with a digit. -/
def digits (base : Nat) : Text → Option Nat
  | [] => none
  | '_' :: _ => none
  | s => digitsFrom U base 0 s

/-- The base that the second character of `0x..` stands for. -/
def prefixBase (c : Char) : Option Nat :=
  if c = 'x' ∨ c = 'X' then some 16 else if c = 'o' ∨ c = 'O' then some 8 else if c = 'b' ∨ c = 'B' then some 2 else none

/-- A number without a sign. Base 0 takes the base from the prefix, and then nothing but zero begins with a zero. -/
def natural (base : Nat) (s : Text) : Option Nat :=
  let ten := if base = 0 then 10 else base
  match s with
  | z :: c :: rest =>
    if U.decimal z = some 0 then
      match (prefixBase c).filter fun b => base = 0 ∨ base = b with
      | some b => digits U b (if rest.head? = some '_' then rest.tail else rest)
      | none => (digits U ten s).filter fun value => base ≠ 0 ∨ value = 0
    else digits U ten s
  | s => digits U ten s

def signed (base : Nat) : Text → Option Int
  | '-' :: s => (natural U base s).map fun (n : Nat) => -(n : Int)
  | '+' :: s => (natural U base s).map Int.ofNat
  | s => (natural U base s).map Int.ofNat

/-- `int(s, base)` -/
def int (base : Nat) (s : Text) : Except PyErr Int :=
  match signed U base (rstrip (lstrip s)) with
  | some value => .ok value
  | none => .error (.valueError s!"invalid literal for int() with base {base}: {repr s}")

/-! ### Numbers in ASCII -/

variable {U}

def Ascii (s : Text) : Prop := ∀ c ∈ s, c.toNat < 128

theorem Ascii.tail {c : Char} {s : Text} (ascii : Ascii (c :: s)) : Ascii s :=
  fun d member => ascii d (List.mem_cons_of_mem _ member)

theorem digitValue_ascii (base : Nat) {c : Char} (ascii : c.toNat < 128) :
    digitValue U base c = digitValue .ascii base c := by
  simp only [digitValue, U.ascii_decimal c ascii, CharClasses.ascii]

theorem digitsFrom_ascii (base : Nat) {s : Text} (ascii : Ascii s) (value : Nat) :
    digitsFrom U base value s = digitsFrom .ascii base value s := by
  fun_induction digitsFrom U base value s with
  | case1 value => rfl
  | case2 value c s ih =>
    have here := ascii c (by simp)
    simp only [digitsFrom, digitValue_ascii base here]
    exact congrArg _ (funext fun d => ih d ascii.tail.tail)
  | case3 value c s plain ih =>
    have here := ascii c List.mem_cons_self
    rw [digitsFrom, digitValue_ascii base here]
    · exact congrArg _ (funext fun d => ih d ascii.tail)
    · exact plain

theorem digits_ascii (base : Nat) {s : Text} (ascii : Ascii s) : digits U base s = digits .ascii base s := by
  unfold digits
  split
  · rfl
  · rfl
  · exact digitsFrom_ascii base ascii 0

theorem natural_ascii (base : Nat) {s : Text} (ascii : Ascii s) : natural U base s = natural .ascii base s := by
  unfold natural
  simp only
  split
  · next z c rest =>
    have zero : U.decimal z = CharClasses.ascii.decimal z := by
      simp only [U.ascii_decimal z (ascii z List.mem_cons_self), CharClasses.ascii]
    have behind : Ascii (if rest.head? = some '_' then rest.tail else rest) := by
      split
      · exact fun d member => ascii.tail.tail d (List.mem_of_mem_tail member)
      · exact ascii.tail.tail
    simp only [zero, digits_ascii _ ascii, digits_ascii _ behind]
  · exact digits_ascii _ ascii

theorem signed_ascii (base : Nat) {s : Text} (ascii : Ascii s) : signed U base s = signed .ascii base s := by
  unfold signed
  split
  · rw [natural_ascii base ascii.tail]
  · rw [natural_ascii base ascii.tail]
  · rw [natural_ascii base ascii]

/-- Outside the tables that differ, a number is the same for every Python. -/
theorem int_ascii (base : Nat) {s : Text} (ascii : Ascii s) : int U base s = int .ascii base s := by
  have body : Ascii (rstrip (lstrip s)) := by
    intro c member
    simp only [rstrip, lstrip, List.mem_reverse] at member
    have inner := (List.dropWhile_sublist _).mem member
    exact ascii c ((List.dropWhile_sublist _).mem (List.mem_reverse.mp inner))
  rw [int, int, signed_ascii base body]

end Text

end Aclm
