import Aclm.Text

/-! The lexer: line-oriented, one token after the other. -/

set_option autoImplicit false

namespace Aclm

inductive T where
  | eof | newline | ident | number | string | label | op | lbrack | rbrack | comma | colon | dot | plus | minus
  | eq | star | lparen | rparen | tilde
  deriving DecidableEq, Repr

def T.name : T → String
  | eof => "EOF"
  | newline => "NEWLINE"
  | ident => "IDENT"
  | number => "NUMBER"
  | string => "STRING"
  | label => "LABEL"
  | op => "OP"
  | lbrack => "LBRACK"
  | rbrack => "RBRACK"
  | comma => "COMMA"
  | colon => "COLON"
  | dot => "DOT"
  | plus => "PLUS"
  | minus => "MINUS"
  | eq => "EQ"
  | star => "STAR"
  | lparen => "LPAREN"
  | rparen => "RPAREN"
  | tilde => "TILDE"

structure Tok where
  kind : T
  value : String
  line : Nat
  col : Nat
  deriving DecidableEq, Repr

/-- `repr(t)` -/
def Tok.repr (t : Tok) : String :=
  s!"Tok(kind=<T.{t.kind.name}: {t.kind.ctorIdx + 1}>, value={Text.repr t.value.toList}, line={t.line}, col={t.col})"

namespace Lexer

open Text

variable (U : CharClasses)

/-- The line and the column of the next character. -/
structure Pos where
  line : Nat
  col : Nat
  deriving DecidableEq, Repr

/-- `_adv` -/
def Pos.adv (p : Pos) (c : Char) : Pos := if c = '\n' then ⟨p.line + 1, 1⟩ else ⟨p.line, p.col + 1⟩

def Pos.past (p : Pos) (s : Text) : Pos := s.foldl Pos.adv p

def labelBody (s : Text) : Text := s.takeWhile (word U)

def identBody (s : Text) : Text := s.takeWhile (word U)

/-- `_number_body`, in front of a digit. -/
def numberBody : Text → Text
  | '0' :: 'x' :: s => '0' :: 'x' :: s.takeWhile U.isalnum
  | '0' :: 'X' :: s => '0' :: 'X' :: s.takeWhile U.isalnum
  | s => s.takeWhile U.isdigit

def unescape (c : Char) : Char := if c = 'n' then '\n' else if c = 't' then '\t' else c

/-- The value of a string behind its opening quote, and the number of characters up to the closing one. -/
def stringBody : Text → Option (Text × Nat)
  | [] => none
  | '"' :: _ => some ([], 1)
  | '\\' :: esc :: s => (stringBody s).map fun (value, n) => (unescape esc :: value, n + 2)
  | c :: s => (stringBody s).map fun (value, n) => (c :: value, n + 1)

/-- The characters that are a token by themselves. -/
def punctuation : Char → Option T
  | '[' => some .lbrack
  | ']' => some .rbrack
  | ',' => some .comma
  | ':' => some .colon
  | '.' => some .dot
  | '+' => some .plus
  | '=' => some .eq
  | '*' => some .star
  | '(' => some .lparen
  | ')' => some .rparen
  | _ => none

/-- What the text begins with: a token, or nothing that makes one, and the number of characters behind the first one
that belong to it. -/
abbrev Scan := Option (T × String) × Nat

def token (kind : T) (value : Text) (n : Nat) : Scan := (some (kind, .ofList value), n)

def blank (n : Nat) : Scan := (none, n)

def error (filename : String) (p : Pos) (msg : String) : PyErr := .syntaxError s!"{filename}:{p.line}:{p.col}: {msg}"

def begins (class' : Char → Bool) : Text → Bool
  | c :: _ => class' c
  | [] => false

/-- One turn of the loop of `tokenize`, at a character and the text behind it. -/
def scan (filename : String) (p : Pos) (c : Char) (s : Text) : Except PyErr Scan :=
  if c = ' ' ∨ c = '\t' ∨ c = '\r' then .ok (blank 0)
  else if c = '\n' then .ok (token .newline ['\\', 'n'] 0)
  else if c = '#' then .ok (blank (s.takeWhile (· ≠ '\n')).length)
  else if c = '"' then match stringBody s with
    | some (value, n) => .ok (token .string value n)
    | none => .error (error filename p "unterminated string")
  else if let some kind := punctuation c then .ok (token kind [c] 0)
  else if c = '~' then
    if begins (fun c => U.isalpha c || c == '_' || U.isdigit c) s then
      .ok (token .label (labelBody U s) (labelBody U s).length)
    else .ok (token .tilde [c] 0)
  else if c = '-' then
    if begins U.isdigit s then do
      let value ← int U 0 (numberBody U s)
      .ok (token .number (toString (-value)).toList (numberBody U s).length)
    else .ok (token .minus [c] 0)
  else if U.isdigit c then .ok (token .number (numberBody U (c :: s)) ((numberBody U (c :: s)).length - 1))
  else if c = '@' then
    if begins U.isalpha s then .ok (token .ident ('@' :: identBody U s) (identBody U s).length)
    else .error (error filename p "stray @")
  else if U.isalpha c || c == '_' then .ok (token .ident (c :: identBody U s) (identBody U s).length)
  else .error (error filename p s!"unexpected character {Text.repr [c]}")

/-- `tokenize`, from a place in the text on, with so many characters of it already read. -/
def tokenizeFrom (filename : String) : Nat → Pos → Text → Except PyErr (List Tok)
  | _, p, [] => .ok [⟨.eof, "", p.line, p.col⟩]
  | k + 1, p, c :: s => tokenizeFrom filename k (p.adv c) s
  | 0, p, c :: s => do
    let (found, k) ← scan U filename p c s
    let out ← tokenizeFrom filename k (p.adv c) s
    .ok (match found with
      | some (kind, value) => ⟨kind, value, p.line, p.col⟩ :: out
      | none => out)

def tokenize (filename : String) (src : Text) : Except PyErr (List Tok) := tokenizeFrom U filename 0 ⟨1, 1⟩ src

end Lexer

end Aclm
