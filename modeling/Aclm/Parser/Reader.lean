import Aclm.Lexer

/-! What every method of the parser is made of: steps that read from the tokens that are left. -/

set_option autoImplicit false

namespace Aclm

/-- The parser, less the place it has reached. -/
structure Parser where
  filename : String
  chars : CharClasses

def Parse (α : Type) : Type := Parser → List Tok → Except PyErr (α × List Tok)

namespace Parse

variable {α β : Type}

instance : Monad Parse where
  pure a := fun _ toks => .ok (a, toks)
  bind p f := fun self toks => match p self toks with
    | .ok (a, rest) => f a self rest
    | .error e => .error e

instance : LawfulMonad Parse := LawfulMonad.mk' _
  (fun p => by
    funext self toks
    simp only [Functor.map]
    cases p self toks <;> rfl)
  (fun _ _ => rfl)
  (fun p f g => by
    funext self toks
    simp only [bind]
    cases p self toks <;> rfl)

theorem pure_run (a : α) (self : Parser) (toks : List Tok) : (pure a : Parse α) self toks = .ok (a, toks) := rfl

theorem bind_run {p : Parse α} {f : α → Parse β} {self : Parser} {toks rest : List Tok} {a : α}
    (ran : p self toks = .ok (a, rest)) : (p >>= f) self toks = f a self rest := by
  simp only [bind, ran]

theorem bind_ok {p : Parse α} {f : α → Parse β} {self : Parser} {toks rest : List Tok} {b : β} :
    (p >>= f) self toks = .ok (b, rest) ↔ ∃ a mid, p self toks = .ok (a, mid) ∧ f a self mid = .ok (b, rest) := by
  simp only [bind]
  cases ran : p self toks with
  | error e => simp
  | ok out =>
    constructor
    · exact fun done => ⟨out.1, out.2, rfl, done⟩
    · rintro ⟨a, mid, same, done⟩
      cases same
      exact done

theorem map_run {p : Parse α} {f : α → β} {self : Parser} {toks rest : List Tok} {a : α}
    (ran : p self toks = .ok (a, rest)) : (f <$> p) self toks = .ok (f a, rest) := by
  simp only [Functor.map, ran]
  rfl

def fail (e : PyErr) : Parse α := fun _ _ => .error e

/-- Every loop has as many turns as there are tokens, and reads one in each; none ends here. -/
def exhausted : Parse α := fail .assertionError

def remaining : Parse Nat := fun _ toks => .ok (toks.length, toks)

/-- `_t`. The last token is the end of the file, which is never passed. -/
def peek : Parse Tok := fun _ toks => .ok (toks.headD ⟨.eof, "", 0, 0⟩, toks)

def kind : Parse T := Tok.kind <$> peek

def adv : Parse Tok := fun _ toks => match toks with
  | t :: rest => .ok (t, if t.kind = .eof then toks else rest)
  | [] => .ok (⟨.eof, "", 0, 0⟩, [])

/-- `_match` -/
def accept (kind : T) : Parse Bool := do
  if (← peek).kind = kind then
    let _ ← adv
    return true
  return false

def failAt (t : Tok) (msg : String) : Parse α := fun self _ => .error (.syntaxError s!"{self.filename}:{t.line}:{t.col}: {msg}")

/-- `_expect` -/
def expectFor (kind : T) (msg : String) : Parse Tok := do
  let t ← peek
  if t.kind = kind then adv
  else failAt t (s!"expected {kind.name}, got {t.kind.name}" ++ if msg = "" then "" else s!" ({msg})")

def expect (kind : T) : Parse Tok := expectFor kind ""

/-- `_skip_nl` -/
def skipNl : Parse Unit := fun _ toks => .ok ((), toks.dropWhile fun t => t.kind = .newline)

/-- `int(s, base)` -/
def int (base : Nat) (s : String) : Parse Int := fun self toks => match Text.int self.chars base s.toList with
  | .ok value => .ok (value, toks)
  | .error e => .error e

/-! ### Words of a statement -/

def name : Parse String := Tok.value <$> expect .ident

def keyword : Parse String := lower <$> name

def label : Parse String := Tok.value <$> expect .label

def number : Parse Int := do int 0 (← expect .number).value

/-- A token that may stand here or not. -/
def skip (kind : T) : Parse Unit := do let _ ← accept kind

def eq : Parse Unit := do let _ ← expect .eq

def comma : Parse Unit := do let _ ← expect .comma

def colon : Parse Unit := do let _ ← expect .colon

/-- The statement ends here. -/
def atEnd : Parse Bool := do
  let kind ← kind
  return kind = .newline ∨ kind = .eof

/-- `kw`, in whatever case it is written. -/
def atWord (kw : String) : Parse Bool := do
  let t ← peek
  return t.kind = .ident ∧ lower t.value = kw

/-! ### Runs over a token that is known -/

variable {self : Parser} {t : Tok} {rest : List Tok}

theorem peek_cons : peek self (t :: rest) = .ok (t, t :: rest) := rfl

theorem kind_cons : kind self (t :: rest) = .ok (t.kind, t :: rest) := rfl

theorem adv_cons (inside : t.kind ≠ .eof) : adv self (t :: rest) = .ok (t, rest) := by
  simp only [adv, if_neg inside]

theorem accept_cons {k : T} (same : t.kind = k) (inside : k ≠ .eof) : accept k self (t :: rest) = .ok (true, rest) := by
  rw [accept, bind_run peek_cons, if_pos same, bind_run (adv_cons (same ▸ inside))]
  rfl

theorem accept_other {k : T} (other : t.kind ≠ k) : accept k self (t :: rest) = .ok (false, t :: rest) := by
  rw [accept, bind_run peek_cons, if_neg other]
  rfl

theorem expect_cons {k : T} (same : t.kind = k) (inside : k ≠ .eof) : expect k self (t :: rest) = .ok (t, rest) := by
  rw [expect, expectFor, bind_run peek_cons, if_pos same, adv_cons (same ▸ inside)]

theorem name_cons (same : t.kind = .ident) : name self (t :: rest) = .ok (t.value, rest) :=
  map_run (expect_cons same (by decide))

theorem keyword_cons (same : t.kind = .ident) : keyword self (t :: rest) = .ok (lower t.value, rest) :=
  map_run (name_cons same)

theorem label_cons (same : t.kind = .label) : label self (t :: rest) = .ok (t.value, rest) :=
  map_run (expect_cons same (by decide))

theorem number_cons {value : Int} (same : t.kind = .number) (is : Text.int self.chars 0 t.value.toList = .ok value) :
    number self (t :: rest) = .ok (value, rest) := by
  rw [number, bind_run (expect_cons same (by decide)), int, is]

theorem int_run {base : Nat} {s : String} {value : Int} (is : Text.int self.chars base s.toList = .ok value) :
    int base s self rest = .ok (value, rest) := by
  rw [int, is]

theorem eq_cons (same : t.kind = .eq) : eq self (t :: rest) = .ok ((), rest) := by
  rw [eq, bind_run (expect_cons same (by decide))]
  rfl

theorem comma_cons (same : t.kind = .comma) : comma self (t :: rest) = .ok ((), rest) := by
  rw [comma, bind_run (expect_cons same (by decide))]
  rfl

theorem colon_cons (same : t.kind = .colon) : colon self (t :: rest) = .ok ((), rest) := by
  rw [colon, bind_run (expect_cons same (by decide))]
  rfl

theorem skip_other {k : T} (other : t.kind ≠ k) : skip k self (t :: rest) = .ok ((), t :: rest) := by
  rw [skip, bind_run (accept_other other)]
  rfl

theorem skip_cons {k : T} (same : t.kind = k) (inside : k ≠ .eof) : skip k self (t :: rest) = .ok ((), rest) := by
  rw [skip, bind_run (accept_cons same inside)]
  rfl

/-! ### What is known of a run that has succeeded -/

section Inversion

variable {toks mid : List Tok}

theorem accept_true {k : T} (inside : k ≠ .eof) (ran : accept k self toks = .ok (true, mid)) :
    ∃ t, t.kind = k ∧ toks = t :: mid := by
  cases toks with
  | nil =>
    rw [accept, bind_run (rfl : peek self [] = _)] at ran
    split at ran
    · next isEof => exact absurd isEof.symm inside
    · cases ran
  | cons t toks =>
    by_cases same : t.kind = k
    · rw [accept_cons same inside] at ran
      cases ran
      exact ⟨t, same, rfl⟩
    · rw [accept_other same] at ran
      cases ran

theorem accept_false {k : T} (ran : accept k self toks = .ok (false, mid)) : mid = toks := by
  rw [accept, bind_run (rfl : peek self toks = _)] at ran
  split at ran
  · rw [bind_ok] at ran
    obtain ⟨_, _, -, ran⟩ := ran
    cases ran
  · cases ran
    rfl

theorem int_ok {base : Nat} {s : String} {v : Int} (ran : int base s self toks = .ok (v, mid)) :
    Text.int self.chars base s.toList = .ok v ∧ toks = mid := by
  rw [int] at ran
  split at ran
  · next is =>
    cases ran
    exact ⟨is, rfl⟩
  · cases ran

theorem expectFor_ok {k : T} {msg : String} {t : Tok} (inside : k ≠ .eof) (ran : expectFor k msg self toks = .ok (t, mid)) :
    t.kind = k ∧ toks = t :: mid := by
  rw [expectFor, bind_run (rfl : peek self toks = _)] at ran
  split at ran
  · next same =>
    cases toks with
    | nil => exact absurd same.symm inside
    | cons u toks =>
      rw [List.headD_cons] at same
      rw [adv_cons (same ▸ inside)] at ran
      cases ran
      exact ⟨same, rfl⟩
  · cases ran

theorem expect_ok {k : T} {t : Tok} (inside : k ≠ .eof) (ran : expect k self toks = .ok (t, mid)) :
    t.kind = k ∧ toks = t :: mid :=
  expectFor_ok inside ran

theorem name_ok {word : String} (ran : name self toks = .ok (word, mid)) :
    ∃ t, t.kind = .ident ∧ t.value = word ∧ toks = t :: mid := by
  cases read : expect .ident self toks with
  | error e => simp [name, Functor.map, read] at ran
  | ok out =>
    obtain ⟨t, left⟩ := out
    rw [name, map_run read] at ran
    cases ran
    obtain ⟨kind, rfl⟩ := expect_ok (by decide) read
    exact ⟨t, kind, rfl, rfl⟩

theorem eq_ok (ran : eq self toks = .ok ((), mid)) : ∃ t, t.kind = .eq ∧ toks = t :: mid := by
  rw [eq, bind_ok] at ran
  obtain ⟨t, _, read, ran⟩ := ran
  cases ran
  obtain ⟨kind, rfl⟩ := expect_ok (by decide) read
  exact ⟨t, kind, rfl⟩

theorem number_ok {v : Int} (ran : number self toks = .ok (v, mid)) :
    ∃ t, t.kind = .number ∧ Text.int self.chars 0 t.value.toList = .ok v ∧ toks = t :: mid := by
  rw [Parse.number, bind_ok] at ran
  obtain ⟨t, left, read, ran⟩ := ran
  obtain ⟨is, rfl⟩ := int_ok ran
  obtain ⟨kind, rfl⟩ := expect_ok (by decide) read
  exact ⟨t, kind, is, rfl⟩

end Inversion

/-- The tokens at which a statement ends. -/
def EndsStatement (toks : List Tok) : Prop := ∃ t rest, toks = t :: rest ∧ (t.kind = .newline ∨ t.kind = .eof)

theorem atEnd_run {toks : List Tok} (ends : EndsStatement toks) : atEnd self toks = .ok (true, toks) := by
  obtain ⟨t, rest, rfl, last⟩ := ends
  rw [atEnd, bind_run kind_cons, pure_run, decide_eq_true last]

theorem atEnd_cons (inside : t.kind ≠ .newline ∧ t.kind ≠ .eof) : atEnd self (t :: rest) = .ok (false, t :: rest) := by
  rw [atEnd, bind_run kind_cons, pure_run, decide_eq_false (by simp only [inside.1, inside.2, or_self, not_false_eq_true])]

theorem atWord_cons (kw : String) :
    atWord kw self (t :: rest) = .ok (decide (t.kind = .ident ∧ lower t.value = kw), t :: rest) := rfl

end Parse

end Aclm
