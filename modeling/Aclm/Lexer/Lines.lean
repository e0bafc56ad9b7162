import Aclm.Lexer.Pieces

/-! Lexing line by line: a token ends at the end of a line as it does at the end of the text. -/

set_option autoImplicit false

namespace Aclm.Lexer

open Text

variable {U : CharClasses} {file : String}

/-! ### One token -/

section Scan

variable {class' : Char → Bool} (t : Text)

theorem takeWhile_line (s : Text) (stop : class' '\n' = false) :
    (s ++ '\n' :: t).takeWhile class' = s.takeWhile class' := by
  induction s with
  | nil => simp [stop]
  | cons c s ih =>
    rw [List.cons_append, List.takeWhile_cons, List.takeWhile_cons, ih]

theorem begins_line (s : Text) (stop : class' '\n' = false) : begins class' (s ++ '\n' :: t) = begins class' s := by
  cases s with
  | nil => exact stop
  | cons c s => rfl

theorem newline_plain : U.isdigit '\n' = false ∧ U.isalpha '\n' = false ∧ U.isalnum '\n' = false ∧ word U '\n' = false := by
  have digit : U.isdigit '\n' = false := by rw [U.ascii_digit _ (by decide)]; rfl
  have alpha : U.isalpha '\n' = false := by rw [U.ascii_alpha _ (by decide)]; rfl
  have alnum : U.isalnum '\n' = false := by rw [U.ascii_alnum _ (by decide)]; rfl
  exact ⟨digit, alpha, alnum, by rw [word, alnum]; rfl⟩

theorem numberBody_line (s : Text) : numberBody U (s ++ '\n' :: t) = numberBody U s := by
  obtain ⟨digit, -, alnum, -⟩ := @newline_plain U
  -- Only two characters are looked at before a class decides.
  rcases s with _ | ⟨c, _ | ⟨d, s⟩⟩
  · simp [numberBody, digit]
  · have one : c :: '\n' :: t = [c] ++ '\n' :: t := rfl
    simp only [List.cons_append, List.nil_append]
    unfold numberBody
    split
    · next same => cases same
    · next same => cases same
    · rw [one, takeWhile_line t _ digit]
      split
      · next same => cases same
      · next same => cases same
      · rfl
  · simp only [List.cons_append]
    unfold numberBody
    split
    · next same =>
      cases same
      simp only [takeWhile_line t _ alnum]
    · next same =>
      cases same
      simp only [takeWhile_line t _ alnum]
    · next noX noX' =>
      have two : c :: d :: (s ++ '\n' :: t) = c :: d :: s ++ '\n' :: t := rfl
      split
      · next same =>
        cases same
        exact absurd rfl (noX _)
      · next same =>
        cases same
        exact absurd rfl (noX' _)
      · rw [two, takeWhile_line t _ digit]

/-- A string that is closed does not depend on what follows it. -/
theorem stringBody_line {s : Text} {value : Text} {n : Nat} (closed : stringBody s = some (value, n)) :
    stringBody (s ++ t) = some (value, n) ∧ n ≤ s.length := by
  induction s using stringBody.induct generalizing value n with
  | case1 => cases closed
  | case2 s =>
    cases closed
    exact ⟨rfl, by simp⟩
  | case3 esc s ih =>
    obtain ⟨⟨v, m⟩, inner, shape⟩ := Option.map_eq_some_iff.mp closed
    cases shape
    obtain ⟨same, inside⟩ := ih inner
    refine ⟨?_, by simpa using inside⟩
    rw [List.cons_append, List.cons_append, stringBody, same]
    rfl
  | case4 c s quote escape ih =>
    rw [stringBody.eq_4 c s quote escape] at closed
    obtain ⟨⟨v, m⟩, inner, shape⟩ := Option.map_eq_some_iff.mp closed
    cases shape
    obtain ⟨same, inside⟩ := ih inner
    have plain : c ≠ '\\' := by
      rintro rfl
      cases s with
      | nil => cases inner
      | cons esc s => exact escape esc s rfl rfl
    refine ⟨?_, by simpa using inside⟩
    rw [List.cons_append, stringBody, same]
    · rfl
    · exact quote
    · exact fun esc tail same => absurd same plain

theorem scan_line {p : Pos} {c : Char} {s : Text} (closed : c = '"' → (stringBody s).isSome = true) :
    scan U file p c (s ++ '\n' :: t) = scan U file p c s := by
  obtain ⟨digit, alpha, -, word'⟩ := @newline_plain U
  have number := @numberBody_line U t
  have string : c = '"' → stringBody (s ++ '\n' :: t) = stringBody s := by
    intro quote
    obtain ⟨⟨value, n⟩, found⟩ := Option.isSome_iff_exists.mp (closed quote)
    rw [found, (stringBody_line _ found).1]
  have whole : numberBody U (c :: (s ++ '\n' :: t)) = numberBody U (c :: s) := number (c :: s)
  have start : begins (fun c => U.isalpha c || c == '_' || U.isdigit c) (s ++ '\n' :: t) =
      begins (fun c => U.isalpha c || c == '_' || U.isdigit c) s := begins_line t s (by simp [digit, alpha])
  unfold scan labelBody identBody
  rw [takeWhile_line t s word', number, start, begins_line t s digit, begins_line t s alpha, whole,
    @takeWhile_line (· ≠ '\n') t s (by simp)]
  by_cases quote : c = '"'
  · rw [string quote]
  · simp only [quote, if_false]

end Scan

theorem numberBody_le (s : Text) : (numberBody U s).length ≤ s.length := by
  unfold numberBody
  split
  · simp only [List.length_cons, Nat.add_le_add_iff_right]
    exact (List.takeWhile_prefix _).length_le
  · simp only [List.length_cons, Nat.add_le_add_iff_right]
    exact (List.takeWhile_prefix _).length_le
  · exact (List.takeWhile_prefix _).length_le

/-- A token ends inside the text. -/
theorem scan_le {p : Pos} {c : Char} {s : Text} {found : Option (T × String)} {n : Nat}
    (ok : scan U file p c s = .ok (found, n)) : n ≤ s.length := by
  have taken (class' : Char → Bool) : (s.takeWhile class').length ≤ s.length := (List.takeWhile_prefix _).length_le
  have number := numberBody_le (U := U) s
  have whole := numberBody_le (U := U) (c :: s)
  rw [List.length_cons] at whole
  have exact {kind : T} {value : Text} {m : Nat} (inside : m ≤ s.length)
      (ok : (.ok (token kind value m) : Except PyErr Scan) = .ok (found, n)) : n ≤ s.length := by
    cases ok
    exact inside
  -- In each branch the characters that are taken are a front of what is left.
  unfold scan at ok
  split at ok
  · cases ok
    exact Nat.zero_le _
  split at ok
  · exact exact (Nat.zero_le _) ok
  split at ok
  · cases ok
    exact taken _
  split at ok
  · split at ok
    · next value m closed => exact exact (stringBody_line [] closed).2 ok
    · cases ok
  split at ok
  · exact exact (Nat.zero_le _) ok
  split at ok
  · split at ok
    · exact exact (taken _) ok
    · exact exact (Nat.zero_le _) ok
  split at ok
  · split at ok
    · obtain ⟨value, -, ok⟩ := bind_eq_ok.mp ok
      exact exact number ok
    · exact exact (Nat.zero_le _) ok
  split at ok
  · exact exact (by omega) ok
  split at ok
  · split at ok
    · exact exact (taken _) ok
    · cases ok
  split at ok
  · exact exact (taken _) ok
  · cases ok

/-- The same result, or two exceptions. -/
def Agree {α : Type} (x y : Except PyErr α) : Prop := x = y ∨ (∃ e, x = .error e) ∧ ∃ e, y = .error e

theorem Agree.refl {α : Type} (x : Except PyErr α) : Agree x x := .inl rfl

theorem Agree.raised {α : Type} (e e' : PyErr) : Agree (.error e : Except PyErr α) (.error e') := .inr ⟨⟨e, rfl⟩, e', rfl⟩

theorem Agree.ite {α : Type} {P : Prop} [Decidable P] {x x' y y' : Except PyErr α} (yes : Agree x x') (no : Agree y y') :
    Agree (if P then x else y) (if P then x' else y') := by
  split
  · exact yes
  · exact no

/-- Only the text of an exception says where in the text it is raised. -/
theorem scan_elsewhere (p q : Pos) (c : Char) (s : Text) : Agree (scan U file p c s) (scan U file q c s) := by
  unfold scan
  refine .ite (.refl _) <| .ite (.refl _) <| .ite (.refl _) <| .ite ?_ ?_
  · cases stringBody s with
    | none => exact .raised _ _
    | some closed => exact .refl _
  · cases punctuation c with
    | some kind => exact .refl _
    | none =>
      exact .ite (.refl _) <| .ite (.refl _) <| .ite (.refl _) <| .ite (.ite (.refl _) (.raised _ _)) <|
        .ite (.refl _) (.raised _ _)

theorem closed_of_scan {p : Pos} {c : Char} {s : Text} {x : Scan} (ok : scan U file p c s = .ok x) (quote : c = '"') :
    (stringBody s).isSome = true := by
  subst quote
  cases string : stringBody s with
  | none =>
    rw [scan, if_neg (by decide), if_neg (by decide), if_neg (by decide), if_pos rfl, string] at ok
    cases ok
  | some closed => rfl

/-! ### The text up to the end of a line -/

theorem past_line (p : Pos) (s : Text) : (p.past s).line = p.line + s.count '\n' := by
  induction s generalizing p with
  | nil => rfl
  | cons c s ih =>
    change ((p.adv c).past s).line = _
    rw [ih, Pos.adv, List.count_cons]
    by_cases newline : c = '\n'
    · simp only [newline, if_true, beq_self_eq_true]
      omega
    · simp only [newline, if_false, beq_iff_eq, Nat.add_zero]

/-- What comes before the end of a line is read as it is read alone. -/
theorem tokenizeFrom_line (t : Text) {k : Nat} {p : Pos} {s : Text} {toks : List Tok} (inside : k ≤ s.length)
    (ok : tokenizeFrom U file k p s = .ok toks) :
    ∃ front, toks = front ++ [⟨.eof, "", (p.past s).line, (p.past s).col⟩] ∧
      tokenizeFrom U file k p (s ++ '\n' :: t) = (tokenizeFrom U file 0 (p.past s) ('\n' :: t)).map (front ++ ·) := by
  induction k, p, s using tokenizeFrom.induct generalizing toks with
  | case1 k p =>
    obtain rfl : k = 0 := Nat.le_zero.mp inside
    cases ok
    exact ⟨[], rfl, Reads.nil p _⟩
  | case2 k p c s ih => exact ih (Nat.le_of_succ_le_succ inside) ok
  | case3 p c s ih =>
    rw [tokenizeFrom] at ok
    obtain ⟨⟨found, n⟩, scanned, ok⟩ := bind_eq_ok.mp ok
    obtain ⟨out, read, shape⟩ := bind_eq_ok.mp ok
    obtain ⟨front, rfl, behind⟩ := ih n (scan_le scanned) read
    have same := (scan_line t (closed_of_scan scanned)).trans scanned
    rw [List.cons_append, tokenizeFrom, same, ok_bind]
    dsimp only
    rw [behind]
    cases found with
    | none =>
      cases shape
      refine ⟨front, rfl, ?_⟩
      change _ = (tokenizeFrom U file 0 ((p.adv c).past s) ('\n' :: t)).map _
      cases tokenizeFrom U file 0 ((p.adv c).past s) ('\n' :: t) <;> rfl
    | some token =>
      cases shape
      refine ⟨⟨token.1, token.2, p.line, p.col⟩ :: front, rfl, ?_⟩
      change _ = (tokenizeFrom U file 0 ((p.adv c).past s) ('\n' :: t)).map _
      cases tokenizeFrom U file 0 ((p.adv c).past s) ('\n' :: t) <;> rfl

/-! ### The text behind it -/

/-- The same token, so many lines further down. -/
def down (lines : Nat) (t : Tok) : Tok := { t with line := t.line + lines }

def Pos.down (lines : Nat) (p : Pos) : Pos := ⟨p.line + lines, p.col⟩

theorem adv_down (lines : Nat) (p : Pos) (c : Char) : (p.down lines).adv c = (p.adv c).down lines := by
  unfold Pos.adv Pos.down
  split
  · simp only [Nat.add_right_comm]
  · rfl

theorem Agree.map {α β : Type} {x y : Except PyErr α} (f : α → β) (agree : Agree x y) : Agree (x.map f) (y.map f) := by
  rcases agree with rfl | ⟨⟨e, rfl⟩, e', rfl⟩
  · exact .refl _
  · exact .raised e e'

/-- A text has the same tokens wherever it begins a line. -/
theorem tokenizeFrom_down (lines k : Nat) (p : Pos) (s : Text) :
    Agree ((tokenizeFrom U file k p s).map (List.map (down lines))) (tokenizeFrom U file k (p.down lines) s) := by
  induction k, p, s using tokenizeFrom.induct with
  | case1 k p =>
    rw [tokenizeFrom, tokenizeFrom]
    exact .refl _
  | case2 k p c s ih =>
    rw [tokenizeFrom, tokenizeFrom, adv_down]
    exact ih
  | case3 p c s ih =>
    rw [tokenizeFrom, tokenizeFrom, adv_down]
    rcases scan_elsewhere p (p.down lines) c s with same | ⟨⟨e, raised⟩, e', raised'⟩
    · rw [← same]
      cases scan U file p c s with
      | error e => exact .raised e e
      | ok x =>
        obtain ⟨found, n⟩ := x
        simp only [ok_bind]
        rcases ih n with same | ⟨⟨e, raised⟩, e', raised'⟩
        · rw [← same]
          cases tokenizeFrom U file n (p.adv c) s with
          | error e => exact .raised e e
          | ok out => cases found <;> exact .refl _
        · rw [raised']
          cases read : tokenizeFrom U file n (p.adv c) s with
          | error e => exact .raised e e'
          | ok out =>
            rw [read] at raised
            cases raised
    · rw [raised, raised']
      exact .raised e e'

/-! ### Whole texts -/

/-- A text that is read without an exception, and another one behind the end of its last line: their tokens follow one
another, those of the second one as many lines further down as there are in front of it. -/
theorem tokenize_lines {s₁ : Text} {toks : List Tok} (ok : tokenize U file s₁ = .ok toks) (s₂ : Text) :
    ∃ front eof, toks = front ++ [eof] ∧ eof.kind = .eof ∧
      ((∃ e, tokenize U file (s₁ ++ '\n' :: s₂) = .error e) ↔ ∃ e, tokenize U file s₂ = .error e) ∧
      ∀ toks₂, tokenize U file s₂ = .ok toks₂ → tokenize U file (s₁ ++ '\n' :: s₂) =
        .ok (front ++ ⟨.newline, "\\n", eof.line, eof.col⟩ :: toks₂.map (down (1 + s₁.count '\n'))) := by
  obtain ⟨front, shape, whole⟩ := tokenizeFrom_line s₂ (Nat.zero_le _) ok
  refine ⟨front, _, shape, rfl, ?_⟩
  have reads := @reads_newline U file (Pos.past ⟨1, 1⟩ s₁) s₂
  have start : (Pos.past ⟨1, 1⟩ s₁).past ['\n'] = Pos.down (1 + s₁.count '\n') ⟨1, 1⟩ := by
    change Pos.adv _ '\n' = _
    rw [Pos.adv, if_pos rfl, past_line, Pos.down]
    congr 1
    simp only
    omega
  have line := @tokenizeFrom_down U file (1 + s₁.count '\n') 0 ⟨1, 1⟩ s₂
  unfold Reads at reads
  rw [start, List.singleton_append] at reads
  rw [reads] at whole
  change tokenizeFrom U file 0 ⟨1, 1⟩ (s₁ ++ '\n' :: s₂) = _ at whole
  unfold tokenize
  rw [whole]
  -- The second text is read as it would be by itself, some lines down.
  cases behind : tokenizeFrom U file 0 ⟨1, 1⟩ s₂ with
  | error e =>
    rw [behind] at line
    rcases line with same | ⟨-, e', raised⟩
    · rw [← same]
      exact ⟨⟨fun _ => ⟨e, rfl⟩, fun _ => ⟨e, rfl⟩⟩, fun toks₂ read => by cases read⟩
    · rw [raised]
      exact ⟨⟨fun _ => ⟨e, rfl⟩, fun _ => ⟨e', rfl⟩⟩, fun toks₂ read => by cases read⟩
  | ok toks₂ =>
    rw [behind] at line
    rcases line with same | ⟨⟨e, raised⟩, -⟩
    · rw [← same]
      refine ⟨⟨?_, ?_⟩, fun toks read => ?_⟩
      · rintro ⟨e, raised⟩
        cases raised
      · rintro ⟨e, raised⟩
        cases raised
      · cases read
        rfl
    · cases raised

/-- A line with a comment above one with a label. -/
theorem tokenize_lines_two :
    tokenize CharClasses.ascii "two.acl" ("ret # -".toList ++ '\n' :: "~a".toList) =
      .ok [⟨.ident, "ret", 1, 1⟩, ⟨.newline, "\\n", 1, 8⟩, ⟨.label, "a", 2, 1⟩, ⟨.eof, "", 2, 3⟩] := by
  have alone : tokenize CharClasses.ascii "two.acl" "ret # -".toList = .ok [⟨.ident, "ret", 1, 1⟩, ⟨.eof, "", 1, 8⟩] := rfl
  obtain ⟨front, eof, shape, -, -, whole⟩ := tokenize_lines alone "~a".toList
  have split : [⟨.ident, "ret", 1, 1⟩] = front ∧ [⟨.eof, "", 1, 8⟩] = [eof] := List.append_inj' shape rfl
  obtain ⟨rfl, same⟩ := split
  cases same
  exact whole _ rfl

end Aclm.Lexer
