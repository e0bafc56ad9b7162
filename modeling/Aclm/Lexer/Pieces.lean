import Aclm.Lexer

/-! What the lexer makes of a text that is put together from pieces. -/

set_option autoImplicit false

namespace Aclm.Lexer

open Text

variable {U : CharClasses} {file : String}

/-- The text is read as these tokens, and then what follows it as if it stood alone. -/
def Reads (U : CharClasses) (file : String) (p : Pos) (s : Text) (toks : List Tok) (rest : Text) : Prop :=
  tokenizeFrom U file 0 p (s ++ rest) = (tokenizeFrom U file 0 (p.past s) rest).map (toks ++ ·)

theorem Reads.nil (p : Pos) (rest : Text) : Reads U file p [] [] rest := by
  change tokenizeFrom U file 0 p rest = (tokenizeFrom U file 0 p rest).map ([] ++ ·)
  cases tokenizeFrom U file 0 p rest <;> rfl

theorem Pos.past_append (p : Pos) (s t : Text) : p.past (s ++ t) = (p.past s).past t := List.foldl_append

theorem Reads.ok {p : Pos} {s rest : Text} {toks more : List Tok} (reads : Reads U file p s toks rest)
    (behind : tokenizeFrom U file 0 (p.past s) rest = .ok more) : tokenizeFrom U file 0 p (s ++ rest) = .ok (toks ++ more) := by
  rw [reads, behind]
  rfl

theorem Reads.append {p : Pos} {s t rest : Text} {first second : List Tok} (before : Reads U file p s first (t ++ rest))
    (behind : Reads U file (p.past s) t second rest) : Reads U file p (s ++ t) (first ++ second) rest := by
  unfold Reads at *
  rw [List.append_assoc, before, behind, Pos.past_append]
  cases tokenizeFrom U file 0 _ rest with
  | error e => rfl
  | ok toks => simp [Except.map]

/-- What is read already is passed. -/
theorem tokenizeFrom_skip (p : Pos) (s rest : Text) :
    tokenizeFrom U file s.length p (s ++ rest) = tokenizeFrom U file 0 (p.past s) rest := by
  induction s generalizing p with
  | nil => rfl
  | cons c s ih => exact ih (p.adv c)

theorem Reads.of_scan {p : Pos} {c : Char} {s rest : Text} (found : Option (T × String))
    (scanned : scan U file p c (s ++ rest) = .ok (found, s.length)) :
    Reads U file p (c :: s) (found.toList.map fun t => ⟨t.1, t.2, p.line, p.col⟩) rest := by
  unfold Reads
  rw [List.cons_append, tokenizeFrom, scanned, ok_bind]
  change (tokenizeFrom U file s.length (p.adv c) (s ++ rest) >>= fun out => _) =
    Except.map _ (tokenizeFrom U file 0 ((p.adv c).past s) rest)
  rw [tokenizeFrom_skip]
  cases tokenizeFrom U file 0 ((p.adv c).past s) rest with
  | error e => rfl
  | ok toks => cases found <;> rfl

/-! ### Single tokens -/

theorem scan_blank (p : Pos) {c : Char} (is : c = ' ' ∨ c = '\t') (s : Text) : scan U file p c s = .ok (none, 0) := by
  have first : c = ' ' ∨ c = '\t' ∨ c = '\r' := is.imp_right .inl
  rw [scan, if_pos first]
  rfl

theorem reads_blank (p : Pos) {c : Char} (is : c = ' ' ∨ c = '\t') (rest : Text) : Reads U file p [c] [] rest :=
  .of_scan none (scan_blank p is rest)

theorem reads_newline (p : Pos) (rest : Text) : Reads U file p ['\n'] [⟨.newline, "\\n", p.line, p.col⟩] rest :=
  .of_scan (some (.newline, "\\n")) rfl

theorem reads_punctuation (p : Pos) {c : Char} {kind : T} (is : punctuation c = some kind) (rest : Text) :
    Reads U file p [c] [⟨kind, .ofList [c], p.line, p.col⟩] rest := by
  refine .of_scan (some (kind, .ofList [c])) ?_
  unfold punctuation at is
  split at is <;> cases is <;> rfl

theorem takeWhile_all {class' : Char → Bool} {s rest : Text} (all : ∀ c ∈ s, class' c = true)
    (stop : begins class' rest = false) : (s ++ rest).takeWhile class' = s := by
  rw [List.takeWhile_append_of_pos all]
  cases rest with
  | nil => simp
  | cons c rest => simp [show class' c = false from stop]

theorem identStart_range {c : Char} (start : identStart c = true) :
    (65 ≤ c.toNat ∧ c.toNat ≤ 90) ∨ (97 ≤ c.toNat ∧ c.toNat ≤ 122) ∨ c.toNat = 95 := by
  simp only [identStart, isAlpha_ranges, Bool.or_eq_true, Bool.and_eq_true, decide_eq_true_eq, beq_iff_eq] at start
  rcases start with (upper | lower) | same
  · exact .inl upper
  · exact .inr (.inl lower)
  · exact .inr (.inr (congrArg Char.toNat same))

/-- None of the tests before the one for letters holds of an ASCII letter or an underscore. -/
theorem scan_ident (p : Pos) {c : Char} (start : identStart c = true) (s : Text) :
    scan U file p c s = .ok (token .ident (c :: identBody U s) (identBody U s).length) := by
  have ne (d : Char) (other : identStart d = false) : c ≠ d := by
    rintro rfl
    exact absurd start (by simp [other])
  have range := identStart_range start
  have ascii : c.toNat < 128 := by omega
  have plain : punctuation c = none := by
    unfold punctuation
    split <;> first | rfl | exact absurd start (by decide)
  have digit : U.isdigit c = false := by
    rw [U.ascii_digit c ascii]
    simp only [Char.isDigit, Bool.and_eq_false_iff, decide_eq_false_iff_not, UInt32.le_iff_toNat_le, ge_iff_le]
    change ¬48 ≤ c.toNat ∨ ¬c.toNat ≤ 57
    omega
  have alpha : (U.isalpha c || c == '_') = true := by
    rw [U.ascii_alpha c ascii]
    exact start
  unfold scan
  rw [if_neg (by simp only [ne ' ' rfl, ne '\t' rfl, ne '\r' rfl, or_self, not_false_eq_true]), if_neg (ne _ rfl), if_neg (ne _ rfl), if_neg (ne _ rfl), plain]
  simp only [ne '~' rfl, ne '-' rfl, ne '@' rfl, digit, alpha, if_true, if_false, Bool.false_eq_true]

theorem reads_ident (p : Pos) {c : Char} {s rest : Text} (start : identStart c = true) (word' : ∀ d ∈ s, word U d = true)
    (stop : begins (word U) rest = false) : Reads U file p (c :: s) [⟨.ident, .ofList (c :: s), p.line, p.col⟩] rest := by
  refine .of_scan (some (.ident, .ofList (c :: s))) ?_
  rw [scan_ident p start, identBody, takeWhile_all word' stop]
  rfl

theorem digit_range {c : Char} (digit : c.isDigit = true) : 48 ≤ c.toNat ∧ c.toNat ≤ 57 := by
  simp only [Char.isDigit, Bool.and_eq_true, decide_eq_true_eq, UInt32.le_iff_toNat_le, ge_iff_le] at digit
  exact digit

theorem isdigit_of_ascii {c : Char} (digit : c.isDigit = true) : U.isdigit c = true := by
  have range := digit_range digit
  rw [U.ascii_digit c (by omega), digit]

/-- None of the tests before the one for digits holds of an ASCII digit. -/
theorem scan_number (p : Pos) {c : Char} (digit : c.isDigit = true) (s : Text) :
    scan U file p c s = .ok (token .number (numberBody U (c :: s)) ((numberBody U (c :: s)).length - 1)) := by
  have ne (d : Char) (other : d.isDigit = false) : c ≠ d := by
    rintro rfl
    exact absurd digit (by simp [other])
  have plain : punctuation c = none := by
    unfold punctuation
    split <;> first | rfl | exact absurd digit (by decide)
  unfold scan
  rw [if_neg (by simp only [ne ' ' rfl, ne '\t' rfl, ne '\r' rfl, or_self, not_false_eq_true]), if_neg (ne _ rfl),
    if_neg (ne _ rfl), if_neg (ne _ rfl), plain]
  simp only [ne '~' rfl, ne '-' rfl, isdigit_of_ascii digit, if_true, if_false]

/-- Digits are one number, unless they are read as the beginning of a hexadecimal one. -/
theorem reads_number (p : Pos) {c : Char} {s rest : Text} (digit : c.isDigit = true) (digits : ∀ d ∈ s, d.isDigit = true)
    (stop : begins (fun d => U.isdigit d || d == 'x' || d == 'X') rest = false) :
    Reads U file p (c :: s) [⟨.number, .ofList (c :: s), p.line, p.col⟩] rest := by
  have stop' : begins U.isdigit rest = false := by
    cases rest with
    | nil => rfl
    | cons d rest =>
      simp only [begins, Bool.or_eq_false_iff] at stop
      exact stop.1.1
  have taken : (c :: (s ++ rest)).takeWhile U.isdigit = c :: s := by
    refine takeWhile_all (s := c :: s) (fun d member => ?_) stop'
    rcases List.mem_cons.mp member with rfl | member
    · exact isdigit_of_ascii digit
    · exact isdigit_of_ascii (digits d member)
  have noX {x : Char} (is : x = 'x' ∨ x = 'X') (tail : Text) : s ++ rest ≠ x :: tail := by
    intro same
    cases s with
    | nil =>
      rw [List.nil_append] at same
      rcases is with rfl | rfl <;> simp [same, begins] at stop
    | cons d s =>
      cases same
      have := digits x List.mem_cons_self
      rcases is with rfl | rfl <;> exact absurd this (by decide)
  have plain : numberBody U (c :: (s ++ rest)) = c :: s := by
    unfold numberBody
    split
    · next same => exact absurd (List.cons.inj same).2 (noX (.inl rfl) _)
    · next same => exact absurd (List.cons.inj same).2 (noX (.inr rfl) _)
    · exact taken
  refine .of_scan (some (.number, .ofList (c :: s))) ?_
  rw [scan_number p digit, plain]
  rfl

theorem stringBody_plain {s : Text} (plain : ∀ c ∈ s, c ≠ '"' ∧ c ≠ '\\') (rest : Text) :
    stringBody (s ++ '"' :: rest) = some (s, s.length + 1) := by
  induction s with
  | nil => rfl
  | cons c s ih =>
    obtain ⟨quote, escape⟩ := plain c List.mem_cons_self
    have behind := ih fun d member => plain d (List.mem_cons_of_mem _ member)
    rw [List.cons_append, stringBody, behind]
    · rfl
    · exact quote
    · exact fun esc t same => absurd same escape

/-- A string without quotes and escapes in it. -/
theorem reads_string (p : Pos) {s : Text} (plain : ∀ c ∈ s, c ≠ '"' ∧ c ≠ '\\') (rest : Text) :
    Reads U file p ('"' :: (s ++ ['"'])) [⟨.string, .ofList s, p.line, p.col⟩] rest := by
  refine .of_scan (some (.string, .ofList s)) ?_
  rw [List.append_assoc, scan, if_neg (by decide), if_neg (by decide), if_neg (by decide), if_pos rfl]
  simp only [List.singleton_append, stringBody_plain plain, List.length_append, List.length_singleton]
  rfl

end Aclm.Lexer
