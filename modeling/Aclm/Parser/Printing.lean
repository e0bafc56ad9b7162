import Aclm.Parser.Spacing
import Aclm.Parser.Texts

/-! Tokens printed with a blank behind each are read back, so that nothing of a text matters but its tokens. -/

set_option autoImplicit false

namespace Aclm

/-- The kind and the value of a token. -/
abbrev Lexeme := T × String

def Tok.word (t : Tok) : Lexeme := (t.kind, t.value)

namespace Lexer

open Text

variable {U : CharClasses} {file : String}

/-! ### Printing -/

/-- The inverse of `unescape`. -/
def escape (c : Char) : Text :=
  if c = '\n' then ['\\', 'n'] else if c = '\t' then ['\\', 't'] else if c = '"' ∨ c = '\\' then ['\\', c] else [c]

def spelling : Lexeme → Text
  | (.newline, _) => ['\n']
  | (.label, value) => '~' :: value.toList
  | (.string, value) => '"' :: (value.toList.flatMap escape ++ ['"'])
  | (_, value) => value.toList

def rendered (ws : List Lexeme) : Text := ws.flatMap fun w => spelling w ++ [' ']

/-- The words as tokens, each in its place. -/
def placed (p : Pos) : List Lexeme → List Tok
  | [] => []
  | w :: ws => ⟨w.1, w.2, p.line, p.col⟩ :: placed (p.past (spelling w ++ [' '])) ws

/-- The words that are tokens. -/
inductive Writable (U : CharClasses) : Lexeme → Prop
  | newline : Writable U (.newline, "\\n")
  | mark {c : Char} {kind : T} (is : punctuation c = some kind) : Writable U (kind, .ofList [c])
  | minus : Writable U (.minus, "-")
  | tilde : Writable U (.tilde, "~")
  | string (value : String) : Writable U (.string, value)
  | label {s : Text} (start : begins (fun c => U.isalpha c || c == '_' || U.isdigit c) s = true)
    (inside : ∀ c ∈ s, word U c = true) : Writable U (.label, .ofList s)
  | digits {c : Char} {s : Text} (digit : U.isdigit c = true) (whole : numberBody U (c :: s) = c :: s) :
    Writable U (.number, .ofList (c :: s))
  | negative (n : Nat) : Writable U (.number, toString (Int.negSucc n))
  | ident {c : Char} {s : Text} (start : (U.isalpha c || c == '_') = true) (other : U.isdigit c = false)
    (inside : ∀ d ∈ s, word U d = true) : Writable U (.ident, .ofList (c :: s))
  | mode {c : Char} {s : Text} (start : U.isalpha c = true) (inside : ∀ d ∈ c :: s, word U d = true) :
    Writable U (.ident, .ofList ('@' :: c :: s))

/-! ### Single words -/

theorem stringBody_escape (s rest : Text) :
    stringBody (s.flatMap escape ++ '"' :: rest) = some (s, (s.flatMap escape).length + 1) := by
  induction s with
  | nil => rfl
  | cons c s ih =>
    rw [List.flatMap_cons, List.append_assoc]
    by_cases newline : c = '\n'
    · subst newline
      simp [escape, stringBody, ih, unescape]
    by_cases tab : c = '\t'
    · subst tab
      simp [escape, stringBody, ih, unescape]
    by_cases special : c = '"' ∨ c = '\\'
    · have kept : unescape c = c := by rcases special with rfl | rfl <;> rfl
      simp [escape, newline, tab, special, stringBody, ih, kept]
    · obtain ⟨quote, slash⟩ := not_or.mp special
      have shape : escape c = [c] := by simp [escape, newline, tab, quote, slash]
      rw [shape, List.singleton_append, stringBody.eq_4 c _ quote fun _ _ same => absurd same slash, ih]
      simp

/-- None of the tests before the one for letters holds of a letter that is no digit. -/
theorem scan_letter (p : Pos) {c : Char} (start : (U.isalpha c || c == '_') = true) (other : U.isdigit c = false) (s : Text) :
    scan U file p c s = .ok (token .ident (c :: identBody U s) (identBody U s).length) := by
  have ne (d : Char) (ascii : d.toNat < 128) (no : (d.isAlpha || d == '_') = false) : c ≠ d := by
    rintro rfl
    rw [U.ascii_alpha c ascii, no] at start
    cases start
  have plain : punctuation c = none := by
    unfold punctuation
    split <;> first | rfl | exact absurd rfl (ne _ (by decide) (by decide))
  unfold scan
  rw [if_neg (by simp only [ne ' ' (by decide) rfl, ne '\t' (by decide) rfl, ne '\r' (by decide) rfl, or_self, not_false_eq_true]),
    if_neg (ne _ (by decide) rfl), if_neg (ne _ (by decide) rfl), if_neg (ne _ (by decide) rfl), plain]
  simp only [ne '~' (by decide) rfl, ne '-' (by decide) rfl, ne '@' (by decide) rfl, other, start, if_true, if_false,
    Bool.false_eq_true]

theorem blank_apart (rest : Text) : begins (word U) (' ' :: rest) = false := by
  rw [begins, word_ascii U (by decide)]
  decide

theorem numberBody_digits {c : Char} {s : Text} (digits : ∀ d ∈ c :: s, d.isDigit = true) : numberBody U (c :: s) = c :: s := by
  unfold numberBody
  split
  · exact absurd (digits 'x' (by simp_all)) (by decide)
  · exact absurd (digits 'X' (by simp_all)) (by decide)
  · exact List.takeWhile_eq_self_iff.mpr fun d member => isdigit_of_ascii (digits d member)

/-- A word in front of a blank is one token. -/
theorem Writable.reads {w : Lexeme} (writable : Writable U w) (p : Pos) (rest : Text) :
    Reads U file p (spelling w) [⟨w.1, w.2, p.line, p.col⟩] (' ' :: rest) := by
  have apart : begins (word U) (' ' :: rest) = false := blank_apart rest
  -- The blank behind a word ends it, whatever class of words it is of.
  cases writable with
  | newline => exact reads_newline p _
  | @mark c kind is =>
    have shape : spelling (kind, String.ofList [c]) = [c] := by
      unfold punctuation at is
      split at is <;> cases is <;> rfl
    rw [shape]
    exact reads_punctuation p is _
  | minus => exact @Parse.reads_minus ⟨file, U⟩ p _ (@Parse.begins_blank_digit ⟨file, U⟩ rest)
  | tilde =>
    change Reads U file p ['~'] [⟨.tilde, "~", p.line, p.col⟩] (' ' :: rest)
    refine .of_scan (some (.tilde, "~")) ?_
    have plain : punctuation '~' = none := rfl
    have other : begins (fun c => U.isalpha c || c == '_' || U.isdigit c) (' ' :: rest) = false := by
      simp [begins, U.ascii_alpha ' ' (by decide), U.ascii_digit ' ' (by decide)]
    unfold scan
    rw [if_neg (by decide), if_neg (by decide), if_neg (by decide), if_neg (by decide), plain]
    simp only [List.nil_append, other, if_true]
    rfl
  | string value =>
    have shape : spelling (.string, value) = '"' :: (value.toList.flatMap escape ++ ['"']) := rfl
    rw [shape]
    refine .of_scan (some (.string, value)) ?_
    rw [List.append_assoc, scan, if_neg (by decide), if_neg (by decide), if_neg (by decide), if_pos rfl]
    simp only [List.singleton_append, stringBody_escape, token, String.ofList_toList, List.length_append, List.length_singleton]
  | @label s start inside =>
    have shape : spelling (.label, String.ofList s) = '~' :: s := by simp [spelling]
    rw [shape]
    refine .of_scan (some (.label, .ofList s)) ?_
    have plain : punctuation '~' = none := rfl
    have start' : begins (fun c => U.isalpha c || c == '_' || U.isdigit c) (s ++ ' ' :: rest) = true := by
      cases s with
      | nil => cases start
      | cons c s => exact start
    unfold scan
    rw [if_neg (by decide), if_neg (by decide), if_neg (by decide), if_neg (by decide), plain]
    simp only [start', labelBody, takeWhile_all inside apart, if_true]
    rfl
  | @digits c s digit whole =>
    have shape : spelling (.number, String.ofList (c :: s)) = c :: s := by simp [spelling]
    rw [shape]
    exact @Parse.reads_digits ⟨file, U⟩ c s digit whole p _ apart
  | negative n =>
    have shape : spelling (.number, toString (Int.negSucc n)) = '-' :: Nat.toDigits 10 (n + 1) := by
      change ("-" ++ Nat.repr (n + 1)).toList = _
      rw [String.toList_append, Nat.toList_repr]
      rfl
    obtain ⟨c, s, front⟩ := List.exists_cons_of_ne_nil (@Nat.toDigits_ne_nil (n + 1) 10)
    -- The sign and the digits are read as one number.
    have digits : ∀ d ∈ c :: s, d.isDigit = true := front ▸ toDigits_digits (n + 1)
    have is : Text.int U 0 (c :: s) = .ok ((n + 1 : Nat) : Int) := by
      have value := @int_toString U ((n + 1 : Nat) : Int)
      rwa [show (toString ((n + 1 : Nat) : Int)).toList = c :: s from Nat.toList_repr.trans front] at value
    rw [shape, front]
    exact @Parse.reads_negative ⟨file, U⟩ c s _ (isdigit_of_ascii (digits c List.mem_cons_self)) (numberBody_digits digits) is p
      _ apart
  | @ident c s start other inside =>
    have shape : spelling (.ident, String.ofList (c :: s)) = c :: s := by simp [spelling]
    rw [shape]
    refine .of_scan (some (.ident, .ofList (c :: s))) ?_
    rw [scan_letter p start other, identBody, takeWhile_all inside apart]
    rfl
  | @mode c s start inside =>
    have shape : spelling (.ident, String.ofList ('@' :: c :: s)) = '@' :: c :: s := by simp [spelling]
    rw [shape]
    refine .of_scan (some (.ident, .ofList ('@' :: c :: s))) ?_
    have digit : U.isdigit '@' = false := U.ascii_digit '@' (by decide)
    have front : begins U.isalpha (c :: s ++ ' ' :: rest) = true := start
    have plain : punctuation '@' = none := rfl
    unfold scan
    rw [if_neg (by decide), if_neg (by decide), if_neg (by decide), if_neg (by decide), plain]
    simp only [show ('@' : Char) ≠ '~' by decide, show ('@' : Char) ≠ '-' by decide, digit, front, identBody,
      takeWhile_all inside apart, if_true, if_false, Bool.false_eq_true]
    rfl

/-- Printed words are read as they are, each in its place. -/
theorem rendered_reads {ws : List Lexeme} (writable : ∀ w ∈ ws, Writable U w) (p : Pos) (rest : Text) :
    Reads U file p (rendered ws) (placed p ws) rest := by
  induction ws generalizing p with
  | nil => exact .nil p rest
  | cons w ws ih =>
    have here := @Writable.reads U file w (writable w List.mem_cons_self) p (rendered ws ++ rest)
    have blank := @reads_blank U file (p.past (spelling w)) ' ' (.inl rfl) (rendered ws ++ rest)
    have behind := ih (fun w member => writable w (List.mem_cons_of_mem _ member)) (p.past (spelling w ++ [' ']))
    exact (here.append (t := [' ']) blank).append behind

theorem placed_words (p : Pos) (ws : List Lexeme) : (placed p ws).map Tok.word = ws := by
  induction ws generalizing p with
  | nil => rfl
  | cons w ws ih => exact congrArg (w :: ·) (ih _)

/-! ### What is read can be written -/

theorem numberBody_whole (c : Char) (s : Text) : numberBody U (numberBody U (c :: s)) = numberBody U (c :: s) := by
  have again (class' : Char → Bool) (s : Text) : (s.takeWhile class').takeWhile class' = s.takeWhile class' :=
    List.takeWhile_eq_self_iff.mpr fun d member => (List.mem_takeWhile_imp member)
  have noX {x : Char} (is : x = 'x' ∨ x = 'X') {t tail : Text} (same : t.takeWhile U.isdigit = '0' :: x :: tail) : False := by
    have digit : U.isdigit x = true := List.mem_takeWhile_imp (same ▸ by simp : x ∈ t.takeWhile U.isdigit)
    rcases is with rfl | rfl <;> (rw [U.ascii_digit _ (by decide)] at digit; exact absurd digit (by decide))
  rw [numberBody.eq_def U (c :: s)]
  split
  · rw [numberBody, again]
  · rw [numberBody, again]
  · rw [numberBody.eq_def]
    split
    · next same => exact (noX (.inl rfl) same).elim
    · next same => exact (noX (.inr rfl) same).elim
    · exact again _ _

theorem numberBody_head {c : Char} (digit : U.isdigit c = true) (s : Text) : ∃ t, numberBody U (c :: s) = c :: t := by
  unfold numberBody
  split
  · next same => exact ⟨_, by rw [(List.cons.inj same).1]⟩
  · next same => exact ⟨_, by rw [(List.cons.inj same).1]⟩
  · exact ⟨_, List.takeWhile_cons_of_pos digit⟩

theorem writable_toString (v : Int) : Writable U (.number, toString v) := by
  cases v with
  | ofNat n =>
    obtain ⟨c, s, front⟩ := List.exists_cons_of_ne_nil (@Nat.toDigits_ne_nil n 10)
    have digits : ∀ d ∈ c :: s, d.isDigit = true := front ▸ toDigits_digits n
    have shape : toString (Int.ofNat n) = .ofList (c :: s) := by
      rw [← front, ← Nat.toList_repr, String.ofList_toList]
      rfl
    rw [shape]
    exact .digits (isdigit_of_ascii (digits c List.mem_cons_self)) (numberBody_digits digits)
  | negSucc n => exact .negative n

/-- Whatever the lexer finds can be written. -/
theorem scan_writable {p : Pos} {c : Char} {s : Text} {w : Lexeme} {n : Nat} (ok : scan U file p c s = .ok (some w, n)) :
    Writable U w := by
  have found {k : T} {v : Text} {m : Nat} (writes : Writable U (k, .ofList v))
      (ok : (.ok (token k v m) : Except PyErr Scan) = .ok (some w, n)) : Writable U w := by
    cases ok
    exact writes
  have all (class' : Char → Bool) (s : Text) : ∀ d ∈ s.takeWhile class', class' d = true := fun d => List.mem_takeWhile_imp
  -- One branch of the scan after the other, in its order.
  unfold scan at ok
  split at ok
  · cases ok
  split at ok
  · exact found .newline ok
  split at ok
  · cases ok
  split at ok
  · split at ok
    · exact found (.string _) ok
    · cases ok
  split at ok
  · next punctuated => exact found (.mark punctuated) ok
  split at ok
  · split at ok
    · next start =>
      refine found (.label ?_ (all _ s)) ok
      cases s with
      | nil => cases start
      | cons d s =>
        have inside : word U d = true := by
          rcases (Bool.or_eq_true _ _).mp start with letter | digit
          · rcases (Bool.or_eq_true _ _).mp letter with alpha | same
            · simp [word, U.alnum_of_alpha d alpha]
            · simp [word, same]
          · simp [word, U.alnum_of_digit d digit]
        -- A letter or a digit behind the tilde is a character of a word, so the label has it in front.
        change begins _ ((d :: s).takeWhile (word U)) = true
        rw [List.takeWhile_cons_of_pos inside]
        exact start
    · next isTilde _ =>
      rw [isTilde] at ok
      exact found .tilde ok
  split at ok
  · split at ok
    · obtain ⟨number, -, ok⟩ := bind_eq_ok.mp ok
      exact found (by rw [String.ofList_toList]; exact writable_toString _) ok
    · next isMinus _ =>
      rw [isMinus] at ok
      exact found .minus ok
  split at ok
  · next digit =>
    obtain ⟨t, shape⟩ := numberBody_head digit s
    have whole := @numberBody_whole U c s
    rw [shape] at ok whole
    exact found (.digits digit whole) ok
  split at ok
  · split at ok
    · next start =>
      cases s with
      | nil => cases start
      | cons d s =>
        have inside : word U d = true := by simp [word, U.alnum_of_alpha d start]
        rw [identBody, List.takeWhile_cons_of_pos inside] at ok
        refine found (.mode start fun e member => ?_) ok
        rcases List.mem_cons.mp member with rfl | member
        · exact inside
        · exact all _ s e member
    · cases ok
  split at ok
  · next noDigit _ start => exact found (.ident start (by simpa using noDigit) (all _ s)) ok
  · cases ok

theorem tokenizeFrom_writable {k : Nat} {p : Pos} {s : Text} {toks : List Tok} (ok : tokenizeFrom U file k p s = .ok toks) :
    ∃ front eof, toks = front ++ [eof] ∧ eof.word = (.eof, "") ∧ ∀ t ∈ front, Writable U t.word := by
  induction k, p, s using tokenizeFrom.induct generalizing toks with
  | case1 k p =>
    cases ok
    exact ⟨[], _, rfl, rfl, fun t member => by cases member⟩
  | case2 k p c s ih => exact ih ok
  | case3 p c s ih =>
    rw [tokenizeFrom] at ok
    obtain ⟨⟨found, n⟩, scanned, ok⟩ := bind_eq_ok.mp ok
    obtain ⟨out, read, shape⟩ := bind_eq_ok.mp ok
    obtain ⟨front, eof, rfl, last, writable⟩ := ih n read
    cases found with
    | none =>
      cases shape
      exact ⟨front, eof, rfl, last, writable⟩
    | some token =>
      cases shape
      exact ⟨_ :: front, eof, rfl, last, List.forall_mem_cons.mpr ⟨scan_writable scanned, writable⟩⟩

end Lexer

namespace Parse

open Lexer

theorem moved_of_words {front front' : List Tok} (same : front.map Tok.word = front'.map Tok.word) :
    List.Forall₂ Moved front front' := by
  rw [← List.forall₂_eq_eq_eq, List.forall₂_map_left_iff, List.forall₂_map_right_iff] at same
  exact same.imp fun _ _ same => Prod.ext_iff.mp same

theorem inside_of_words {front front' : List Tok} (same : front.map Tok.word = front'.map Tok.word)
    (inside : ∀ t ∈ front, t.kind ≠ .eof) : ∀ t ∈ front', t.kind ≠ .eof := by
  intro t member
  have there : t.word ∈ front.map Tok.word := same ▸ List.mem_map_of_mem member
  obtain ⟨u, member, word⟩ := List.mem_map.mp there
  have kind : u.kind = t.kind := congrArg Prod.fst word
  exact kind ▸ inside u member

/-- Where their words are the same, texts have the same statements. -/
theorem statementsOf_words {parser : Parser} {text text' : Text} {front front' : List Tok} {eof eof' : Tok}
    (read : tokenize parser.chars parser.filename text = .ok (front ++ [eof]))
    (read' : tokenize parser.chars parser.filename text' = .ok (front' ++ [eof']))
    (same : front.map Tok.word = front'.map Tok.word) (last : eof.kind = .eof) (last' : eof'.kind = .eof)
    (inside : ∀ t ∈ front, t.kind ≠ .eof) : parser.statementsOf text = parser.statementsOf text' := by
  have ends : Ends [eof] := .eof last
  have ends' : Ends [eof'] := .eof last'
  rw [statementsOf_eq read, statementsOf_eq read']
  exact outcome_alike (alike_append (moved_of_words same) inside ends ends'.endsStatement)
    (alike_append (moved_of_words same.symm) (inside_of_words same inside) ends' ends.endsStatement) ends' ends
    (Nat.lt_succ_self _) (Nat.lt_succ_self _) rfl

/-- Nothing of a text that is read matters but its tokens: printed with one blank behind each, they are read as the same tokens,
and the statements are the same. -/
theorem printed_program {parser : Parser} {text : Text} {toks : List Tok}
    (read : tokenize parser.chars parser.filename text = .ok toks) :
    ∃ toks', tokenize parser.chars parser.filename (rendered (toks.dropLast.map Tok.word)) = .ok toks' ∧
      toks'.map Tok.word = toks.map Tok.word ∧
      parser.statementsOf (rendered (toks.dropLast.map Tok.word)) = parser.statementsOf text := by
  obtain ⟨front, eof, rfl, last, writable⟩ := tokenizeFrom_writable read
  obtain ⟨front', eof', shape', kind, inside⟩ := tokenizeFrom_eof read
  obtain ⟨rfl, same⟩ := List.append_inj' shape' rfl
  obtain rfl := List.singleton_inj.mp same
  rw [List.dropLast_concat]
  obtain ⟨eof', last', again⟩ : ∃ eof' : Tok, eof'.word = (.eof, "") ∧ tokenize parser.chars parser.filename
      (rendered (front.map Tok.word)) = .ok (placed ⟨1, 1⟩ (front.map Tok.word) ++ [eof']) := by
    have reads := @rendered_reads parser.chars parser.filename _ (List.forall_mem_map.mpr writable) ⟨1, 1⟩ []
    have read := reads.ok rfl
    rw [List.append_nil] at read
    exact ⟨_, rfl, read⟩
  have words := placed_words ⟨1, 1⟩ (front.map Tok.word)
  refine ⟨_, again, ?_, ?_⟩
  · simp only [List.map_append, words, List.map_singleton, last, last']
  · exact (statementsOf_words read again words.symm kind (congrArg Prod.fst last') inside).symm

/-- A line with a comment behind it, an empty one, and a string with a quote in it. -/
def spaced : Text := "cpu:add reg1=1 # one\n\n data:const s = \"a\\\"b\"".toList

theorem printed_program_spaced : ∃ toks toks' : List Tok, tokenize .ascii "f" spaced = .ok toks ∧
    tokenize .ascii "f" (rendered (toks.dropLast.map Tok.word)) = .ok toks' ∧ toks'.map Tok.word = toks.map Tok.word := by
  have reads : (tokenize .ascii "f" spaced).isOk = true := by decide
  obtain ⟨toks, read⟩ := exists_of_isOk reads
  obtain ⟨toks', again, words, -⟩ := @printed_program ⟨"f", .ascii⟩ spaced toks read
  exact ⟨toks, toks', read, again, words⟩

end Parse

end Aclm
