import Aclm.Lexer.Lines
import Aclm.Parser.Statements

/-! The statements of a text, and of texts that stand one behind the other. -/

set_option autoImplicit false

namespace Aclm

/-! ### Tokens of a text -/

namespace Lexer

variable {U : CharClasses} {file : String}

theorem scan_inside {p : Pos} {c : Char} {s : Text} {kind : T} {value : String} {n : Nat}
    (ok : scan U file p c s = .ok (some (kind, value), n)) : kind ≠ .eof := by
  have found {k : T} {v : Text} {m : Nat} (inside : k ≠ .eof)
      (ok : (.ok (token k v m) : Except PyErr Scan) = .ok (some (kind, value), n)) : kind ≠ .eof := by
    cases ok
    exact inside
  unfold scan at ok
  split at ok
  · cases ok
  split at ok
  · exact found (by decide) ok
  split at ok
  · cases ok
  split at ok
  · split at ok
    · exact found (by decide) ok
    · cases ok
  split at ok
  · next k punctuated =>
    refine found ?_ ok
    unfold punctuation at punctuated
    split at punctuated <;> cases punctuated <;> decide
  split at ok
  · split at ok
    · exact found (by decide) ok
    · exact found (by decide) ok
  split at ok
  · split at ok
    · obtain ⟨number, -, ok⟩ := bind_eq_ok.mp ok
      exact found (by decide) ok
    · exact found (by decide) ok
  split at ok
  · exact found (by decide) ok
  split at ok
  · split at ok
    · exact found (by decide) ok
    · cases ok
  split at ok
  · exact found (by decide) ok
  · cases ok

/-- Only the last token is the end of the file. -/
theorem tokenizeFrom_eof {k : Nat} {p : Pos} {s : Text} {toks : List Tok} (ok : tokenizeFrom U file k p s = .ok toks) :
    ∃ front eof, toks = front ++ [eof] ∧ eof.kind = .eof ∧ ∀ t ∈ front, t.kind ≠ .eof := by
  induction k, p, s using tokenizeFrom.induct generalizing toks with
  | case1 k p =>
    cases ok
    exact ⟨[], _, rfl, rfl, fun t member => by cases member⟩
  | case2 k p c s ih => exact ih ok
  | case3 p c s ih =>
    rw [tokenizeFrom] at ok
    obtain ⟨⟨found, n⟩, scanned, ok⟩ := bind_eq_ok.mp ok
    obtain ⟨out, read, shape⟩ := bind_eq_ok.mp ok
    obtain ⟨front, eof, rfl, last, inside⟩ := ih n read
    cases found with
    | none =>
      cases shape
      exact ⟨front, eof, rfl, last, inside⟩
    | some token =>
      cases shape
      exact ⟨_ :: front, eof, rfl, last, List.forall_mem_cons.mpr ⟨scan_inside scanned, inside⟩⟩

/-- A quote that is not closed is not closed by the end of a line. -/
theorem stringBody_open {s : Text} (unclosed : stringBody s = none) : stringBody (s ++ ['\n']) = none := by
  induction s using stringBody.induct with
  | case1 => rfl
  | case2 s => cases unclosed
  | case3 esc s ih =>
    rw [stringBody, Option.map_eq_none_iff] at unclosed
    rw [List.cons_append, List.cons_append, stringBody, ih unclosed]
    rfl
  | case4 c s quote escape ih =>
    rw [stringBody.eq_4 c s quote escape, Option.map_eq_none_iff] at unclosed
    by_cases last : c = '\\' ∧ s = []
    · obtain ⟨rfl, rfl⟩ := last
      rfl
    · rw [List.cons_append, stringBody.eq_4 c _ quote, ih unclosed]
      · rfl
      · intro esc tail same split
        cases s with
        | nil => exact last ⟨same, rfl⟩
        | cons d s => exact escape d s same rfl

theorem scan_fails {p : Pos} {c : Char} {s : Text} {e : PyErr} (raised : scan U file p c s = .error e) :
    ∃ e, scan U file p c (s ++ ['\n']) = .error e := by
  by_cases closed : c = '"' → (stringBody s).isSome = true
  · exact ⟨e, (scan_line [] closed).trans raised⟩
  · obtain ⟨rfl, unclosed⟩ := Classical.not_imp.mp closed
    have none := stringBody_open (Option.not_isSome_iff_eq_none.mp unclosed)
    rw [scan, if_neg (by decide), if_neg (by decide), if_neg (by decide), if_pos rfl, none]
    exact ⟨_, rfl⟩

/-- Another empty line at the end mends nothing. -/
theorem tokenizeFrom_fails {k : Nat} {p : Pos} {s : Text} (inside : k ≤ s.length)
    (raised : ∃ e, tokenizeFrom U file k p s = .error e) : ∃ e, tokenizeFrom U file k p (s ++ ['\n']) = .error e := by
  induction k, p, s using tokenizeFrom.induct with
  | case1 k p =>
    obtain ⟨e, raised⟩ := raised
    cases raised
  | case2 k p c s ih => exact ih (Nat.le_of_succ_le_succ inside) raised
  | case3 p c s ih =>
    obtain ⟨e, raised⟩ := raised
    rw [tokenizeFrom] at raised
    rw [List.cons_append, tokenizeFrom]
    cases scanned : scan U file p c s with
    | error e =>
      obtain ⟨e', raised'⟩ := scan_fails scanned
      rw [raised']
      exact ⟨e', rfl⟩
    | ok x =>
      obtain ⟨found, n⟩ := x
      rw [scanned, ok_bind] at raised
      rw [(scan_line [] (closed_of_scan scanned)).trans scanned, ok_bind]
      cases read : tokenizeFrom U file n (p.adv c) s with
      | ok out =>
        simp only [read] at raised
        cases raised
      | error e =>
        obtain ⟨e', raised'⟩ := ih n (scan_le scanned) ⟨_, read⟩
        simp only [raised']
        exact ⟨e', rfl⟩

end Lexer

/-! ### Statements of a text -/

open Parse

/-- The statements of a text, without their places, where it is a program. -/
def Parser.statementsOf (parser : Parser) (text : Text) : Option (List Stmt) :=
  (Lexer.tokenize parser.chars parser.filename text).toOption.bind fun toks =>
    outcome (statements (toks.length + 1) [] parser toks)

namespace Parse

variable {parser : Parser}

/-- Two tokens that differ in their places only. -/
def Moved (t t' : Tok) : Prop := t.kind = t'.kind ∧ t.value = t'.value

theorem alike_append {front front' last tail : List Tok} (same : List.Forall₂ Moved front front')
    (inside : ∀ t ∈ front, t.kind ≠ .eof) (ends : Ends last) (ends' : EndsStatement tail) :
    Alike tail (front ++ last) (front' ++ tail) := by
  induction same with
  | nil => exact .last ends ends' rfl
  | cons moved _ ih =>
    exact .cons moved.1 moved.2 (inside _ List.mem_cons_self) (ih fun t member => inside t (List.mem_cons_of_mem _ member))

theorem moved_self (toks : List Tok) : List.Forall₂ Moved toks toks := List.forall₂_same.mpr fun _ _ => ⟨rfl, rfl⟩

theorem moved_down (n : Nat) (toks : List Tok) : List.Forall₂ Moved toks (toks.map (Lexer.down n)) := by
  induction toks with
  | nil => exact .nil
  | cons t toks ih => exact .cons ⟨rfl, rfl⟩ ih

theorem unlinedAll_append (front back : List Stmt) :
    Stmt.unlinedAll (front ++ back) = Stmt.unlinedAll front ++ Stmt.unlinedAll back := by
  simp only [Stmt.unlinedAll_eq, List.map_append]

theorem statementsOf_eq {text : Text} {toks : List Tok} (read : Lexer.tokenize parser.chars parser.filename text = .ok toks) :
    parser.statementsOf text = outcome (statements (toks.length + 1) [] parser toks) := by
  rw [Parser.statementsOf, read]
  rfl

theorem statementsOf_none {text : Text} (raised : ∃ e, Lexer.tokenize parser.chars parser.filename text = .error e) :
    parser.statementsOf text = none := by
  obtain ⟨e, raised⟩ := raised
  rw [Parser.statementsOf, raised]
  rfl

theorem statementsOf_some {text : Text} {stmts : List Stmt} (reads : parser.statementsOf text = some stmts) :
    ∃ toks, Lexer.tokenize parser.chars parser.filename text = .ok toks := by
  cases read : Lexer.tokenize parser.chars parser.filename text with
  | ok toks => exact ⟨toks, rfl⟩
  | error e =>
    rw [statementsOf_none ⟨e, read⟩] at reads
    cases reads

theorem outcome_map (front : List Stmt) (result : Except PyErr (List Stmt × List Tok)) :
    outcome (result.map fun out => (front ++ out.1, out.2)) = (outcome result).map (Stmt.unlinedAll front ++ ·) := by
  cases result with
  | error e => rfl
  | ok out => exact congrArg some (unlinedAll_append front out.1)

/-- Elsewhere in the text the tokens are the same statements. -/
theorem outcome_down (n : Nat) {text : Text} {toks : List Tok}
    (read : Lexer.tokenize parser.chars parser.filename text = .ok toks) {m : Nat} (short : toks.length < m) :
    outcome (statements m [] parser (toks.map (Lexer.down n))) = parser.statementsOf text := by
  rw [statementsOf_eq read]
  obtain ⟨front, eof, rfl, last, inside⟩ := Lexer.tokenizeFrom_eof read
  have moved := moved_down n front
  have back : List.Forall₂ Moved (front.map (Lexer.down n)) front :=
    moved.flip.imp fun _ _ same => ⟨same.1.symm, same.2.symm⟩
  have ends : Ends [eof] := .eof last
  have ends' : Ends [Lexer.down n eof] := .eof last
  rw [List.map_append, List.map_singleton]
  refine outcome_alike (alike_append back ?_ ends' ends.endsStatement) (alike_append moved inside ends ends'.endsStatement)
    ends ends' (by simpa using short) (Nat.lt_succ_self _) rfl
  intro t member
  obtain ⟨u, there, rfl⟩ := List.mem_map.mp member
  exact inside u there

/-- Behind a text that is a program of its own, another one is read as if it stood alone. -/
theorem statementsOf_append {front : Text} {stmts : List Stmt} (reads : parser.statementsOf front = some stmts) (text : Text) :
    parser.statementsOf (front ++ '\n' :: text) = (parser.statementsOf text).map (stmts ++ ·) := by
  obtain ⟨toks, read⟩ := statementsOf_some reads
  obtain ⟨before, eof, rfl, last, raises, goes⟩ := Lexer.tokenize_lines read text
  obtain ⟨before', eof', shape, -, inside⟩ := Lexer.tokenizeFrom_eof read
  obtain ⟨rfl, -⟩ := List.append_inj' shape rfl
  rw [statementsOf_eq read] at reads
  obtain ⟨all, rest, ran, rfl⟩ := outcome_eq_some.mp reads
  cases behind : Lexer.tokenize parser.chars parser.filename text with
  | error e => rw [statementsOf_none (raises.mpr ⟨e, behind⟩), statementsOf_none ⟨e, behind⟩, Option.map_none]
  | ok toks =>
    have whole := goes toks behind
    have ends : EndsStatement (⟨.newline, "\\n", eof.line, eof.col⟩ :: toks.map (Lexer.down (1 + front.count '\n'))) :=
      ⟨_, _, rfl, .inl rfl⟩
    obtain ⟨m, all', more, unlined, arrived⟩ := statements_alike
      (alike_append (moved_self before) inside (.eof last) ends) _ (Nat.lt_succ_self _) rfl ran
    rw [List.length_cons, List.length_map] at more
    rw [statementsOf_eq whole, arrived, statements_skip m all' (List.dropWhile_cons_of_pos (by simp)), statements_behind,
      outcome_map, outcome_down _ behind (by omega), unlined]

/-- An empty line at the end makes no difference. -/
theorem statementsOf_newline (text : Text) : parser.statementsOf (text ++ ['\n']) = parser.statementsOf text := by
  cases read : Lexer.tokenize parser.chars parser.filename text with
  | error e =>
    have raised := Lexer.tokenizeFrom_fails (Nat.zero_le _) ⟨e, read⟩
    rw [statementsOf_none raised, statementsOf_none ⟨e, read⟩]
  | ok toks =>
    obtain ⟨front, eof, rfl, last, -, goes⟩ := Lexer.tokenize_lines read []
    obtain ⟨front', eof', shape, -, inside⟩ := Lexer.tokenizeFrom_eof read
    obtain ⟨rfl, -⟩ := List.append_inj' shape rfl
    rw [statementsOf_eq read, statementsOf_eq (goes _ rfl)]
    have short : Ends [eof] := .eof last
    have long : Ends (⟨.newline, "\\n", eof.line, eof.col⟩ :: [⟨.eof, "", 1, 1⟩].map (Lexer.down (1 + text.count '\n'))) :=
      .newline rfl (.eof rfl)
    exact outcome_alike (alike_append (moved_self front) inside long short.endsStatement)
      (alike_append (moved_self front) inside short long.endsStatement) short long (Nat.lt_succ_self _) (Nat.lt_succ_self _) rfl

/-- Texts that are programs of their own are read one behind the other as the statements of each, and so is what stands behind
them. -/
theorem statements_joined {pieces : List (Text × List Stmt)}
    (reads : ∀ piece ∈ pieces, parser.statementsOf piece.1 = some piece.2) (text : Text) :
    parser.statementsOf (pieces.foldr (fun piece rest => piece.1 ++ '\n' :: rest) text) =
      (parser.statementsOf text).map ((pieces.map Prod.snd).flatten ++ ·) := by
  induction pieces with
  | nil => simp
  | cons piece pieces ih =>
    obtain ⟨first, later⟩ := List.forall_mem_cons.mp reads
    rw [List.foldr_cons, statementsOf_append first, ih later, Option.map_map]
    refine congrArg (fun f => Option.map f _) (funext fun stmts => ?_)
    simp [List.append_assoc]

/-- Twice the same statement, and nothing behind it. -/
theorem statements_joined_twice : ∃ stmts : List Stmt, stmts.length = 2 ∧
    Parser.statementsOf ⟨"f", .ascii⟩ "cpu:inc reg1\ncpu:inc reg1\n".toList = some stmts := by
  have one : (Parser.statementsOf ⟨"f", .ascii⟩ "cpu:inc reg1".toList).map List.length = some 1 := by decide +kernel
  have none : (Parser.statementsOf ⟨"f", .ascii⟩ []).map List.length = some 0 := by decide +kernel
  obtain ⟨stmts, reads, length⟩ := Option.map_eq_some_iff.mp one
  obtain ⟨rest, ends, empty⟩ := Option.map_eq_some_iff.mp none
  have joined := @statements_joined ⟨"f", .ascii⟩ [("cpu:inc reg1".toList, stmts), ("cpu:inc reg1".toList, stmts)]
    (by simpa using reads) []
  rw [ends, Option.map_some] at joined
  exact ⟨_, by simp [length, empty], joined⟩

end Parse

end Aclm
