import Aclm.Compiler.Check
import Aclm.Core.Source
import Aclm.Parser.Printing

/-! Programs of the core language as texts, and what the passes, the lexer and the parser make of such a text. -/

set_option autoImplicit false

namespace Aclm.Core

open Text Lexer Parse Macros Compiler

variable {U : CharClasses} {self : Parser}

/-! ### Words -/

def binWord : CpuBinOp → String
  | .set => "set"
  | .add => "add"
  | .sub => "sub"
  | .mul => "mul"
  | .div => "div"
  | .mod => "mod"
  | .and => "and"
  | .or => "or"
  | .xor => "xor"
  | .shl => "shl"
  | .shr => "shr"
  | .sar => "sar"
  | .sal => "sal"
  | .rol => "rol"
  | .ror => "ror"
  | .rcl => "rcl"
  | .rcr => "rcr"

def unaryWord : CpuUnaryOp → String
  | .not => "not"
  | .neg => "neg"
  | .inc => "inc"
  | .dec => "dec"

def operandWords (e : Expr) : List Lexeme := printed (fun v => toString v) .sum e

/-- The words that a statement of the core language is spelled with. -/
def words : Op → List Lexeme
  | .label name => [(.label, name)]
  | .goto name => [(.ident, "goto"), (.label, name)]
  | .jumpIf cond name => [(.ident, "jump_if"), (.ident, cond), (.label, name)]
  | .cmp left right => (.ident, "cmp") :: (operandWords left ++ (.comma, ",") :: operandWords right)
  | .cpuBin op dest value =>
    (.ident, "cpu") :: (.colon, ":") :: (.ident, binWord op) :: (.ident, dest) :: (.eq, "=") :: operandWords value
  | .cpuUnary op dest => [(.ident, "cpu"), (.colon, ":"), (.ident, unaryWord op), (.ident, dest)]
  | .stackPush value => (.ident, "stack") :: (.colon, ":") :: (.ident, "push") :: operandWords value
  | .stackPop dest => [(.ident, "stack"), (.colon, ":"), (.ident, "pop"), (.ident, dest)]
  | _ => []

/-! ### Statements -/

theorem isRegName_of_accepted {name : String} (accepted : Accepted name) : isRegName name = true := by
  obtain ⟨r, found⟩ := accepted
  simp only [resolve] at found
  simp only [isRegName, Dict.contains, Bool.or_eq_true]
  generalize lower (strip name) = n at found ⊢
  split at found
  · cases found
  split at found
  · next virtual => simp [virtual]
  split at found
  · next compat => simp [compat]
  split at found
  · next low => simp [low]
  split at found
  · next physical => simp [physical]
  · cases found

theorem operand_words {e : Expr} (core : CoreOperand e) {toks : List Tok} (spelled : Spelled toks (operandWords e)) {u : Tok}
    (follows : Follows u) (rest : List Tok) : operand self (toks ++ u :: rest) = .ok (e, u :: rest) := by
  have arithmetic : Arithmetic e := by
    cases e with
    | number => trivial
    | reg name => exact isRegName_of_accepted core
    | _ => exact core.elim
  exact (operand_iff follows).mpr (printed_derives Text.int_toString arithmetic .sum spelled)

theorem follows_of {u : Tok} (ends : u.kind = .newline ∨ u.kind = .comma) : Follows u := by
  unfold Follows
  rcases ends with is | is <;> simp [is]

set_option maxRecDepth 4000 in
theorem binWord_found (op : CpuBinOp) : cpuForms.get? (lower (binWord op)) = some (ofAssign (.cpuBin op)) := by
  cases op <;> rfl

set_option maxRecDepth 4000 in
theorem unaryWord_found (op : CpuUnaryOp) : cpuForms.get? (lower (unaryWord op)) = some (ofName (.cpuUnary op)) := by
  cases op <;> rfl

theorem lower_relation : ∀ cond ∈ RELATIONS.keys, lower cond = cond := by decide

/-- A word that a statement of the core language begins with. -/
def Heads (w : Lexeme) : Prop := w.1 = .label ∨ w.1 = .ident ∧ w.2 ∈ ["goto", "jump_if", "cmp", "cpu", "stack"]

theorem words_head {op : Op} (core : CoreOp op) : ∃ w ws, words op = w :: ws ∧ Heads w := by
  cases op <;> first
    | exact ⟨_, _, rfl, .inl rfl⟩
    | exact ⟨_, _, rfl, .inr ⟨rfl, by simp⟩⟩
    | exact core.elim

theorem family_run {kw : String} {forms : Dict (Parse Op)} {form : Parse Op} {c o : Tok} {rest more : List Tok} {op : Op}
    (ck : c.kind = .colon) (ok : o.kind = .ident) (found : forms.get? (lower o.value) = some form)
    (ran : form self rest = .ok (op, more)) : ofColon (family kw forms) self (c :: o :: rest) = .ok (op, more) := by
  rw [ofColon, bind_run (colon_cons ck), family, bind_run (keyword_cons ok), found]
  exact ran

/-- The words of a statement in front of the end of its line are read as the statement. -/
theorem statement_words {op : Op} (core : CoreOp op) {t : Tok} {toks : List Tok} (spelled : Spelled (t :: toks) (words op))
    {u : Tok} (newline : u.kind = .newline) (rest : List Tok) :
    statement self (t :: toks ++ u :: rest) = .ok (.op t.line op, u :: rest) := by
  have ends : Follows u := follows_of (.inl newline)
  cases op with
  | label name =>
    obtain ⟨_, _, same, tk, tv, spelled⟩ := spelled.cons
    cases same
    obtain rfl := spelled.nil
    rw [List.singleton_append, statement, bind_run (rfl : remaining self _ = _), statementIn, bind_run peek_cons, tk]
    simp only
    rw [bind_run (adv_cons (by simp [tk])), pure_run, tv]
  | goto name =>
    obtain ⟨_, _, same, tk, tv, spelled⟩ := spelled.cons
    cases same
    obtain ⟨l, _, rfl, lk, lv, spelled⟩ := spelled.cons
    obtain rfl := spelled.nil
    refine statement_run tk (by rw [tv]; decide) (by rw [tv]; rfl : forms.get? (lower t.value) = some Parse.goto) ?_
    exact bind_run (lv ▸ label_cons lk)
  | jumpIf cond name =>
    obtain ⟨_, _, same, tk, tv, spelled⟩ := spelled.cons
    cases same
    obtain ⟨k, _, rfl, kk, kv, spelled⟩ := spelled.cons
    obtain ⟨l, _, rfl, lk, lv, spelled⟩ := spelled.cons
    obtain rfl := spelled.nil
    refine statement_run tk (by rw [tv]; decide) (by rw [tv]; rfl : forms.get? (lower t.value) = some Parse.jumpIf) ?_
    -- The parser lowers the word of the condition, which leaves a condition of the fragment as it is.
    have word := @keyword_cons self k (l :: u :: rest) kk
    rw [kv, lower_relation cond core] at word
    exact (bind_run word).trans (bind_run (lv ▸ label_cons lk))
  | cmp left right =>
    obtain ⟨_, _, same, tk, tv, spelled⟩ := spelled.cons
    cases same
    obtain ⟨ls, tail, rfl, first, spelled⟩ := spelled.append
    obtain ⟨c, rs, rfl, ck, -, second⟩ := spelled.cons
    refine statement_run tk (by rw [tv]; decide) (by rw [tv]; rfl : forms.get? (lower t.value) = some Parse.cmp) ?_
    change Parse.cmp self ((ls ++ c :: rs) ++ u :: rest) = _
    -- The comma ends the first operand, and what follows the statement ends the second.
    rw [List.append_assoc, List.cons_append]
    exact (bind_run (operand_words core.1 first (follows_of (.inr ck)) _)).trans
      ((bind_run (comma_cons ck)).trans (bind_run (operand_words core.2 second ends rest)))
  | cpuBin op dest value =>
    obtain ⟨_, _, same, tk, tv, spelled⟩ := spelled.cons
    cases same
    obtain ⟨c, _, rfl, ck, -, spelled⟩ := spelled.cons
    obtain ⟨o, _, rfl, ok, ov, spelled⟩ := spelled.cons
    obtain ⟨d, _, rfl, dk, dv, spelled⟩ := spelled.cons
    obtain ⟨e, vs, rfl, ek, -, spelled⟩ := spelled.cons
    refine statement_run tk (by rw [tv]; decide)
      (by rw [tv]; rfl : forms.get? (lower t.value) = some (ofColon (family "cpu" cpuForms))) ?_
    refine family_run ck ok (by rw [ov]; exact binWord_found op) ?_
    exact (bind_run (dv ▸ name_cons dk)).trans ((bind_run (eq_cons ek)).trans (bind_run (operand_words core.2.2 spelled ends rest)))
  | cpuUnary op dest =>
    obtain ⟨_, _, same, tk, tv, spelled⟩ := spelled.cons
    cases same
    obtain ⟨c, _, rfl, ck, -, spelled⟩ := spelled.cons
    obtain ⟨o, _, rfl, ok, ov, spelled⟩ := spelled.cons
    obtain ⟨d, _, rfl, dk, dv, spelled⟩ := spelled.cons
    obtain rfl := spelled.nil
    refine statement_run tk (by rw [tv]; decide)
      (by rw [tv]; rfl : forms.get? (lower t.value) = some (ofColon (family "cpu" cpuForms))) ?_
    exact family_run ck ok (by rw [ov]; exact unaryWord_found op) (bind_run (dv ▸ name_cons dk))
  | stackPush value =>
    obtain ⟨_, _, same, tk, tv, spelled⟩ := spelled.cons
    cases same
    obtain ⟨c, _, rfl, ck, -, spelled⟩ := spelled.cons
    obtain ⟨o, vs, rfl, ok, ov, spelled⟩ := spelled.cons
    refine statement_run tk (by rw [tv]; decide)
      (by rw [tv]; rfl : forms.get? (lower t.value) = some (ofColon (family "stack" stackForms))) ?_
    exact family_run ck ok (by rw [ov]; rfl : stackForms.get? (lower o.value) = some (ofOperand .stackPush))
      (bind_run (operand_words core spelled ends rest))
  | stackPop dest =>
    obtain ⟨_, _, same, tk, tv, spelled⟩ := spelled.cons
    cases same
    obtain ⟨c, _, rfl, ck, -, spelled⟩ := spelled.cons
    obtain ⟨o, _, rfl, ok, ov, spelled⟩ := spelled.cons
    obtain ⟨d, _, rfl, dk, dv, spelled⟩ := spelled.cons
    obtain rfl := spelled.nil
    refine statement_run tk (by rw [tv]; decide)
      (by rw [tv]; rfl : forms.get? (lower t.value) = some (ofColon (family "stack" stackForms))) ?_
    exact family_run ck ok (by rw [ov]; rfl : stackForms.get? (lower o.value) = some (ofName .stackPop)) (bind_run (dv ▸ name_cons dk))
  | _ => exact core.elim

/-! ### Programs -/

/-- A name, a label or a numeral, or a mark between them. -/
inductive Plain (U : CharClasses) : Lexeme → Prop
  | ident {name : String} (identifier : IsIdent U name) : Plain U (.ident, name)
  | label {name : String} (writable : Writable U (.label, name)) : Plain U (.label, name)
  | number (v : Int) : Plain U (.number, toString v)
  | colon : Plain U (.colon, ":")
  | comma : Plain U (.comma, ",")
  | eq : Plain U (.eq, "=")

/-- A statement whose names are tokens. -/
def Spellable (U : CharClasses) (op : Op) : Prop := ∀ w ∈ words op, Plain U w

/-- A statement a line. -/
def source (ops : List Op) : Text := (ops.map fun op => rendered (words op) ++ ['\n']).flatten

/-- The statements from a line on, one a line. -/
def numbered (n : Nat) : List Op → List Stmt
  | [] => []
  | op :: ops => .op n op :: numbered (n + 1) ops

/-- The tokens of the text, in their places. -/
def tokens (p : Pos) : List Op → List Tok
  | [] => [⟨.eof, "", p.line, p.col⟩]
  | op :: ops =>
    placed p (words op) ++ ⟨.newline, "\\n", (p.past (rendered (words op))).line, (p.past (rendered (words op))).col⟩ ::
      tokens ⟨p.line + 1, 1⟩ ops

theorem Plain.writable {w : Lexeme} (plain : Plain U w) : Writable U w := by
  cases plain with
  | @ident name identifier =>
    obtain ⟨c, s, shape, start, inside⟩ := identifier.word
    have range := identStart_range start
    have ascii : c.toNat < 128 := by omega
    rw [← String.ofList_toList (s := name), shape]
    refine .ident ?_ ?_ fun d member => inside d (List.mem_cons_of_mem _ member)
    · rw [U.ascii_alpha c ascii]
      exact start
    · rw [U.ascii_digit c ascii]
      cases digit : c.isDigit with
      | false => rfl
      | true =>
        have digits := digit_range digit
        omega
  | label writable => exact writable
  | number v => exact writable_toString v
  | colon => exact .mark (c := ':') rfl
  | comma => exact .mark (c := ',') rfl
  | eq => exact .mark (c := '=') rfl

/-- No character of such a word ends a line or is an at sign. -/
theorem Plain.chars {w : Lexeme} (plain : Plain U w) : ∀ c ∈ spelling w, lineBreak c = false ∧ c ≠ '@' := by
  have ofWord {c : Char} (inside : word U c = true) : lineBreak c = false ∧ c ≠ '@' := by
    refine ⟨Bool.eq_false_iff.mpr fun ends => ?_, ?_⟩
    · exact absurd inside (by simp [(@lineBreak_plain U c ends).1])
    · rintro rfl
      rw [word_ascii U (by decide)] at inside
      exact absurd inside (by decide)
  have ofDigits (n : Nat) : ∀ c ∈ Nat.toDigits 10 n, lineBreak c = false ∧ c ≠ '@' := fun c member =>
    ofWord (digit_word (toDigits_digits n c member))
  cases plain with
  | @ident name identifier =>
    obtain ⟨d, s, shape, -, inside⟩ := identifier.word
    intro c member
    exact ofWord (inside c (shape ▸ member))
  | @label name writable =>
    intro c member
    rcases List.mem_cons.mp member with rfl | member
    · decide
    generalize same : (T.label, name) = w at writable
    cases writable with
    | label _ inside =>
      cases same
      rw [String.toList_ofList] at member
      exact ofWord (inside c member)
    | mark is =>
      cases same
      unfold punctuation at is
      split at is <;> cases is
    | _ => cases same
  | number v =>
    cases v with
    | ofNat n =>
      have shape : spelling (.number, toString (Int.ofNat n)) = Nat.toDigits 10 n := Nat.toList_repr
      rw [shape]
      exact ofDigits n
    | negSucc n =>
      have shape : spelling (.number, toString (Int.negSucc n)) = '-' :: Nat.toDigits 10 (n + 1) := by
        change ("-" ++ Nat.repr (n + 1)).toList = _
        rw [String.toList_append, Nat.toList_repr]
        rfl
      rw [shape]
      exact List.forall_mem_cons.mpr ⟨by decide, ofDigits _⟩
  | colon | comma | eq => decide

theorem Spellable.chars {op : Op} (spellable : Spellable U op) : ∀ c ∈ rendered (words op), lineBreak c = false ∧ c ≠ '@' := by
  intro c member
  obtain ⟨w, inside, member⟩ := List.mem_flatMap.mp member
  rcases List.mem_append.mp member with here | blank
  · exact (spellable w inside).chars c here
  · obtain rfl := List.mem_singleton.mp blank
    decide

theorem source_tokens {ops : List Op} (spellable : ∀ op ∈ ops, Spellable U op) (file : String) (p : Pos) :
    tokenizeFrom U file 0 p (source ops) = .ok (tokens p ops) := by
  induction ops generalizing p with
  | nil => rfl
  | cons op ops ih =>
    obtain ⟨here, behind⟩ := List.forall_mem_cons.mp spellable
    have reads := @rendered_reads U file _ (fun w member => (here w member).writable) p ('\n' :: source ops)
    have ends := @reads_newline U file (p.past (rendered (words op))) (source ops)
    have none : (rendered (words op)).count '\n' = 0 := by
      refine List.count_eq_zero.mpr fun member => ?_
      exact absurd (here.chars _ member).1 (by decide)
    have next : (p.past (rendered (words op))).past ['\n'] = ⟨p.line + 1, 1⟩ := by
      change Pos.adv _ '\n' = _
      rw [Pos.adv, if_pos rfl, past_line, none]
    have both := (reads.append (t := ['\n']) ends).ok (by rw [Pos.past_append, next]; exact ih behind ⟨p.line + 1, 1⟩)
    refine both.trans ?_
    rw [List.append_assoc]
    rfl

/-- The tokens are read as the statements, one a line. -/
theorem statements_tokens {ops : List Op} (core : ∀ op ∈ ops, CoreOp op) (p : Pos) {n : Nat} (enough : (tokens p ops).length ≤ n)
    (stmts : List Stmt) : ∃ rest, statements n stmts self (tokens p ops) = .ok (stmts ++ numbered p.line ops, rest) := by
  induction ops generalizing p n stmts with
  | nil =>
    have some : 0 < n := enough
    obtain ⟨rest, read⟩ := @statements_ends self (tokens p []) (.eof rfl) n some stmts
    exact ⟨rest, by rw [read, numbered, List.append_nil]⟩
  | cons op ops ih =>
    obtain ⟨here, behind⟩ := List.forall_mem_cons.mp core
    obtain ⟨w, ws, shape, heads⟩ := words_head here
    obtain ⟨t, first⟩ : ∃ t : Tok, (⟨w.1, w.2, p.line, p.col⟩ : Tok) = t := ⟨_, rfl⟩
    have word : t.word = w := by rw [← first]; rfl
    have line : t.line = p.line := by rw [← first]
    obtain ⟨more, front⟩ : ∃ more, placed p (words op) = t :: more := ⟨_, by rw [shape, placed, first]⟩
    obtain ⟨u, newline, left⟩ : ∃ u : Tok, u.kind = .newline ∧
        tokens p (op :: ops) = t :: more ++ u :: tokens ⟨p.line + 1, 1⟩ ops := ⟨_, rfl, by rw [tokens, front]⟩
    have spelled : Spelled (t :: more) (words op) := front ▸ placed_words p (words op)
    have kinds : t.kind ≠ .newline ∧ t.kind ≠ .eof ∧ ¬ (t.kind = .ident ∧ lower t.value = "mode") ∧
        ¬ (t.kind = .ident ∧ lower t.value = "@mode") := by
      have kind : t.kind = w.1 := congrArg Prod.fst word
      have value : t.value = w.2 := congrArg Prod.snd word
      rw [kind, value]
      rcases heads with label | ⟨ident, known⟩
      · simp [label]
      · have other : ∀ s ∈ ["goto", "jump_if", "cmp", "cpu", "stack"], lower s ≠ "mode" ∧ lower s ≠ "@mode" := by decide
        simp [ident, other w.2 known]
    rw [left] at enough ⊢
    obtain ⟨n, rfl⟩ : ∃ k, n = k + 1 := ⟨n - 1, by simp at enough; omega⟩
    have skip : skipNl self (t :: more ++ u :: tokens ⟨p.line + 1, 1⟩ ops) =
        .ok ((), t :: more ++ u :: tokens ⟨p.line + 1, 1⟩ ops) :=
      congrArg (fun toks => Except.ok ((), toks)) (List.dropWhile_cons_of_neg (by simp [kinds.1]))
    obtain ⟨rest, read⟩ := ih behind ⟨p.line + 1, 1⟩ (n := n) (by simp at enough; omega) (stmts ++ [.op p.line op])
    refine ⟨rest, ?_⟩
    rw [statements, bind_run skip, List.cons_append, bind_run kind_cons, if_neg kinds.2.1, bind_run (atWord_cons _),
      bind_run (atWord_cons _), if_neg (by simp only [decide_eq_true_eq, kinds.2.2, or_self, not_false_eq_true]),
      ← List.cons_append, bind_run (statement_words here spelled newline _), line,
      @statements_skip self n _ _ (tokens ⟨p.line + 1, 1⟩ ops) (List.dropWhile_cons_of_pos (by simp [newline])), read,
      List.append_assoc]
    rfl

/-! ### The passes over the text -/

theorem parseDefs_plain {lines : List Text} (plain : ∀ line ∈ lines, macroStart U line = none) (file : String) (n : Nat)
    (macros : Dict Macro) : parseDefs U file n none macros lines = .ok (macros, lines) := by
  induction lines generalizing n with
  | nil => rfl
  | cons line lines ih =>
    obtain ⟨here, behind⟩ := List.forall_mem_cons.mp plain
    rw [parseDefs, here]
    simp only [ih behind, ok_bind]

/-- Without definitions there are no calls. -/
theorem expandOnePass_none (file : String) (n counter : Nat) (lines : List Text) :
    expandOnePass U file [] n counter lines = .ok (counter, lines, false) := by
  induction lines generalizing n with
  | nil => rfl
  | cons line lines ih =>
    have none : invocation U [] line = none := by
      unfold invocation
      split
      · split <;> rfl
      · split <;> rfl
    rw [expandOnePass, none]
    simp only [ih, ok_bind]

theorem expandPasses_none (file : String) (k : Nat) (lines : List Text) : expandPasses U file [] (k + 1) 0 lines = .ok lines := by
  rw [expandPasses, expandOnePass_none]
  rfl

theorem subLabels_plain {σ : Type} (f : σ → String → Text × σ) (state : σ) {s : Text} (noAt : '@' ∉ s) : subLabels U f state s = s := by
  unfold subLabels
  induction s with
  | nil => rfl
  | cons c s ih =>
    have none : localLabel U (c :: s) = none := by
      unfold localLabel
      split
      · next same =>
        cases same
        exact absurd List.mem_cons_self (fun member => noAt (List.mem_cons_of_mem _ member))
      · rfl
    rw [subLabelsFrom, none]
    simp only [ih fun member => noAt (List.mem_cons_of_mem _ member)]

/-- A text that defines no macro and has no local label is the program that its tokens are. -/
theorem programOf_plain {text : Text} (lines : ∀ line ∈ splitLines text, macroStart U line = none) (noAt : '@' ∉ text)
    (file : Text) : programOf U text file =
      (tokenize U (String.ofList file) text >>= fun toks => Parser.parse ⟨String.ofList file, U⟩ toks) := by
  have expanded : expandMacros U (String.ofList file) text = .ok text := by
    have flat : (splitLines text).flatten = text := Strict.splitLinesFrom_flatten [] text
    have passed := @expandPasses_none U (String.ofList file) 63 (splitLines text)
    rw [expandMacros, parseDefs_plain lines, ok_bind]
    simp only [MAX_PASSES, passed, ok_bind, flat]
  rw [programOf, expanded, ok_bind, expandLocalLabels, subLabels_plain renameLocal _ noAt]

theorem resolved_plain (disk : Disk) (limit : Nat) {text : Text} (lines : ∀ line ∈ splitLines text, includeOf line = none)
    (file : Text) : resolved disk (limit + 1) text file = .ok text := by
  simp only [resolved, resolveIncludes, List.not_mem_nil, if_false, Strict.resolveLines_plain disk _ _ _ lines]
  exact congrArg Except.ok (Strict.splitLinesFrom_flatten [] text)

theorem source_lines {ops : List Op} (spellable : ∀ op ∈ ops, Spellable U op) :
    splitLines (source ops) = ops.map fun op => rendered (words op) ++ ['\n'] := by
  have whole : ∀ line ∈ ops.map fun op => rendered (words op) ++ ['\n'], Whole line := by
    refine List.forall_mem_map.mpr fun op member => ⟨_, rfl, fun c inside => ?_⟩
    exact ((spellable op member).chars c inside).1
  have split := splitLines_flatten whole []
  rw [List.append_nil] at split
  exact split.trans (List.append_nil _)

/-- No line begins as an include or a definition does. -/
theorem line_plain {op : Op} (core : CoreOp op) :
    includeOf (rendered (words op) ++ ['\n']) = none ∧ macroStart U (rendered (words op) ++ ['\n']) = none := by
  obtain ⟨w, ws, shape, heads⟩ := words_head core
  obtain ⟨c, s, front, plain, noI, noM⟩ : ∃ c s, rendered (words op) ++ ['\n'] = c :: s ∧ isSpace c = false ∧ c ≠ 'i' ∧ c ≠ 'm' := by
    obtain ⟨kind, value⟩ := w
    rw [shape]
    rcases heads with label | ⟨ident, known⟩
    · obtain rfl : kind = .label := label
      exact ⟨'~', _, rfl, by decide, by decide, by decide⟩
    · obtain rfl : kind = .ident := ident
      simp only [List.mem_cons, List.not_mem_nil, or_false] at known
      rcases known with rfl | rfl | rfl | rfl | rfl <;> exact ⟨_, _, rfl, by decide, by decide, by decide⟩
  have strip : lstrip (c :: s) = c :: s := List.dropWhile_cons_of_neg (by simp [plain])
  rw [front]
  constructor
  · unfold includeOf
    rw [strip]
    split
    · next same => exact absurd (List.cons.inj same).1 noI
    · rfl
  · unfold macroStart
    rw [strip]
    split
    · next same => exact absurd (List.cons.inj same).1 noM
    · rfl

/-- The text of a program of the core language is compiled as this program. -/
theorem compileSource_source (disk : Disk) (limit : Nat) (opts : Options) {ops : List Op} (core : ∀ op ∈ ops, CoreOp op)
    (spellable : ∀ op ∈ ops, Spellable U op) (file : Text) :
    compileSource U disk (limit + 1) opts (source ops) file = generate opts ⟨numbered 1 ops⟩ := by
  have lines := source_lines spellable
  have includes : ∀ line ∈ splitLines (source ops), includeOf line = none := by
    rw [lines]
    exact List.forall_mem_map.mpr fun op member => (line_plain (U := U) (core op member)).1
  have starts : ∀ line ∈ splitLines (source ops), macroStart U line = none := by
    rw [lines]
    exact List.forall_mem_map.mpr fun op member => (line_plain (core op member)).2
  have noAt : '@' ∉ source ops := by
    intro member
    obtain ⟨line, inside, member⟩ := List.mem_flatten.mp member
    obtain ⟨op, there, rfl⟩ := List.mem_map.mp inside
    rcases List.mem_append.mp member with word | last
    · exact ((spellable op there).chars _ word).2 rfl
    · exact absurd (List.mem_singleton.mp last) (by decide)
  obtain ⟨rest, read⟩ := @statements_tokens ⟨String.ofList file, U⟩ ops core ⟨1, 1⟩ _ (Nat.le_succ _) []
  have parsed : Parser.parse ⟨String.ofList file, U⟩ (tokens ⟨1, 1⟩ ops) = .ok ⟨numbered 1 ops⟩ := by
    rw [Parser.parse, read]
    rfl
  rw [compileSource, resolved_plain disk limit includes, ok_bind, programOf_plain starts noAt, tokenize,
    source_tokens spellable, ok_bind, parsed, ok_bind]

end Aclm.Core
