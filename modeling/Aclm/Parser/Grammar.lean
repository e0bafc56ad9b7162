import Aclm.Lexer.Numerals
import Aclm.Parser.Brackets

/-! Expressions printed with the fewest parentheses are read back by the two loops over operators. -/

set_option autoImplicit false

namespace Aclm.Parse

/-- The rules of the grammar. -/
inductive Rule where
  | sum | product | primary
  deriving DecidableEq, Repr

/-- The expressions that a rule derives from some tokens. -/
inductive Derives (self : Parser) : Rule → List Tok → Expr → Prop
  | number {t : Tok} {v : Int} (kind : t.kind = .number) (is : Text.int self.chars 0 t.value.toList = .ok v) :
    Derives self .primary [t] (.number v)
  | string {t : Tok} (kind : t.kind = .string) : Derives self .primary [t] (.string t.value)
  | reg {t : Tok} (kind : t.kind = .ident) (named : isRegName t.value = true) : Derives self .primary [t] (.reg t.value)
  | ident {t : Tok} (kind : t.kind = .ident) (other : isRegName t.value = false) :
    Derives self .primary [t] (.ident t.value)
  | field {t d f : Tok} (kind : t.kind = .ident) (other : isRegName t.value = false) (dk : d.kind = .dot)
    (fk : f.kind = .ident) : Derives self .primary [t, d, f] (.structFieldRef t.value f.value)
  | enclosed {open' close : Tok} {toks : List Tok} {e : Expr} (opens : open'.kind = .lparen)
    (inner : Derives self .sum toks e) (closes : close.kind = .rparen) : Derives self .primary (open' :: toks ++ [close]) e
  | product {toks : List Tok} {e : Expr} (inner : Derives self .primary toks e) : Derives self .product toks e
  | mul {o : Tok} {ls rs : List Tok} {left right : Expr} (first : Derives self .product ls left) (isStar : o.kind = .star)
    (second : Derives self .primary rs right) : Derives self .product (ls ++ o :: rs) (.binExpr .mul left right)
  | sum {toks : List Tok} {e : Expr} (inner : Derives self .product toks e) : Derives self .sum toks e
  | add {o : Tok} {op : ExprOp} {ls rs : List Tok} {left right : Expr} (first : Derives self .sum ls left)
    (isSign : addOperator o.kind = some op) (second : Derives self .product rs right) :
    Derives self .sum (ls ++ o :: rs) (.binExpr op left right)

/-! ### What a rule makes of some tokens, whatever follows them -/

section Rules

variable (self : Parser) (e : Expr) (toks : List Tok) (fuel : Nat)

/-- The tokens are a primary. -/
def IsPrimary : Prop := ∀ u rest, u.kind ≠ .dot → primaryIn fuel self (toks ++ u :: rest) = .ok (e, u :: rest)

/-- Behind the tokens, the loop over `*` has come to `e`. -/
def IsProduct : Prop := ∀ u rest, u.kind ≠ .dot → ∃ n, rest.length + 1 < n ∧
  exprMul (primaryIn fuel) self (toks ++ u :: rest) = chain mulOperator (primaryIn fuel) n e self (u :: rest)

/-- Behind the tokens, the loop over `+` and `-` has come to `e`. -/
def IsSum : Prop := ∀ u rest, u.kind ≠ .dot → u.kind ≠ .star → ∃ n, rest.length + 1 < n ∧
  exprAdd (primaryIn fuel) self (toks ++ u :: rest) = chain addOperator (exprMul (primaryIn fuel)) n e self (u :: rest)

variable {self e toks fuel}

theorem mulOperator_none {k : T} (noStar : k ≠ .star) : mulOperator k = none := by
  cases k <;> simp_all [mulOperator]

theorem IsPrimary.product (is : IsPrimary self e toks fuel) : IsProduct self e toks fuel := by
  intro u rest noDot
  refine ⟨(u :: rest).length + 1, by simp, ?_⟩
  rw [exprMul, bind_run (is u rest noDot), bind_run (rfl : remaining self (u :: rest) = _)]

/-- Before anything but another `*` the loop ends. -/
theorem IsProduct.stop (is : IsProduct self e toks fuel) {u : Tok} (noDot : u.kind ≠ .dot) (noStar : u.kind ≠ .star)
    (rest : List Tok) : exprMul (primaryIn fuel) self (toks ++ u :: rest) = .ok (e, u :: rest) := by
  obtain ⟨n, more, ran⟩ := is u rest noDot
  obtain ⟨m, rfl⟩ := Nat.exists_eq_succ_of_ne_zero (by omega : n ≠ 0)
  rw [ran, chain_stop (mulOperator_none noStar)]

theorem IsProduct.sum (is : IsProduct self e toks fuel) : IsSum self e toks fuel := by
  intro u rest noDot noStar
  refine ⟨(u :: rest).length + 1, by simp, ?_⟩
  rw [exprAdd, bind_run (is.stop noDot noStar rest), bind_run (rfl : remaining self (u :: rest) = _)]

variable {left right : Expr} {ls rs : List Tok} {o : Tok}

theorem IsProduct.mul (first : IsProduct self left ls fuel) (isStar : o.kind = .star) (second : IsPrimary self right rs fuel) :
    IsProduct self (.binExpr .mul left right) (ls ++ o :: rs) fuel := by
  intro u rest noDot
  obtain ⟨n, more, ran⟩ := first o (rs ++ u :: rest) (by simp [isStar])
  simp only [List.length_append, List.length_cons] at more
  obtain ⟨m, rfl⟩ := Nat.exists_eq_succ_of_ne_zero (by omega : n ≠ 0)
  refine ⟨m, by omega, ?_⟩
  rw [List.append_assoc, List.cons_append, ran, chain_step (by rw [isStar]; rfl) (by simp [isStar]) (second u rest noDot)]

theorem IsSum.add {op : ExprOp} (first : IsSum self left ls fuel) (isSign : addOperator o.kind = some op)
    (second : IsProduct self right rs fuel) : IsSum self (.binExpr op left right) (ls ++ o :: rs) fuel := by
  intro u rest noDot noStar
  have apart : o.kind ≠ .dot ∧ o.kind ≠ .star ∧ o.kind ≠ .eof := by
    refine ⟨?_, ?_, ?_⟩ <;> intro same <;> rw [same] at isSign <;> cases isSign
  obtain ⟨n, more, ran⟩ := first o (rs ++ u :: rest) apart.1 apart.2.1
  simp only [List.length_append, List.length_cons] at more
  obtain ⟨m, rfl⟩ := Nat.exists_eq_succ_of_ne_zero (by omega : n ≠ 0)
  refine ⟨m, by omega, ?_⟩
  rw [List.append_assoc, List.cons_append, ran, chain_step isSign apart.2.2 (second.stop noDot noStar rest)]

/-- Before anything but an operator the loop ends. -/
theorem IsSum.stop (is : IsSum self e toks fuel) {u : Tok} (follows : Follows u) (rest : List Tok) :
    exprAdd (primaryIn fuel) self (toks ++ u :: rest) = .ok (e, u :: rest) := by
  obtain ⟨n, more, ran⟩ := is u rest follows.1 follows.2.1
  obtain ⟨m, rfl⟩ := Nat.exists_eq_succ_of_ne_zero (by omega : n ≠ 0)
  rw [ran, chain_stop (addOperator_none follows)]

/-- A sum between parentheses is a primary, at the cost of one of the parentheses that can be opened. -/
theorem IsSum.parenthesised {open' close : Tok} (is : IsSum self e toks fuel) (opens : open'.kind = .lparen)
    (closes : close.kind = .rparen) : IsPrimary self e (open' :: toks ++ [close]) (fuel + 1) := by
  intro u rest noDot
  have follows : Follows close := by refine ⟨?_, ?_, ?_, ?_⟩ <;> simp [closes]
  have shape : open' :: toks ++ [close] ++ u :: rest = open' :: (toks ++ close :: u :: rest) := by simp
  have closed : expectFor .rparen "closing )" self (close :: u :: rest) = .ok (close, u :: rest) := by
    rw [expectFor, bind_run peek_cons, if_pos closes, adv_cons (by simp [closes])]
  rw [shape, primaryIn, bind_run peek_cons, opens]
  simp only
  rw [bind_run (adv_cons (by simp [opens])), bind_run (is.stop follows (u :: rest)), bind_run closed]
  rfl

/-- The rule finds the expression in the tokens. -/
def Finds (self : Parser) (e : Expr) (toks : List Tok) (fuel : Nat) : Rule → Prop
  | .sum => IsSum self e toks fuel
  | .product => IsProduct self e toks fuel
  | .primary => IsPrimary self e toks fuel

theorem Leaf.finds {t : Tok} (leaf : Leaf self t e) (small : [t].length ≤ fuel) : IsPrimary self e [t] fuel := by
  obtain ⟨n, rfl⟩ := Nat.exists_eq_succ_of_ne_zero (by simp at small; omega : fuel ≠ 0)
  exact fun u rest noDot => leaf.2 n u rest noDot

theorem leaf_string {t : Tok} (kind : t.kind = .string) : Leaf self t (.string t.value) := by
  refine ⟨by simp [kind], fun n u rest _ => ?_⟩
  rw [primaryIn, bind_run peek_cons, kind]
  simp only
  rw [bind_run (adv_cons (by simp [kind]))]
  rfl

theorem isPrimary_field {t d f : Tok} (tk : t.kind = .ident) (other : isRegName t.value = false) (dk : d.kind = .dot)
    (fk : f.kind = .ident) (fuel : Nat) : IsPrimary self (.structFieldRef t.value f.value) [t, d, f] (fuel + 1) := by
  intro u rest _
  rw [List.cons_append, primaryIn, bind_run peek_cons, tk]
  simp only
  rw [bind_run (adv_cons (by simp [tk])), if_neg (by simp [other])]
  simp only [List.cons_append, List.nil_append]
  rw [bind_run (accept_cons dk (by decide)), if_pos rfl, bind_run (name_cons fk)]
  rfl

/-- What is derived is found, by induction on the derivation. -/
theorem Derives.finds {rule : Rule} (derives : Derives self rule toks e) (small : toks.length ≤ fuel) :
    Finds self e toks fuel rule := by
  induction derives generalizing fuel with
  | number kind is => exact (leaf_number kind is).finds small
  | string kind => exact (leaf_string kind).finds small
  | reg kind named => exact (leaf_reg kind named).finds small
  | ident kind other => exact (leaf_ident kind other).finds small
  | field kind other dk fk =>
    obtain ⟨fuel, rfl⟩ := Nat.exists_eq_succ_of_ne_zero (by simp at small; omega : fuel ≠ 0)
    exact isPrimary_field kind other dk fk fuel
  | enclosed opens _ closes ih =>
    simp only [List.length_append, List.length_cons, List.length_nil] at small
    obtain ⟨fuel, rfl⟩ := Nat.exists_eq_succ_of_ne_zero (by omega : fuel ≠ 0)
    exact (ih (by omega) : IsSum ..).parenthesised opens closes
  | product _ ih => exact (ih small : IsPrimary ..).product
  | mul _ isStar _ first second =>
    simp only [List.length_append, List.length_cons] at small
    exact (first (by omega) : IsProduct ..).mul isStar (second (by omega))
  | sum _ ih => exact (ih small : IsProduct ..).sum
  | add _ isSign _ first second =>
    simp only [List.length_append, List.length_cons] at small
    exact (first (by omega) : IsSum ..).add isSign (second (by omega))

end Rules

/-! ### What is read is derived -/

section Reading

variable {self : Parser} {e : Expr} {toks rest : List Tok}

/-- The rule for operands reads a front of the tokens that it derives the expression from. -/
def Sound (self : Parser) (p : Parse Expr) (rule : Rule) : Prop := ∀ toks e rest, p self toks = .ok (e, rest) →
  ∃ front, toks = front ++ rest ∧ Derives self rule front e

/-- A loop over operators keeps what is derived from the tokens that are read. -/
theorem chain_derives {operator : T → Option ExprOp} {next : Parse Expr} {outer inner : Rule} (noEof : operator .eof = none)
    (closed : ∀ {o : Tok} {op : ExprOp} {ls rs : List Tok} {left right : Expr}, operator o.kind = some op →
      Derives self outer ls left → Derives self inner rs right → Derives self outer (ls ++ o :: rs) (.binExpr op left right))
    (sound : Sound self next inner) (n : Nat) {read : List Tok} {node : Expr} (derives : Derives self outer read node)
    (ran : chain operator next n node self toks = .ok (e, rest)) :
    ∃ front, toks = front ++ rest ∧ Derives self outer (read ++ front) e := by
  induction n generalizing node toks read with
  | zero => cases ran
  | succ n ih =>
    rw [chain, bind_run (rfl : kind self toks = _)] at ran
    cases found : operator (toks.headD ⟨.eof, "", 0, 0⟩).kind with
    | none =>
      rw [found] at ran
      cases ran
      exact ⟨[], rfl, by rwa [List.append_nil]⟩
    | some op =>
      cases toks with
      | nil =>
        rw [List.headD_nil, noEof] at found
        cases found
      | cons o toks =>
        rw [List.headD_cons] at found
        have inside : o.kind ≠ .eof := by
          intro isEof
          rw [isEof, noEof] at found
          cases found
        simp only [List.headD_cons, found] at ran
        rw [bind_run (adv_cons inside), bind_ok] at ran
        obtain ⟨right, mid, isRight, ran⟩ := ran
        obtain ⟨rs, rfl, second⟩ := sound _ _ _ isRight
        obtain ⟨front, rfl, derived⟩ := ih (closed found derives second) ran
        exact ⟨o :: rs ++ front, by simp, by simpa using derived⟩

theorem exprMul_derives {primary : Parse Expr} (sound : Sound self primary .primary) :
    Sound self (exprMul primary) .product := by
  intro toks e rest ran
  rw [exprMul, bind_ok] at ran
  obtain ⟨node, mid, first, ran⟩ := ran
  obtain ⟨read, rfl, derives⟩ := sound _ _ _ first
  rw [bind_run (rfl : remaining self mid = _)] at ran
  have closed {o : Tok} {op : ExprOp} {ls rs : List Tok} {left right : Expr} (found : mulOperator o.kind = some op)
      (before : Derives self .product ls left) (behind : Derives self .primary rs right) :
      Derives self .product (ls ++ o :: rs) (.binExpr op left right) := by
    cases kind : o.kind <;> rw [kind] at found <;> cases found
    exact before.mul kind behind
  obtain ⟨front, rfl, derived⟩ := chain_derives rfl closed sound _ derives.product ran
  exact ⟨read ++ front, by rw [List.append_assoc], derived⟩

theorem exprAdd_derives {primary : Parse Expr} (sound : Sound self primary .primary) : Sound self (exprAdd primary) .sum := by
  intro toks e rest ran
  rw [exprAdd, bind_ok] at ran
  obtain ⟨node, mid, first, ran⟩ := ran
  obtain ⟨read, rfl, derives⟩ := exprMul_derives sound _ _ _ first
  rw [bind_run (rfl : remaining self mid = _)] at ran
  obtain ⟨front, rfl, derived⟩ := chain_derives rfl (fun found before behind => before.add found behind) (exprMul_derives sound) _
    derives.sum ran
  exact ⟨read ++ front, by rw [List.append_assoc], derived⟩

theorem primaryIn_derives (fuel : Nat) : Sound self (primaryIn fuel) .primary := by
  induction fuel with
  | zero =>
    intro toks e rest ran
    cases ran
  | succ n ih =>
    intro toks e rest ran
    cases toks with
    | nil => cases ran
    | cons t toks =>
      rw [primaryIn, bind_run peek_cons] at ran
      cases kind : t.kind with
      | lparen =>
        simp only [kind] at ran
        rw [bind_run (adv_cons (by simp [kind])), bind_ok] at ran
        obtain ⟨node, mid, inner, ran⟩ := ran
        rw [bind_ok] at ran
        obtain ⟨close, _, closed, ran⟩ := ran
        cases ran
        -- What the parentheses enclose is a sum, with one unit of fuel less.
        obtain ⟨front, rfl, derives⟩ := exprAdd_derives ih _ _ _ inner
        obtain ⟨ck, rfl⟩ := expectFor_ok (by decide) closed
        exact ⟨t :: front ++ [close], by simp, .enclosed kind derives ck⟩
      | number =>
        simp only [kind] at ran
        rw [bind_run (adv_cons (by simp [kind])), bind_ok] at ran
        obtain ⟨v, _, read, ran⟩ := ran
        obtain ⟨is, rfl⟩ := int_ok read
        cases ran
        exact ⟨[t], rfl, .number kind is⟩
      | string =>
        simp only [kind] at ran
        rw [bind_run (adv_cons (by simp [kind]))] at ran
        cases ran
        exact ⟨[t], rfl, .string kind⟩
      | ident =>
        simp only [kind] at ran
        rw [bind_run (adv_cons (by simp [kind]))] at ran
        by_cases named : isRegName t.value = true
        · rw [if_pos named] at ran
          cases ran
          exact ⟨[t], rfl, .reg kind named⟩
        · rw [if_neg named, bind_ok] at ran
          obtain ⟨dotted, mid, accepted, ran⟩ := ran
          have plain : isRegName t.value = false := by simpa using named
          cases dotted with
          | true =>
            obtain ⟨d, dk, rfl⟩ := accept_true (by decide) accepted
            rw [if_pos rfl, bind_ok] at ran
            obtain ⟨field, _, read, ran⟩ := ran
            obtain ⟨f, fk, rfl, rfl⟩ := name_ok read
            cases ran
            exact ⟨[t, d, f], rfl, .field kind plain dk fk⟩
          | false =>
            obtain rfl := accept_false accepted
            rw [if_neg (by decide)] at ran
            cases ran
            exact ⟨[t], rfl, .ident kind plain⟩
      | _ =>
        simp only [kind] at ran
        cases ran

theorem primary_derives (ran : primary self toks = .ok (e, rest)) : ∃ front, toks = front ++ rest ∧ Derives self .primary front e := by
  rw [primary, bind_run (rfl : remaining self toks = _)] at ran
  exact primaryIn_derives _ _ _ _ ran

/-- The expression in front of a token that continues none is read just where it is derived. -/
theorem operand_iff {u : Tok} (follows : Follows u) :
    operand self (toks ++ u :: rest) = .ok (e, u :: rest) ↔ Derives self .sum toks e := by
  rw [operand, bind_run (rfl : remaining self (toks ++ u :: rest) = _)]
  constructor
  · intro ran
    obtain ⟨front, shape, derives⟩ := exprAdd_derives (primaryIn_derives _) _ _ _ ran
    rwa [List.append_cancel_right shape]
  · intro derives
    exact (derives.finds (by simp; omega) : IsSum ..).stop follows rest

end Reading

/-! ### Printing -/

def sign : ExprOp → T × String
  | .add => (.plus, "+")
  | .sub => (.minus, "-")
  | .mul => (.star, "*")

/-- The rules for the left and the right operand. -/
def sides : ExprOp → Rule × Rule
  | .add | .sub => (.sum, .product)
  | .mul => (.product, .primary)

/-- Whether an operation needs parentheses where a rule is expected. -/
def needsParens : Rule → ExprOp → Bool
  | .sum, _ => false
  | .product, op => op ≠ .mul
  | .primary, _ => true

/-- The words of an expression where a rule is expected, with parentheses only where they are needed. -/
def printed (numeral : Int → String) : Rule → Expr → List (T × String)
  | rule, .binExpr op left right =>
    let body := printed numeral (sides op).1 left ++ sign op :: printed numeral (sides op).2 right
    if needsParens rule op then (.lparen, "(") :: body ++ [(.rparen, ")")] else body
  | _, .number v => [(.number, numeral v)]
  | _, .string s => [(.string, s)]
  | _, .reg name => [(.ident, name)]
  | _, .ident name => [(.ident, name)]
  | _, .structFieldRef struct field => [(.ident, struct), (.dot, "."), (.ident, field)]

/-- Numbers, registers, and names that are no registers' names. -/
def Arithmetic : Expr → Prop
  | .number _ => True
  | .string _ => False
  | .reg name => isRegName name = true
  | .ident name | .structFieldRef name _ => isRegName name = false
  | .binExpr _ left right => Arithmetic left ∧ Arithmetic right

section Printed

variable {self : Parser} {numeral : Int → String}

theorem Derives.loosen {toks : List Tok} {e : Expr} (derives : Derives self .primary toks e) :
    ∀ rule, Derives self rule toks e
  | .primary => derives
  | .product => derives.product
  | .sum => derives.product.sum

/-- An operator between the words of its operands. -/
theorem body_tokens {op : ExprOp} {first second : List (T × String)} {toks : List Tok}
    (spelled : Spelled toks (first ++ sign op :: second)) : ∃ ls o rs, toks = ls ++ o :: rs ∧ Spelled ls first ∧
      o.kind = (sign op).1 ∧ Spelled rs second := by
  obtain ⟨ls, tail, rfl, before, behind⟩ := spelled.append
  obtain ⟨o, rs, rfl, ok, -, behind⟩ := behind.cons
  exact ⟨ls, o, rs, rfl, before, ok, behind⟩

/-- An operation by itself is what its own rule derives. -/
theorem Derives.operation {op : ExprOp} {ls rs : List Tok} {o : Tok} {left right : Expr} (isSign : o.kind = (sign op).1)
    (first : Derives self (sides op).1 ls left) (second : Derives self (sides op).2 rs right) :
    Derives self (sides op).1 (ls ++ o :: rs) (.binExpr op left right) := by
  cases op with
  | add | sub => exact first.add (by rw [isSign]; rfl) second
  | mul => exact first.mul isSign second

/-- What is printed for a rule is derived by it. -/
theorem printed_derives (numerals : ∀ v, Text.int self.chars 0 (numeral v).toList = .ok v) {e : Expr}
    (arithmetic : Arithmetic e) (rule : Rule) {toks : List Tok} (spelled : Spelled toks (printed numeral rule e)) :
    Derives self rule toks e := by
  induction e generalizing rule toks with
  | number v =>
    obtain ⟨t, _, rfl, tk, tv, spelled⟩ := spelled.cons
    obtain rfl := spelled.nil
    exact (Derives.number tk (by rw [tv]; exact numerals v)).loosen rule
  | string s => exact arithmetic.elim
  | reg name =>
    obtain ⟨t, _, rfl, tk, tv, spelled⟩ := spelled.cons
    obtain rfl := spelled.nil
    subst tv
    exact (Derives.reg tk arithmetic).loosen rule
  | ident name =>
    obtain ⟨t, _, rfl, tk, tv, spelled⟩ := spelled.cons
    obtain rfl := spelled.nil
    subst tv
    exact (Derives.ident tk arithmetic).loosen rule
  | structFieldRef struct field =>
    obtain ⟨t, _, rfl, tk, tv, spelled⟩ := spelled.cons
    obtain ⟨d, _, rfl, dk, -, spelled⟩ := spelled.cons
    obtain ⟨f, _, rfl, fk, fv, spelled⟩ := spelled.cons
    obtain rfl := spelled.nil
    subst tv fv
    exact (Derives.field tk arithmetic dk fk).loosen rule
  | binExpr op left right first second =>
    obtain ⟨before, behind⟩ := arithmetic
    -- Without parentheses the operation is of the rule of its left side.
    have body {toks : List Tok} (spelled : Spelled toks
        (printed numeral (sides op).1 left ++ sign op :: printed numeral (sides op).2 right)) :
        Derives self (sides op).1 toks (.binExpr op left right) := by
      obtain ⟨ls, o, rs, rfl, isLeft, isSign, isRight⟩ := body_tokens spelled
      exact .operation isSign (first before _ isLeft) (second behind _ isRight)
    rw [printed] at spelled
    by_cases parens : needsParens rule op = true
    · rw [if_pos parens] at spelled
      obtain ⟨front, tail, rfl, isFront, isTail⟩ := Spelled.append spelled
      obtain ⟨open', inner, rfl, ok, -, isInner⟩ := isFront.cons
      obtain ⟨close, _, rfl, ck, -, isTail⟩ := isTail.cons
      obtain rfl := isTail.nil
      -- Parentheses enclose a sum, and a product is one, too.
      have sum : Derives self .sum inner (.binExpr op left right) := by
        have derived := body isInner
        cases op with
        | add | sub => exact derived
        | mul => exact derived.sum
      exact (sum.enclosed ok ck).loosen rule
    · rw [if_neg parens] at spelled
      have derived := body spelled
      cases rule with
      | sum =>
        cases op with
        | add | sub => exact derived
        | mul => exact derived.sum
      | product =>
        cases op with
        | add | sub => exact absurd rfl parens
        | mul => exact derived
      | primary => exact absurd rfl parens

/-! #### No parentheses too many -/

def opened (words : List (T × String)) : Nat := words.countP (·.1 = .lparen)

theorem opened_body (numeral : Int → String) (op : ExprOp) (left right : Expr) :
    opened (printed numeral (sides op).1 left ++ sign op :: printed numeral (sides op).2 right) =
      opened (printed numeral (sides op).1 left) + opened (printed numeral (sides op).2 right) := by
  cases op <;> simp [opened, sign]

/-- A tighter rule needs no fewer parentheses, and at most one pair more. -/
theorem opened_tighter (numeral : Int → String) (e : Expr) :
    opened (printed numeral .sum e) ≤ opened (printed numeral .product e) ∧
      opened (printed numeral .product e) ≤ opened (printed numeral .primary e) ∧
      opened (printed numeral .primary e) ≤ opened (printed numeral .sum e) + 1 := by
  cases e with
  | binExpr op left right =>
    simp only [printed]
    generalize printed numeral (sides op).1 left ++ sign op :: printed numeral (sides op).2 right = body
    cases op <;> simp [needsParens, opened]
  | _ => simp [printed]

/-- Whatever tokens the expression is derived from, there are as many opening parentheses as are printed. -/
theorem printed_fewest (numeral : Int → String) {rule : Rule} {toks : List Tok} {e : Expr} (derives : Derives self rule toks e) :
    opened (printed numeral rule e) ≤ toks.countP (·.kind = .lparen) := by
  induction derives with
  | number | string | reg | ident | field => exact Nat.zero_le _
  | @enclosed open' close toks e opens _ _ ih =>
    have tighter := (opened_tighter numeral e).2.2
    have one : (open' :: toks ++ [close]).countP (·.kind = .lparen) ≥ toks.countP (·.kind = .lparen) + 1 := by
      simp [opens]
    omega
  | @product toks e _ ih => exact (opened_tighter numeral e).2.1.trans ih
  | @mul o ls rs left right _ isStar _ first second =>
    have sum : opened (printed numeral .product (.binExpr .mul left right)) = _ := opened_body numeral .mul left right
    rw [sum, List.countP_append, List.countP_cons]
    exact Nat.add_le_add first (second.trans (Nat.le_add_right _ _))
  | @sum toks e _ ih => exact (opened_tighter numeral e).1.trans ih
  | @add o op ls rs left right _ isSign _ first second =>
    have loose : sides op = (.sum, .product) := by
      cases kind : o.kind <;> rw [kind] at isSign <;> cases isSign <;> rfl
    have sum : opened (printed numeral .sum (.binExpr op left right)) = _ := opened_body numeral op left right
    rw [sum, loose, List.countP_append, List.countP_cons]
    exact Nat.add_le_add first (second.trans (Nat.le_add_right _ _))

end Printed

/-- An expression that is printed with the fewest parentheses is read as it was, up to the token behind
its last one. -/
theorem operand_printed {self : Parser} {numeral : Int → String}
    (numerals : ∀ v, Text.int self.chars 0 (numeral v).toList = .ok v) {e : Expr} (arithmetic : Arithmetic e)
    {toks : List Tok} (spelled : Spelled toks (printed numeral .sum e)) {u : Tok} (follows : Follows u) (rest : List Tok) :
    operand self (toks ++ u :: rest) = .ok (e, u :: rest) :=
  (operand_iff follows).mpr (printed_derives numerals arithmetic .sum spelled)

/-- `(reg1 - (4 - x)) * S.f` -/
def differences : Expr := .binExpr .mul (.binExpr .sub (.reg "reg1") (.binExpr .sub (.number 4) (.ident "x"))) (.structFieldRef "S" "f")

example : printed (fun v => toString v) .sum differences = [(.lparen, "("), (.ident, "reg1"), (.minus, "-"), (.lparen, "("),
    (.number, "4"), (.minus, "-"), (.ident, "x"), (.rparen, ")"), (.rparen, ")"), (.star, "*"), (.ident, "S"), (.dot, "."),
    (.ident, "f")] := by decide

theorem operand_printed_differences : operand ⟨"f", .ascii⟩ (((printed (fun v => toString v) .sum differences).map
    fun w => (⟨w.1, w.2, 1, 1⟩ : Tok)) ++ [⟨.comma, ",", 1, 2⟩]) = .ok (differences, [⟨.comma, ",", 1, 2⟩]) := by
  have follows : Follows ⟨.comma, ",", 1, 2⟩ := by refine ⟨?_, ?_, ?_, ?_⟩ <;> decide
  have arithmetic : Arithmetic differences := ⟨⟨show isRegName "reg1" = true by decide, trivial,
    show isRegName "x" = false by decide⟩, show isRegName "S" = false by decide⟩
  exact @operand_printed _ (fun v => toString v) Text.int_toString _ arithmetic _ (by rfl) _ follows []

end Aclm.Parse
