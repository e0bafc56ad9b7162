import Aclm.Parser.Program

/-! What the rules for expressions and addresses make of the documented forms between brackets. -/

set_option autoImplicit false

namespace Aclm.Parse

variable {self : Parser}

/-- A token that is an operand by itself, before anything but a dot. -/
def Leaf (self : Parser) (t : Tok) (e : Expr) : Prop :=
  t.kind ≠ .eof ∧
  ∀ (n : Nat) (u : Tok) (rest : List Tok), u.kind ≠ .dot → primaryIn (n + 1) self (t :: u :: rest) = .ok (e, u :: rest)

theorem leaf_reg {t : Tok} (kind : t.kind = .ident) (reg : isRegName t.value = true) : Leaf self t (.reg t.value) := by
  refine ⟨by simp [kind], fun n u rest _ => ?_⟩
  rw [primaryIn, bind_run peek_cons, kind]
  simp only
  rw [bind_run (adv_cons (by simp [kind])), if_pos reg]
  rfl

theorem leaf_ident {t : Tok} (kind : t.kind = .ident) (other : isRegName t.value = false) :
    Leaf self t (.ident t.value) := by
  refine ⟨by simp [kind], fun n u rest noDot => ?_⟩
  rw [primaryIn, bind_run peek_cons, kind]
  simp only
  rw [bind_run (adv_cons (by simp [kind])), if_neg (by simp [other]), bind_run (accept_other noDot), if_neg (by decide)]
  rfl

theorem leaf_number {t : Tok} {value : Int} (kind : t.kind = .number)
    (is : Text.int self.chars 0 t.value.toList = .ok value) : Leaf self t (.number value) := by
  refine ⟨by simp [kind], fun n u rest _ => ?_⟩
  rw [primaryIn, bind_run peek_cons, kind]
  simp only
  rw [bind_run (adv_cons (by simp [kind])), bind_run (int_run is)]
  rfl

theorem Leaf.primary {t u : Tok} {e : Expr} (leaf : Leaf self t e) (noDot : u.kind ≠ .dot) (rest : List Tok) :
    primary self (t :: u :: rest) = .ok (e, u :: rest) := by
  rw [Parse.primary, bind_run (rfl : remaining self (t :: u :: rest) = _)]
  exact leaf.2 _ u rest noDot

/-! ### Operators -/

theorem chain_stop {operator : T → Option ExprOp} {next : Parse Expr} {u : Tok} (stop : operator u.kind = none) (n : Nat)
    (node : Expr) (rest : List Tok) : chain operator next (n + 1) node self (u :: rest) = .ok (node, u :: rest) := by
  rw [chain, bind_run kind_cons, stop]
  rfl

theorem chain_step {operator : T → Option ExprOp} {next : Parse Expr} {u : Tok} {op : ExprOp} {node right : Expr}
    {rest more : List Tok} (found : operator u.kind = some op) (inside : u.kind ≠ .eof)
    (ran : next self rest = .ok (right, more)) (n : Nat) :
    chain operator next (n + 1) node self (u :: rest) = chain operator next n (.binExpr op node right) self more := by
  rw [chain, bind_run kind_cons, found]
  simp only
  rw [bind_run (adv_cons inside), bind_run ran]

variable {t star v u : Tok} {e f : Expr} {rest : List Tok} {n : Nat}

theorem exprMul_leaf (leaf : Leaf self t e) (noDot : u.kind ≠ .dot) (noStar : u.kind ≠ .star) :
    exprMul (primaryIn (n + 1)) self (t :: u :: rest) = .ok (e, u :: rest) := by
  rw [exprMul, bind_run (leaf.2 n u rest noDot), bind_run (rfl : remaining self (u :: rest) = _)]
  exact chain_stop (by cases kind : u.kind <;> simp_all [mulOperator]) _ e rest

theorem exprMul_star (left : Leaf self t e) (right : Leaf self v f) (isStar : star.kind = .star) (noDot : u.kind ≠ .dot)
    (noStar : u.kind ≠ .star) :
    exprMul (primaryIn (n + 1)) self (t :: star :: v :: u :: rest) = .ok (.binExpr .mul e f, u :: rest) := by
  rw [exprMul, bind_run (left.2 n star _ (by simp [isStar])), bind_run (rfl : remaining self (star :: v :: u :: rest) = _),
    chain_step (by rw [isStar]; rfl) (by simp [isStar]) (right.2 n u rest noDot)]
  exact chain_stop (by cases kind : u.kind <;> simp_all [mulOperator]) _ _ rest

/-- The kinds of tokens behind a whole operand. -/
def Follows (u : Tok) : Prop := u.kind ≠ .dot ∧ u.kind ≠ .star ∧ u.kind ≠ .plus ∧ u.kind ≠ .minus

theorem addOperator_none (follows : Follows u) : addOperator u.kind = none := by
  obtain ⟨-, -, noPlus, noMinus⟩ := follows
  cases kind : u.kind <;> simp_all [addOperator]

theorem operand_of {node : Expr} {toks : List Tok} (ran : ∀ n, exprMul (primaryIn (n + 1)) self toks = .ok (node, u :: rest))
    (follows : Follows u) : operand self toks = .ok (node, u :: rest) := by
  rw [operand, bind_run (rfl : remaining self toks = _), exprAdd, bind_run (ran _),
    bind_run (rfl : remaining self (u :: rest) = _)]
  exact chain_stop (addOperator_none follows) _ node rest

theorem operand_leaf (leaf : Leaf self t e) (follows : Follows u) : operand self (t :: u :: rest) = .ok (e, u :: rest) :=
  operand_of (fun _ => exprMul_leaf leaf follows.1 follows.2.1) follows

theorem operand_mul (left : Leaf self t e) (right : Leaf self v f) (isStar : star.kind = .star) (follows : Follows u)
    (rest : List Tok) : operand self (t :: star :: v :: u :: rest) = .ok (.binExpr .mul e f, u :: rest) :=
  operand_of (fun _ => exprMul_star left right isStar follows.1 follows.2.1) follows

/-- A sum of a product and a leaf is one operand. -/
theorem operand_add {node : Expr} {toks : List Tok} {plus w : Tok} {g : Expr}
    (ran : ∀ n, exprMul (primaryIn (n + 1)) self toks = .ok (node, plus :: w :: u :: rest)) (isPlus : plus.kind = .plus)
    (right : Leaf self w g) (follows : Follows u) : operand self toks = .ok (.binExpr .add node g, u :: rest) := by
  rw [operand, bind_run (rfl : remaining self toks = _), exprAdd, bind_run (ran _),
    bind_run (rfl : remaining self (plus :: w :: u :: rest) = _),
    chain_step (by rw [isPlus]; rfl) (by simp [isPlus]) (exprMul_leaf right follows.1 follows.2.1)]
  exact chain_stop (addOperator_none follows) _ _ rest

/-! ### The documented forms -/

inductive AddressForm where
  | base | disp | index | scaled | scaledDisp | dispScaled
  deriving DecidableEq, Repr

/-- The words of a form: kinds and values of its tokens. -/
def AddressForm.words (b i s d : String) : AddressForm → List (T × String)
  | .base => [(.lbrack, "["), (.ident, b), (.rbrack, "]")]
  | .disp => [(.lbrack, "["), (.ident, b), (.plus, "+"), (.number, d), (.rbrack, "]")]
  | .index => [(.lbrack, "["), (.ident, b), (.plus, "+"), (.ident, i), (.rbrack, "]")]
  | .scaled => [(.lbrack, "["), (.ident, b), (.plus, "+"), (.ident, i), (.star, "*"), (.number, s), (.rbrack, "]")]
  | .scaledDisp => [(.lbrack, "["), (.ident, b), (.plus, "+"), (.ident, i), (.star, "*"), (.number, s), (.plus, "+"),
      (.number, d), (.rbrack, "]")]
  | .dispScaled => [(.lbrack, "["), (.ident, b), (.plus, "+"), (.number, d), (.plus, "+"), (.ident, i), (.star, "*"),
      (.number, s), (.rbrack, "]")]

/-- The tokens are these words, wherever they stand. -/
def Spelled (toks : List Tok) (words : List (T × String)) : Prop := toks.map (fun t => (t.kind, t.value)) = words

theorem Spelled.cons {toks : List Tok} {k : T} {value : String} {words : List (T × String)}
    (spelled : Spelled toks ((k, value) :: words)) :
    ∃ t rest, toks = t :: rest ∧ t.kind = k ∧ t.value = value ∧ Spelled rest words := by
  obtain ⟨t, rest, rfl, word, rest'⟩ := List.map_eq_cons_iff.mp spelled
  exact ⟨t, rest, rfl, congrArg Prod.fst word, congrArg Prod.snd word, rest'⟩

theorem Spelled.nil {toks : List Tok} (spelled : Spelled toks []) : toks = [] := List.map_eq_nil_iff.mp spelled

theorem Spelled.append {toks : List Tok} {words words' : List (T × String)} (spelled : Spelled toks (words ++ words')) :
    ∃ first second, toks = first ++ second ∧ Spelled first words ∧ Spelled second words' := by
  obtain ⟨first, second, rfl, before, behind⟩ := List.map_eq_append_iff.mp spelled
  exact ⟨first, second, rfl, before, behind⟩

/-- What a base is read as. -/
def baseExpr (b : String) : Expr := if isRegName b then .reg b else .ident b

theorem leaf_base {t : Tok} {b : String} (kind : t.kind = .ident) (value : t.value = b) : Leaf self t (baseExpr b) := by
  subst value
  unfold baseExpr
  split
  · next reg => exact leaf_reg kind reg
  · next other => exact leaf_ident kind (by simpa using other)

/-- The address that the reader of a form has in mind. -/
def AddressForm.address (b i : String) (s d : Int) : AddressForm → Address
  | .base => ⟨baseExpr b, .number 0, none, 1⟩
  | .disp => ⟨baseExpr b, .number d, none, 1⟩
  | .index => ⟨baseExpr b, .number 0, some (.reg i), 1⟩
  | .scaled => ⟨baseExpr b, .number 0, some (.reg i), s⟩
  | .scaledDisp => ⟨baseExpr b, .number d, some (.reg i), s⟩
  | .dispScaled => ⟨baseExpr b, .number d, some (.reg i), s⟩

/-- The address that `_mem_addr` reads: behind an index and its scale the displacement belongs to one operand with them. -/
def AddressForm.read (b i : String) (s d : Int) : AddressForm → Address
  | .scaledDisp => ⟨baseExpr b, .binExpr .add (.binExpr .mul (.reg i) (.number s)) (.number d), none, 1⟩
  | form => form.address b i s d

/-- A scale factor of the machine. -/
def Scale (s : Int) : Prop := s = 1 ∨ s = 2 ∨ s = 4 ∨ s = 8

theorem checkScale_run {s : Int} (scale : Scale s) (msg : String) (toks : List Tok) :
    checkScale msg s self toks = .ok (s, toks) := by
  unfold checkScale
  rw [if_pos (show s = 1 ∨ s = 2 ∨ s = 4 ∨ s = 8 from scale)]
  rfl

theorem memParts_stop {t : Tok} {rest : List Tok} (other : t.kind ≠ .plus) (n : Nat) (a : Address) :
    memParts (n + 1) a self (t :: rest) = .ok (a, t :: rest) := by
  rw [memParts, bind_run (accept_other other), if_neg (by decide)]
  rfl

theorem memParts_number {plus t : Tok} {rest : List Tok} {d off : Int} (isPlus : plus.kind = .plus) (kind : t.kind = .number)
    (is : Text.int self.chars 0 t.value.toList = .ok d) (n : Nat) (base : Expr) (index : Option Expr) (scale : Int) :
    memParts (n + 1) ⟨base, .number off, index, scale⟩ self (plus :: t :: rest) =
      memParts n ⟨base, .number (off + d), index, scale⟩ self rest := by
  rw [memParts, bind_run (accept_cons isPlus (by decide)), if_pos rfl, bind_run kind_cons, if_pos kind,
    bind_run (adv_cons (by simp [kind])), bind_run (int_run is), addNumber, bind_run (pure_run _ _ _)]

theorem memParts_operand {plus t : Tok} {rest more : List Tok} {part : Expr} {a a' : Address} (isPlus : plus.kind = .plus)
    (kind : t.kind ≠ .number) (ran : operand self (t :: rest) = .ok (part, more))
    (read : memPart a part self more = .ok (a', more)) (n : Nat) :
    memParts (n + 1) a self (plus :: t :: rest) = memParts n a' self more := by
  rw [memParts, bind_run (accept_cons isPlus (by decide)), if_pos rfl, bind_run kind_cons, if_neg kind, bind_run ran,
    bind_run read]

theorem memAddr_of {open' t close : Tok} (rest : List Tok) {more : List Tok} {b : String} {a : Address} (opened : open'.kind = .lbrack)
    (kind : t.kind = .ident) (value : t.value = b) (closed : close.kind = .rbrack) (noDot : ∀ u ∈ rest.head?, u.kind ≠ .dot)
    (parts : ∀ n, rest.length < n → memParts n ⟨baseExpr b, .number 0, none, 1⟩ self (rest ++ close :: more) =
      .ok (a, close :: more)) :
    memAddr self (open' :: t :: (rest ++ close :: more)) = .ok (a, more) := by
  have leaf : Leaf self t (baseExpr b) := leaf_base kind value
  have based : primary self (t :: (rest ++ close :: more)) = .ok (baseExpr b, rest ++ close :: more) := by
    cases rest with
    | nil => exact leaf.primary (by simp [closed]) more
    | cons u rest => exact leaf.primary (noDot u rfl) _
  rw [memAddr, bind_run (expect_cons opened (by decide)), bind_run based, bind_run (rfl : remaining self _ = _),
    bind_run (parts _ (by simp only [List.length_cons, List.length_append]; omega)), bind_run (expect_cons closed (by decide))]
  rfl

/-! Each form below: `o` and `c` are the brackets, `t` is the base, `p` and `q` are the signs. -/

variable {o c p q x y z : Tok} {b : String} {scale disp : Int} {more : List Tok}

theorem closes (ck : c.kind = .rbrack) : Follows c := by
  refine ⟨?_, ?_, ?_, ?_⟩ <;> simp [ck]

theorem memAddr_base (ok : o.kind = .lbrack) (tk : t.kind = .ident) (tv : t.value = b) (ck : c.kind = .rbrack) :
    memAddr self (o :: t :: c :: more) = .ok (⟨baseExpr b, .number 0, none, 1⟩, more) := by
  refine memAddr_of [] ok tk tv ck (by simp) fun n enough => ?_
  obtain ⟨n, rfl⟩ := Nat.exists_eq_add_of_lt enough
  exact memParts_stop (by simp [ck]) _ _

theorem memAddr_disp (ok : o.kind = .lbrack) (tk : t.kind = .ident) (tv : t.value = b) (pk : p.kind = .plus)
    (xk : x.kind = .number) (dispIs : Text.int self.chars 0 x.value.toList = .ok disp) (ck : c.kind = .rbrack) :
    memAddr self (o :: t :: p :: x :: c :: more) = .ok (⟨baseExpr b, .number disp, none, 1⟩, more) := by
  refine memAddr_of [p, x] ok tk tv ck (by simp [pk]) fun n enough => ?_
  obtain ⟨n, rfl⟩ := Nat.exists_eq_add_of_lt enough
  have length : [p, x].length + n + 1 = (n + 1 + 1) + 1 := by simp; omega
  rw [length, List.cons_append, List.singleton_append, memParts_number pk xk dispIs, memParts_stop (by simp [ck]),
    Int.zero_add]

theorem memPart_reg {e : Expr} (noStar : u.kind ≠ .star) (rest : List Tok) :
    memPart ⟨e, .number 0, none, 1⟩ (.reg x.value) self (u :: rest) =
      .ok (⟨e, .number 0, some (.reg x.value), 1⟩, u :: rest) := by
  simp only [memPart]
  rw [bind_run (accept_other noStar), if_neg (by decide)]
  rfl

theorem memAddr_index (ok : o.kind = .lbrack) (tk : t.kind = .ident) (tv : t.value = b) (pk : p.kind = .plus)
    (xk : x.kind = .ident) (reg : isRegName x.value = true) (ck : c.kind = .rbrack) :
    memAddr self (o :: t :: p :: x :: c :: more) = .ok (⟨baseExpr b, .number 0, some (.reg x.value), 1⟩, more) := by
  refine memAddr_of [p, x] ok tk tv ck (by simp [pk]) fun n enough => ?_
  obtain ⟨n, rfl⟩ := Nat.exists_eq_add_of_lt enough
  have length : [p, x].length + n + 1 = (n + 1 + 1) + 1 := by simp; omega
  rw [length, List.cons_append, List.singleton_append,
    memParts_operand pk (by simp [xk]) (operand_leaf (leaf_reg xk reg) (closes ck)) (memPart_reg (by simp [ck]) _), memParts_stop (by simp [ck])]

theorem memPart_scaled {e : Expr} {off : Int} (known : Scale scale) (toks : List Tok) :
    memPart ⟨e, .number off, none, 1⟩ (.binExpr .mul (.reg x.value) (.number scale)) self toks =
      .ok (⟨e, .number off, some (.reg x.value), scale⟩, toks) := by
  rw [memPart, bind_run (checkScale_run known _ _)]
  rfl

theorem memAddr_scaled (ok : o.kind = .lbrack) (tk : t.kind = .ident) (tv : t.value = b) (pk : p.kind = .plus)
    (xk : x.kind = .ident) (reg : isRegName x.value = true) (stk : star.kind = .star) (yk : y.kind = .number)
    (scaleIs : Text.int self.chars 0 y.value.toList = .ok scale) (known : Scale scale) (ck : c.kind = .rbrack) :
    memAddr self (o :: t :: p :: x :: star :: y :: c :: more) =
      .ok (⟨baseExpr b, .number 0, some (.reg x.value), scale⟩, more) := by
  refine memAddr_of [p, x, star, y] ok tk tv ck (by simp [pk]) fun n enough => ?_
  obtain ⟨n, rfl⟩ := Nat.exists_eq_add_of_lt enough
  have length : [p, x, star, y].length + n + 1 = (n + 3 + 1) + 1 := by simp; omega
  have product := operand_mul (leaf_reg xk reg) (leaf_number yk scaleIs) stk (closes ck) more
  rw [length, show [p, x, star, y] ++ c :: more = p :: x :: star :: y :: c :: more from rfl,
    memParts_operand pk (by simp [xk]) product (memPart_scaled known _), memParts_stop (by simp [ck])]

theorem memPart_sum {e left right : Expr} (toks : List Tok) :
    memPart ⟨e, .number 0, none, 1⟩ (.binExpr .add left right) self toks =
      .ok (⟨e, .binExpr .add left right, none, 1⟩, toks) := rfl

/-- Here the whole of `i*s+d` is one operand. -/
theorem memAddr_scaledDisp (ok : o.kind = .lbrack) (tk : t.kind = .ident) (tv : t.value = b) (pk : p.kind = .plus)
    (xk : x.kind = .ident) (reg : isRegName x.value = true) (stk : star.kind = .star) (yk : y.kind = .number)
    (scaleIs : Text.int self.chars 0 y.value.toList = .ok scale) (qk : q.kind = .plus) (zk : z.kind = .number)
    (dispIs : Text.int self.chars 0 z.value.toList = .ok disp) (ck : c.kind = .rbrack) :
    memAddr self (o :: t :: p :: x :: star :: y :: q :: z :: c :: more) =
      .ok (⟨baseExpr b, .binExpr .add (.binExpr .mul (.reg x.value) (.number scale)) (.number disp), none, 1⟩, more) := by
  refine memAddr_of [p, x, star, y, q, z] ok tk tv ck (by simp [pk]) fun n enough => ?_
  obtain ⟨n, rfl⟩ := Nat.exists_eq_add_of_lt enough
  have product (n : Nat) : exprMul (primaryIn (n + 1)) self (x :: star :: y :: q :: z :: c :: more) =
      .ok (.binExpr .mul (.reg x.value) (.number scale), q :: z :: c :: more) :=
    exprMul_star (leaf_reg xk reg) (leaf_number yk scaleIs) stk (by simp [qk]) (by simp [qk])
  have whole := operand_add product qk (leaf_number zk dispIs) (closes ck)
  have length : [p, x, star, y, q, z].length + n + 1 = (n + 5 + 1) + 1 := by simp; omega
  rw [length, show [p, x, star, y, q, z] ++ c :: more = p :: x :: star :: y :: q :: z :: c :: more from rfl,
    memParts_operand pk (by simp [xk]) whole (memPart_sum _), memParts_stop (by simp [ck])]

theorem memAddr_dispScaled (ok : o.kind = .lbrack) (tk : t.kind = .ident) (tv : t.value = b) (qk : q.kind = .plus)
    (zk : z.kind = .number) (dispIs : Text.int self.chars 0 z.value.toList = .ok disp) (pk : p.kind = .plus)
    (xk : x.kind = .ident) (reg : isRegName x.value = true) (stk : star.kind = .star) (yk : y.kind = .number)
    (scaleIs : Text.int self.chars 0 y.value.toList = .ok scale) (known : Scale scale) (ck : c.kind = .rbrack) :
    memAddr self (o :: t :: q :: z :: p :: x :: star :: y :: c :: more) =
      .ok (⟨baseExpr b, .number disp, some (.reg x.value), scale⟩, more) := by
  refine memAddr_of [q, z, p, x, star, y] ok tk tv ck (by simp [qk]) fun n enough => ?_
  obtain ⟨n, rfl⟩ := Nat.exists_eq_add_of_lt enough
  have length : [q, z, p, x, star, y].length + n + 1 = ((n + 4 + 1) + 1) + 1 := by simp; omega
  have product := operand_mul (leaf_reg xk reg) (leaf_number yk scaleIs) stk (closes ck) more
  rw [length, show [q, z, p, x, star, y] ++ c :: more = q :: z :: p :: x :: star :: y :: c :: more from rfl,
    memParts_number qk zk dispIs, Int.zero_add,
    memParts_operand pk (by simp [xk]) product (memPart_scaled known _), memParts_stop (by simp [ck])]

/-- The reading of every documented form. -/
theorem memAddr_run (form : AddressForm) {i s d : String} {toks : List Tok} (spelled : Spelled toks (form.words b i s d))
    (reg : isRegName i = true) (scaleIs : Text.int self.chars 0 s.toList = .ok scale) (known : Scale scale)
    (dispIs : Text.int self.chars 0 d.toList = .ok disp) (more : List Tok) :
    memAddr self (toks ++ more) = .ok (form.read b i scale disp, more) := by
  cases form with
  | base =>
    obtain ⟨o, _, rfl, ok, -, spelled⟩ := spelled.cons
    obtain ⟨t, _, rfl, tk, tv, spelled⟩ := spelled.cons
    obtain ⟨c, _, rfl, ck, -, spelled⟩ := spelled.cons
    obtain rfl := spelled.nil
    exact memAddr_base ok tk tv ck
  | disp =>
    obtain ⟨o, _, rfl, ok, -, spelled⟩ := spelled.cons
    obtain ⟨t, _, rfl, tk, tv, spelled⟩ := spelled.cons
    obtain ⟨p, _, rfl, pk, -, spelled⟩ := spelled.cons
    obtain ⟨x, _, rfl, xk, xv, spelled⟩ := spelled.cons
    obtain ⟨c, _, rfl, ck, -, spelled⟩ := spelled.cons
    obtain rfl := spelled.nil
    exact memAddr_disp ok tk tv pk xk (xv ▸ dispIs) ck
  | index =>
    obtain ⟨o, _, rfl, ok, -, spelled⟩ := spelled.cons
    obtain ⟨t, _, rfl, tk, tv, spelled⟩ := spelled.cons
    obtain ⟨p, _, rfl, pk, -, spelled⟩ := spelled.cons
    obtain ⟨x, _, rfl, xk, xv, spelled⟩ := spelled.cons
    obtain ⟨c, _, rfl, ck, -, spelled⟩ := spelled.cons
    obtain rfl := spelled.nil
    subst xv
    exact memAddr_index ok tk tv pk xk reg ck
  | scaled =>
    obtain ⟨o, _, rfl, ok, -, spelled⟩ := spelled.cons
    obtain ⟨t, _, rfl, tk, tv, spelled⟩ := spelled.cons
    obtain ⟨p, _, rfl, pk, -, spelled⟩ := spelled.cons
    obtain ⟨x, _, rfl, xk, xv, spelled⟩ := spelled.cons
    obtain ⟨st, _, rfl, stk, -, spelled⟩ := spelled.cons
    obtain ⟨y, _, rfl, yk, yv, spelled⟩ := spelled.cons
    obtain ⟨c, _, rfl, ck, -, spelled⟩ := spelled.cons
    obtain rfl := spelled.nil
    subst xv
    exact memAddr_scaled ok tk tv pk xk reg stk yk (yv ▸ scaleIs) known ck
  | scaledDisp =>
    obtain ⟨o, _, rfl, ok, -, spelled⟩ := spelled.cons
    obtain ⟨t, _, rfl, tk, tv, spelled⟩ := spelled.cons
    obtain ⟨p, _, rfl, pk, -, spelled⟩ := spelled.cons
    obtain ⟨x, _, rfl, xk, xv, spelled⟩ := spelled.cons
    obtain ⟨st, _, rfl, stk, -, spelled⟩ := spelled.cons
    obtain ⟨y, _, rfl, yk, yv, spelled⟩ := spelled.cons
    obtain ⟨q, _, rfl, qk, -, spelled⟩ := spelled.cons
    obtain ⟨z, _, rfl, zk, zv, spelled⟩ := spelled.cons
    obtain ⟨c, _, rfl, ck, -, spelled⟩ := spelled.cons
    obtain rfl := spelled.nil
    subst xv
    exact memAddr_scaledDisp ok tk tv pk xk reg stk yk (yv ▸ scaleIs) qk zk (zv ▸ dispIs) ck
  | dispScaled =>
    obtain ⟨o, _, rfl, ok, -, spelled⟩ := spelled.cons
    obtain ⟨t, _, rfl, tk, tv, spelled⟩ := spelled.cons
    obtain ⟨q, _, rfl, qk, -, spelled⟩ := spelled.cons
    obtain ⟨z, _, rfl, zk, zv, spelled⟩ := spelled.cons
    obtain ⟨p, _, rfl, pk, -, spelled⟩ := spelled.cons
    obtain ⟨x, _, rfl, xk, xv, spelled⟩ := spelled.cons
    obtain ⟨st, _, rfl, stk, -, spelled⟩ := spelled.cons
    obtain ⟨y, _, rfl, yk, yv, spelled⟩ := spelled.cons
    obtain ⟨c, _, rfl, ck, -, spelled⟩ := spelled.cons
    obtain rfl := spelled.nil
    subst xv
    exact memAddr_dispScaled ok tk tv qk zk (zv ▸ dispIs) pk xk reg stk yk (yv ▸ scaleIs) known ck

/-- Where the rule for operands reads the base, the displacement belongs to it. -/
theorem baseOffset_run {b i s d : String} {disp : Int} {toks : List Tok}
    (spelled : Spelled toks (AddressForm.disp.words b i s d)) (dispIs : Text.int self.chars 0 d.toList = .ok disp)
    (more : List Tok) : baseOffset self (toks ++ more) = .ok ((.binExpr .add (baseExpr b) (.number disp), 0), more) := by
  obtain ⟨o, _, rfl, ok, -, spelled⟩ := spelled.cons
  obtain ⟨t, _, rfl, tk, tv, spelled⟩ := spelled.cons
  obtain ⟨p, _, rfl, pk, -, spelled⟩ := spelled.cons
  obtain ⟨x, _, rfl, xk, xv, spelled⟩ := spelled.cons
  obtain ⟨c, _, rfl, ck, -, spelled⟩ := spelled.cons
  obtain rfl := spelled.nil
  subst xv
  have base (n : Nat) : exprMul (primaryIn (n + 1)) self (t :: p :: x :: c :: more) = .ok (baseExpr b, p :: x :: c :: more) :=
    exprMul_leaf (leaf_base tk tv) (by simp [pk]) (by simp [pk])
  have whole := operand_add base pk (leaf_number xk dispIs) (closes ck)
  rw [baseOffset]
  simp only [List.cons_append, List.nil_append]
  rw [bind_run (expect_cons ok (by decide)), bind_run whole, bind_run (accept_other (by simp [ck])), if_neg (by decide),
    bind_run (pure_run _ _ _), bind_run (expect_cons ck (by decide))]
  rfl

end Aclm.Parse
