import Aclm.Parser.Brackets

/-! The statements with an address between brackets, and what their methods read. -/

set_option autoImplicit false

namespace Aclm.Parse

open Encoder (Size)

/-- The statements with an address between brackets; a size that is not written is 64 bits. -/
inductive Use where
  | read (size : Option Size) | write (size : Option Size) | lea | cmovmem | cmpxchg16b | load | store | vload | vstore
  deriving DecidableEq, Repr

/-- The size at the end of `ram:read` and `ram:write`. -/
def sizeSuffix : Option Size → String
  | none => ""
  | some .b8 => "8"
  | some .b16 => "16"
  | some .b32 => "32"
  | some .b64 => "64"

namespace Use

def family : Use → String
  | read _ | write _ => "ram"
  | lea | cmovmem | cmpxchg16b => "cpu"
  | _ => "vec"

def word : Use → String
  | read size => "read" ++ sizeSuffix size
  | write size => "write" ++ sizeSuffix size
  | lea => "lea"
  | cmovmem => "cmovmem"
  | cmpxchg16b => "cmpxchg16b"
  | load => "load"
  | store => "store"
  | vload => "vload"
  | vstore => "vstore"

/-- What stands behind the two words, with the name of the other operand and a condition. -/
def behind (x k : String) (address : List (T × String)) : Use → List (T × String)
  | read _ | lea | load | vload => (.ident, x) :: (.eq, "=") :: address
  | write _ | store | vstore => address ++ [(.eq, "="), (.ident, x)]
  | cmovmem => (.ident, x) :: (.eq, "=") :: address ++ [(.comma, ","), (.ident, k)]
  | cmpxchg16b => address

def words (x k : String) (address : List (T × String)) (use : Use) : List (T × String) :=
  (.ident, use.family) :: (.colon, ":") :: (.ident, use.word) :: use.behind x k address

/-- The forms that a statement documents. -/
def Documents : Use → AddressForm → Prop
  | read _, _ | write _, _ => True
  | _, form => form = .disp

/-- The method of the parser. -/
def form : Use → Parse Op
  | read size => ramRead (size.getD .b64)
  | write size => ramWrite (size.getD .b64)
  | lea => cpuLea
  | cmovmem => cpuCmovMem
  | cmpxchg16b => cpuCmpxchg16b
  | load => vecFrom .vecLoad
  | store => vecTo .vecStore
  | vload => vecFrom .vecVLoad
  | vstore => vecTo .vecVStore

end Use

theorem ram_found : forms.get? (lower "ram") = some (ofColon (Parse.family "ram" ramForms)) := rfl

theorem Use.found (use : Use) : ∃ ops, forms.get? (lower use.family) = some (ofColon (Parse.family use.family ops)) ∧
    ops.get? (lower use.word) = some use.form := by
  cases use with
  | read size => exact ⟨ramForms, ram_found, by rcases size with _ | _ | _ | _ | _ <;> rfl⟩
  | write size => exact ⟨ramForms, ram_found, by rcases size with _ | _ | _ | _ | _ <;> rfl⟩
  | lea => exact ⟨cpuForms, rfl, rfl⟩
  | cmovmem => exact ⟨cpuForms, rfl, rfl⟩
  | cmpxchg16b => exact ⟨cpuForms, rfl, rfl⟩
  | load => exact ⟨vecForms, rfl, rfl⟩
  | store => exact ⟨vecForms, rfl, rfl⟩
  | vload => exact ⟨vecForms, rfl, rfl⟩
  | vstore => exact ⟨vecForms, rfl, rfl⟩

theorem Use.notFn (use : Use) : lower use.family ≠ "fn" := by
  cases use with
  | read _ | write _ => exact show lower "ram" ≠ "fn" by decide
  | lea | cmovmem | cmpxchg16b => exact show lower "cpu" ≠ "fn" by decide
  | load | store | vload | vstore => exact show lower "vec" ≠ "fn" by decide

/-- The two words lead to the method, which reads the rest. -/
theorem Use.statement_iff {self : Parser} (use : Use) {t c w : Tok} {rest more : List Tok} {line : Nat} {op : Op}
    (tk : t.kind = .ident) (tv : t.value = use.family) (ck : c.kind = .colon) (wk : w.kind = .ident)
    (wv : w.value = use.word) :
    statement self (t :: c :: w :: rest) = .ok (.op line op, more) ↔ line = t.line ∧ use.form self rest = .ok (op, more) := by
  obtain ⟨ops, first, second⟩ := use.found
  have runs : statement self (t :: c :: w :: rest) =
      (ofColon (Parse.family use.family ops) >>= fun op => pure (Stmt.op t.line op)) self (c :: w :: rest) := by
    rw [statement, bind_run (rfl : remaining self _ = _), statementIn, bind_run peek_cons, tk]
    simp only [tv, if_neg use.notFn, first]
    rw [bind_run (adv_cons (by simp [tk]))]
  have inner : ofColon (Parse.family use.family ops) self (c :: w :: rest) = use.form self rest := by
    rw [ofColon, bind_run (colon_cons ck), Parse.family, bind_run (keyword_cons wk), wv, second]
  rw [runs, bind_ok, inner]
  constructor
  · rintro ⟨op', mid, ran, done⟩
    cases done
    exact ⟨rfl, ran⟩
  · rintro ⟨rfl, ran⟩
    exact ⟨op, more, ran, rfl⟩

/-- What the methods that read the base with the rule for operands make of `[b+d]`. -/
def swallowed (b : String) (d : Int) : Expr := .binExpr .add (baseExpr b) (.number d)

def Use.op (x k b i : String) (s d : Int) (form : AddressForm) : Use → Op
  | read size =>
    let a := form.read b i s d
    .memLoad x a.base a.offset (size.getD .b64) a.index a.scale
  | write size =>
    let a := form.read b i s d
    .memStore a.base a.offset (.reg x) (size.getD .b64) a.index a.scale
  | lea => .cpuLea x (baseExpr b) none 1 d
  | cmovmem => .cpuCmovMem x (swallowed b d) 0 (lower k)
  | cmpxchg16b => .cpuCmpxchg16b (swallowed b d) 0
  | load => .vecLoad x (swallowed b d) 0
  | store => .vecStore (swallowed b d) 0 x
  | vload => .vecVLoad x (swallowed b d) 0
  | vstore => .vecVStore (swallowed b d) 0 x

section Reading

variable {self : Parser} {b i s d x k : String} {scale disp : Int} {toks more : List Tok}

theorem lea_run (spelled : Spelled toks (Use.lea.behind x k (AddressForm.disp.words b i s d)))
    (dispIs : Text.int self.chars 0 d.toList = .ok disp) (named : lower b ∉ ["rip", "abs"]) :
    cpuLea self (toks ++ more) = .ok (.cpuLea x (baseExpr b) none 1 disp, more) := by
  obtain ⟨u, _, rfl, uk, uv, spelled⟩ := spelled.cons
  obtain ⟨e, _, rfl, ek, -, spelled⟩ := spelled.cons
  obtain ⟨o, _, rfl, ok, -, spelled⟩ := spelled.cons
  obtain ⟨t, _, rfl, tk, tv, spelled⟩ := spelled.cons
  obtain ⟨p, _, rfl, pk, -, spelled⟩ := spelled.cons
  obtain ⟨y, _, rfl, yk, yv, spelled⟩ := spelled.cons
  obtain ⟨c, _, rfl, ck, -, spelled⟩ := spelled.cons
  obtain rfl := spelled.nil
  subst tv yv uv
  simp only [List.mem_cons, List.not_mem_nil, or_false, not_or] at named
  have parts (n : Nat) : leaParts (n + 2) none 1 0 self (p :: y :: c :: more) =
      .ok ((none, 1, disp), c :: more) := by
    rw [leaParts, bind_run (accept_cons pk (by decide)), if_pos rfl, bind_run kind_cons,
      if_pos yk, bind_run (adv_cons (by simp [yk])), bind_run (int_run dispIs), leaParts,
      bind_run (accept_other (by simp [ck])), if_neg (by decide), Int.zero_add]
    rfl
  simp only [List.cons_append, List.nil_append]
  rw [cpuLea, bind_run (name_cons uk), bind_run (eq_cons ek),
    bind_run (expect_cons ok (by decide)), bind_run (atWord_cons _), if_neg (by simp [named.1]),
    bind_run (atWord_cons _), if_neg (by simp [named.2]),
    bind_run ((leaf_base tk rfl).primary (by simp [pk]) _), bind_run (rfl : remaining self _ = _),
    bind_run (show leaParts ((p :: y :: c :: more).length + 1) none 1 0 self _ = _ from parts (more.length + 2))]
  simp only
  rw [bind_run (expect_cons ck (by decide))]
  rfl

/-- Behind `rip` a label is expected, behind `abs` a number, and not a plus sign and a displacement. -/
theorem lea_reserved (spelled : Spelled toks (Use.lea.behind x k (AddressForm.disp.words b i s d)))
    (named : lower b ∈ ["rip", "abs"]) (op : Op) : cpuLea self (toks ++ more) ≠ .ok (op, more) := by
  obtain ⟨u, _, rfl, uk, uv, spelled⟩ := spelled.cons
  obtain ⟨e, _, rfl, ek, -, spelled⟩ := spelled.cons
  obtain ⟨o, _, rfl, ok, -, spelled⟩ := spelled.cons
  obtain ⟨t, _, rfl, tk, tv, spelled⟩ := spelled.cons
  obtain ⟨p, _, rfl, pk, -, spelled⟩ := spelled.cons
  obtain ⟨y, _, rfl, yk, yv, spelled⟩ := spelled.cons
  obtain ⟨c, _, rfl, ck, -, spelled⟩ := spelled.cons
  obtain rfl := spelled.nil
  subst tv
  simp only [List.cons_append, List.nil_append]
  rw [cpuLea, bind_run (name_cons uk), bind_run (eq_cons ek),
    bind_run (expect_cons ok (by decide)), bind_run (atWord_cons _)]
  simp only [List.mem_cons, List.not_mem_nil, or_false] at named
  intro read
  rcases named with isRip | isAbs
  · rw [if_pos (by simp [tk, isRip]), bind_run (adv_cons (by simp [tk])),
      bind_run (expect_cons pk (by decide)), bind_ok] at read
    obtain ⟨label, mid, wrong, -⟩ := read
    simp [name, expect, expectFor, Functor.map, bind_run peek_cons, yk, failAt] at wrong
  · rw [if_neg (by simp [isAbs]), bind_run (atWord_cons _), if_pos (by simp [tk, isAbs]),
      bind_run (adv_cons (by simp [tk])), bind_ok] at read
    obtain ⟨value, mid, wrong, -⟩ := read
    rw [number, bind_ok] at wrong
    obtain ⟨n, mid', wrong, -⟩ := wrong
    simp [expect, expectFor, bind_run peek_cons, pk, failAt] at wrong

theorem from_run {op : String → Expr → Int → Op}
    (spelled : Spelled toks ((.ident, x) :: (.eq, "=") :: AddressForm.disp.words b i s d))
    (dispIs : Text.int self.chars 0 d.toList = .ok disp) :
    vecFrom op self (toks ++ more) = .ok (op x (swallowed b disp) 0, more) := by
  obtain ⟨u, _, rfl, uk, uv, spelled⟩ := spelled.cons
  obtain ⟨e, _, rfl, ek, -, spelled⟩ := spelled.cons
  rw [vecFrom]
  simp only [List.cons_append]
  rw [bind_run (name_cons uk), bind_run (eq_cons ek),
    bind_run (baseOffset_run spelled dispIs more)]
  subst uv
  rfl

theorem to_run {op : Expr → Int → String → Op}
    (spelled : Spelled toks (AddressForm.disp.words b i s d ++ [(.eq, "="), (.ident, x)]))
    (dispIs : Text.int self.chars 0 d.toList = .ok disp) :
    vecTo op self (toks ++ more) = .ok (op (swallowed b disp) 0 x, more) := by
  obtain ⟨address, _, rfl, inner, value⟩ := Spelled.append spelled
  obtain ⟨e, _, rfl, ek, -, value⟩ := value.cons
  obtain ⟨u, _, rfl, uk, uv, value⟩ := value.cons
  obtain rfl := value.nil
  rw [vecTo, List.append_assoc, bind_run (baseOffset_run inner dispIs _)]
  simp only [List.cons_append, List.nil_append]
  rw [bind_run (eq_cons ek), bind_run (name_cons uk)]
  subst uv
  rfl

/-- What the methods read. -/
theorem Use.form_run (use : Use) {form : AddressForm} (documented : use.Documents form)
    (spelled : Spelled toks (use.behind x k (form.words b i s d))) (reg : isRegName i = true)
    (scaleIs : Text.int self.chars 0 s.toList = .ok scale) (known : Scale scale)
    (dispIs : Text.int self.chars 0 d.toList = .ok disp) (operand : ∀ size, use = .write size → isRegName x = true)
    (named : use = .lea → lower b ∉ ["rip", "abs"]) (ends : EndsStatement more) :
    use.form self (toks ++ more) = .ok (use.op x k b i scale disp form, more) := by
  cases use with
  | read size =>
    obtain ⟨u, _, rfl, uk, uv, spelled⟩ := spelled.cons
    obtain ⟨e, toks, rfl, ek, -, spelled⟩ := spelled.cons
    rw [Use.form, ramRead]
    simp only [List.cons_append]
    rw [bind_run (name_cons uk), bind_run (eq_cons ek),
      bind_run (memAddr_run form spelled reg scaleIs known dispIs more)]
    subst uv
    rfl
  | write size =>
    obtain ⟨address, _, rfl, inner, value⟩ := Spelled.append spelled
    obtain ⟨e, _, rfl, ek, -, value⟩ := value.cons
    obtain ⟨u, _, rfl, uk, uv, value⟩ := value.cons
    obtain rfl := value.nil
    obtain ⟨t, rest, rfl, last⟩ := ends
    have follows : Parse.Follows t := by rcases last with kind | kind <;> refine ⟨?_, ?_, ?_, ?_⟩ <;> simp [kind]
    rw [Use.form, ramWrite, List.append_assoc, bind_run (memAddr_run form inner reg scaleIs known dispIs _)]
    simp only [List.cons_append, List.nil_append]
    have named : isRegName u.value = true := uv ▸ operand size rfl
    rw [bind_run (eq_cons ek), bind_run (operand_leaf (leaf_reg uk named) follows)]
    subst uv
    rfl
  | lea =>
    obtain rfl : form = .disp := documented
    exact lea_run spelled dispIs (named rfl)
  | cmovmem =>
    obtain rfl : form = .disp := documented
    obtain ⟨u, _, rfl, uk, uv, spelled⟩ := spelled.cons
    obtain ⟨e, _, rfl, ek, -, spelled⟩ := spelled.cons
    obtain ⟨address, _, rfl, inner, last⟩ := Spelled.append spelled
    obtain ⟨m, _, rfl, mk, -, last⟩ := last.cons
    obtain ⟨w, _, rfl, wk, wv, last⟩ := last.cons
    obtain rfl := last.nil
    rw [Use.form, cpuCmovMem]
    simp only [List.cons_append, List.append_assoc]
    rw [bind_run (name_cons uk), bind_run (eq_cons ek),
      bind_run (baseOffset_run inner dispIs _)]
    simp only [List.nil_append]
    rw [bind_run (skip_cons mk (by decide)), bind_run (keyword_cons wk)]
    subst uv wv
    rfl
  | cmpxchg16b =>
    obtain rfl : form = .disp := documented
    rw [Use.form, cpuCmpxchg16b, bind_run (baseOffset_run (i := i) (s := s) spelled dispIs _)]
    rfl
  | load =>
    obtain rfl : form = .disp := documented
    exact from_run spelled dispIs
  | vload =>
    obtain rfl : form = .disp := documented
    exact from_run spelled dispIs
  | store =>
    obtain rfl : form = .disp := documented
    exact to_run spelled dispIs
  | vstore =>
    obtain rfl : form = .disp := documented
    exact to_run spelled dispIs

/-- The statement that is read, except that `cpu:lea` takes no base of the name `rip` or `abs`. -/
theorem Use.statement_run (use : Use) {form : AddressForm} (documented : use.Documents form)
    (spelled : Spelled toks (use.words x k (form.words b i s d))) (reg : isRegName i = true)
    (scaleIs : Text.int self.chars 0 s.toList = .ok scale) (known : Scale scale)
    (dispIs : Text.int self.chars 0 d.toList = .ok disp) (operand : ∀ size, use = .write size → isRegName x = true)
    (ends : EndsStatement more) (op : Op) :
    (∃ line : Nat, statement self (toks ++ more) = .ok (.op line op, more)) ↔
      (use = .lea → lower b ∉ ["rip", "abs"]) ∧ op = use.op x k b i scale disp form := by
  obtain ⟨t, _, rfl, tk, tv, spelled⟩ := spelled.cons
  obtain ⟨c, _, rfl, ck, -, spelled⟩ := spelled.cons
  obtain ⟨w, toks, rfl, wk, wv, spelled⟩ := spelled.cons
  simp only [List.cons_append]
  have leads {line : Nat} : statement self (t :: c :: w :: (toks ++ more)) = .ok (.op line op, more) ↔
      line = t.line ∧ use.form self (toks ++ more) = .ok (op, more) := use.statement_iff tk tv ck wk wv
  constructor
  · rintro ⟨line, ran⟩
    obtain ⟨-, read⟩ := leads.mp ran
    have named : use = .lea → lower b ∉ ["rip", "abs"] := by
      rintro rfl reserved
      obtain rfl : form = .disp := documented
      exact lea_reserved spelled reserved op read
    rw [use.form_run documented spelled reg scaleIs known dispIs operand named ends] at read
    cases read
    exact ⟨named, rfl⟩
  · rintro ⟨named, rfl⟩
    exact ⟨t.line, leads.mpr ⟨rfl, use.form_run documented spelled reg scaleIs known dispIs operand named ends⟩⟩

end Reading

end Aclm.Parse
