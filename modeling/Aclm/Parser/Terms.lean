import Aclm.Parser.Grammar

/-! The terms behind the base of `cpu:lea`, as they are written and as the parser gathers them. -/

set_option autoImplicit false

namespace Aclm.Parse

open X64 (Reg)

/-! ### The registers of an expression -/

/-- Whatever is read as a register has the name of one. -/
def RegsNamed : Expr → Prop
  | .reg name => isRegName name = true
  | .binExpr _ left right => RegsNamed left ∧ RegsNamed right
  | _ => True

theorem Derives.regsNamed {self : Parser} {rule : Rule} {toks : List Tok} {e : Expr} (derives : Derives self rule toks e) :
    RegsNamed e := by
  induction derives with
  | number | string | ident | field => trivial
  | reg _ named => exact named
  | enclosed _ _ _ ih | product _ ih | sum _ ih => exact ih
  | mul _ _ _ first second | add _ _ _ first second => exact ⟨first, second⟩

theorem primary_regsNamed {self : Parser} {toks rest : List Tok} {e : Expr} (ran : primary self toks = .ok (e, rest)) :
    RegsNamed e := by
  obtain ⟨front, -, derives⟩ := primary_derives ran
  exact derives.regsNamed

/-! ### Terms -/

/-- A term behind the base: an integer, or a register with the scale that is written at it. -/
inductive Term where
  | number (n : Int)
  | register (r : Reg) (scale : Option Int)
  deriving DecidableEq, Repr

/-- The terms that stand in front of some tokens. What is between parentheses is read by the rule for
operands. -/
inductive TermsWritten (self : Parser) : List Term → List Tok → List Tok → Prop
  | done {toks : List Tok} (stop : accept .plus self toks = .ok (false, toks)) : TermsWritten self [] toks toks
  | number {plus t : Tok} {toks rest : List Tok} {n : Int} {terms : List Term} (isPlus : plus.kind = .plus)
    (kind : t.kind = .number) (is : Text.int self.chars 0 t.value.toList = .ok n) (more : TermsWritten self terms toks rest) :
    TermsWritten self (.number n :: terms) (plus :: t :: toks) rest
  | bare {plus : Tok} {toks mid rest : List Tok} {name : String} {r : Reg} {terms : List Term} (isPlus : plus.kind = .plus)
    (reads : primary self toks = .ok (.reg name, mid)) (named : resolve name = .ok r)
    (noStar : accept .star self mid = .ok (false, mid)) (more : TermsWritten self terms mid rest) :
    TermsWritten self (.register r none :: terms) (plus :: toks) rest
  | scaled {plus star t : Tok} {toks mid rest : List Tok} {name : String} {r : Reg} {s : Int} {terms : List Term}
    (isPlus : plus.kind = .plus) (reads : primary self toks = .ok (.reg name, star :: t :: mid))
    (named : resolve name = .ok r) (isStar : star.kind = .star) (kind : t.kind = .number)
    (is : Text.int self.chars 0 t.value.toList = .ok s) (more : TermsWritten self terms mid rest) :
    TermsWritten self (.register r (some s) :: terms) (plus :: toks) rest
  | grouped {plus : Tok} {toks mid rest : List Tok} {name : String} {r : Reg} {s : Int} {terms : List Term}
    (isPlus : plus.kind = .plus) (reads : primary self toks = .ok (.binExpr .mul (.reg name) (.number s), mid))
    (named : resolve name = .ok r) (more : TermsWritten self terms mid rest) :
    TermsWritten self (.register r (some s) :: terms) (plus :: toks) rest

namespace Term

/-- The sum of the integers. -/
def offset : List Term → Int
  | [] => 0
  | number n :: terms => n + offset terms
  | register .. :: terms => offset terms

/-- The register of the last term that has one, if any. -/
def lastRegister : Option Reg → List Term → Option Reg
  | r, [] => r
  | r, number _ :: terms => lastRegister r terms
  | _, register r _ :: terms => lastRegister (some r) terms

/-- The last scale that is written, if any. -/
def lastScale : Int → List Term → Int
  | s, [] => s
  | s, number _ :: terms => lastScale s terms
  | s, register _ scale :: terms => lastScale (scale.getD s) terms

end Term

/-! ### What the parser gathers -/

section Gathering

variable {self : Parser} {toks mid rest : List Tok}

/-- The register that an index names, if there is one. -/
inductive Names : Option Expr → Option Reg → Prop
  | none : Names none none
  | reg {name : String} {r : Reg} (named : resolve name = .ok r) : Names (some (.reg name)) (some r)

/-- Only the last register and the last scale are kept of the terms, and the integers add up. -/
structure Gathered (terms : List Term) (prior : Option Reg) (scale offset : Int) (out : Option Expr × Int × Int) : Prop where
  index : Names out.1 (Term.lastRegister prior terms)
  scale : out.2.1 = Term.lastScale scale terms
  offset : out.2.2 = offset + Term.offset terms
  scaled : ∀ r s, .register r (some s) ∈ terms → Scale s

theorem Gathered.number {terms : List Term} {prior : Option Reg} {scale offset n : Int} {out : Option Expr × Int × Int}
    (gathered : Gathered terms prior scale (offset + n) out) : Gathered (.number n :: terms) prior scale offset out where
  index := gathered.index
  scale := gathered.scale
  offset := gathered.offset.trans (Int.add_assoc ..)
  scaled := fun r s member => gathered.scaled r s (by simpa using member)

theorem Gathered.register {terms : List Term} {prior : Option Reg} {scale offset : Int} {out : Option Expr × Int × Int}
    {r : Reg} {s : Option Int} (known : ∀ v, s = some v → Scale v)
    (gathered : Gathered terms (some r) (s.getD scale) offset out) : Gathered (.register r s :: terms) prior scale offset out where
  index := gathered.index
  scale := gathered.scale
  offset := gathered.offset
  scaled := by
    intro r' v member
    rcases List.mem_cons.mp member with same | later
    · cases same
      exact known v rfl
    · exact gathered.scaled r' v later

theorem checkScale_ok {msg : String} {s s' : Int} (ran : checkScale msg s self toks = .ok (s', mid)) :
    Scale s ∧ s' = s ∧ mid = toks := by
  unfold checkScale at ran
  split at ran
  · next scale =>
    cases ran
    exact ⟨scale, rfl, rfl⟩
  · cases ran

theorem leaParts_gathers (n : Nat) {index : Option Expr} {prior : Option Reg} {scale offset : Int}
    {out : Option Expr × Int × Int} (named : Names index prior)
    (ran : leaParts n index scale offset self toks = .ok (out, rest)) :
    ∃ terms, TermsWritten self terms toks rest ∧ Gathered terms prior scale offset out := by
  -- On the fuel: each round reads a plus sign and a term, and leaves the rest to the next one.
  induction n generalizing toks index prior scale offset with
  | zero => cases ran
  | succ n ih =>
    rw [leaParts, bind_ok] at ran
    obtain ⟨more, left, accepted, ran⟩ := ran
    cases more with
    | false =>
      obtain rfl := accept_false accepted
      cases ran
      exact ⟨[], .done accepted, named, rfl, (Int.add_zero _).symm, by simp⟩
    | true =>
      obtain ⟨plus, isPlus, rfl⟩ := accept_true (by decide) accepted
      rw [if_pos rfl, bind_ok] at ran
      obtain ⟨k, left', isKind, ran⟩ := ran
      obtain ⟨rfl, rfl⟩ : (left.headD ⟨.eof, "", 0, 0⟩).kind = k ∧ left = left' := by
        cases isKind
        exact ⟨rfl, rfl⟩
      split at ran
      · next numeral =>
        obtain ⟨t, toks, rfl⟩ : ∃ t toks, left = t :: toks := by
          cases left with
          | nil => cases numeral
          | cons t toks => exact ⟨t, toks, rfl⟩
        rw [List.headD_cons] at numeral
        rw [bind_run (adv_cons (by simp [numeral])), bind_ok] at ran
        obtain ⟨v, mid, read, ran⟩ := ran
        obtain ⟨is, rfl⟩ := int_ok read
        obtain ⟨terms, written, gathered⟩ := ih named ran
        exact ⟨_, .number isPlus numeral is written, gathered.number⟩
      · rw [bind_ok] at ran
        obtain ⟨e, behind, reads, ran⟩ := ran
        have regs := primary_regsNamed reads
        split at ran
        · next name s =>
          -- A product in parentheses is a register and its scale.
          obtain ⟨r, resolved⟩ := resolve_of_isRegName regs.1
          rw [bind_ok] at ran
          obtain ⟨v, mid, checked, ran⟩ := ran
          obtain ⟨known, rfl, rfl⟩ := checkScale_ok checked
          obtain ⟨terms, written, gathered⟩ := ih (.reg resolved) ran
          exact ⟨_, .grouped isPlus reads resolved written, gathered.register (by rintro _ ⟨⟩; exact known)⟩
        · next name =>
          obtain ⟨r, resolved⟩ := resolve_of_isRegName regs
          rw [bind_ok] at ran
          obtain ⟨starred, mid, accepted, ran⟩ := ran
          cases starred with
          | true =>
            obtain ⟨star, isStar, rfl⟩ := accept_true (by decide) accepted
            simp only [if_pos, bind_ok] at ran
            obtain ⟨v, mid', read, v', mid'', checked, ran⟩ := ran
            obtain ⟨t, kind, is, rfl⟩ := number_ok read
            obtain ⟨known, rfl, rfl⟩ := checkScale_ok checked
            obtain ⟨terms, written, gathered⟩ := ih (.reg resolved) ran
            exact ⟨_, .scaled isPlus reads resolved isStar kind is written, gathered.register (by rintro _ ⟨⟩; exact known)⟩
          | false =>
            obtain rfl := accept_false accepted
            rw [if_neg (by decide)] at ran
            obtain ⟨terms, written, gathered⟩ := ih (.reg resolved) ran
            exact ⟨_, .bare isPlus reads resolved accepted written, gathered.register (by rintro _ ⟨⟩)⟩
        · cases ran

/-- A numeral by itself is no register and no product. -/
theorem primary_number {t : Tok} (kind : t.kind = .number) {e : Expr} (read : primary self (t :: toks) = .ok (e, rest)) :
    ∃ v, e = .number v := by
  rw [primary, bind_run (rfl : remaining self (t :: toks) = _), primaryIn, bind_run peek_cons, kind] at read
  simp only [bind_ok] at read
  obtain ⟨_, _, -, v, _, -, done⟩ := read
  cases done
  exact ⟨v, rfl⟩

/-- The terms of some tokens are determined by these. -/
theorem TermsWritten.unique {terms terms' : List Term} {rest' : List Tok} (first : TermsWritten self terms toks rest)
    (second : TermsWritten self terms' toks rest') : terms = terms' := by
  have noPlus {t : Tok} {toks : List Tok} (isPlus : t.kind = .plus)
      (stop : accept .plus self (t :: toks) = .ok (false, t :: toks)) : False := by
    rw [accept_cons isPlus (by decide)] at stop
    cases stop
  -- Two readings begin with the same token, and what it is decides the form of the term.
  induction first generalizing terms' with
  | done stop =>
    cases second with
    | done => rfl
    | number isPlus | bare isPlus | scaled isPlus | grouped isPlus => exact (noPlus isPlus stop).elim
  | number isPlus kind is more ih =>
    cases second with
    | done stop => exact (noPlus isPlus stop).elim
    | number _ _ is' more' =>
      cases is.symm.trans is'
      rw [ih more']
    | bare _ reads | scaled _ reads | grouped _ reads =>
      all_goals
        obtain ⟨v, same⟩ := primary_number kind reads
        cases same
  | bare isPlus reads named noStar more ih =>
    cases second with
    | done stop => exact (noPlus isPlus stop).elim
    | number _ kind =>
      obtain ⟨v, same⟩ := primary_number kind reads
      cases same
    | bare _ reads' named' _ more' =>
      cases reads.symm.trans reads'
      cases named.symm.trans named'
      rw [ih more']
    | scaled _ reads' _ isStar =>
      cases reads.symm.trans reads'
      rw [accept_cons isStar (by decide)] at noStar
      cases noStar
    | grouped _ reads' => cases reads.symm.trans reads'
  | scaled isPlus reads named isStar kind is more ih =>
    cases second with
    | done stop => exact (noPlus isPlus stop).elim
    | number _ kind =>
      obtain ⟨v, same⟩ := primary_number kind reads
      cases same
    | bare _ reads' _ noStar =>
      cases reads.symm.trans reads'
      rw [accept_cons isStar (by decide)] at noStar
      cases noStar
    | scaled _ reads' named' _ _ is' more' =>
      cases reads.symm.trans reads'
      cases named.symm.trans named'
      cases is.symm.trans is'
      rw [ih more']
    | grouped _ reads' => cases reads.symm.trans reads'
  | grouped isPlus reads named more ih =>
    cases second with
    | done stop => exact (noPlus isPlus stop).elim
    | number _ kind =>
      obtain ⟨v, same⟩ := primary_number kind reads
      cases same
    | bare _ reads' => cases reads.symm.trans reads'
    | scaled _ reads' => cases reads.symm.trans reads'
    | grouped _ reads' named' more' =>
      cases reads.symm.trans reads'
      cases named.symm.trans named'
      rw [ih more']

/-- `x = [b + …]`, with these terms behind the base. -/
inductive LeaWritten (self : Parser) (x b : String) (terms : List Term) : List Tok → List Tok → Prop
  | mk {u e open' close : Tok} {toks parts more : List Tok} (uk : u.kind = .ident) (uv : u.value = x) (ek : e.kind = .eq)
    (ok : open'.kind = .lbrack) (base : primary self toks = .ok (baseExpr b, parts))
    (written : TermsWritten self terms parts (close :: more)) (ck : close.kind = .rbrack) :
    LeaWritten self x b terms (u :: e :: open' :: toks) more

theorem LeaWritten.unique {x b : String} {terms terms' : List Term} (first : LeaWritten self x b terms toks rest)
    (second : LeaWritten self x b terms' toks rest) : terms = terms' := by
  cases first with
  | mk _ _ _ _ base written =>
    cases second with
    | mk _ _ _ _ base' written' =>
      cases base.symm.trans base'
      exact written.unique written'

/-- What is read is gathered from the terms as they are written. -/
theorem cpuLea_written {x b : String} {index : Option Expr} {scale off : Int}
    (ran : cpuLea self toks = .ok (.cpuLea x (baseExpr b) index scale off, rest)) :
    ∃ terms, LeaWritten self x b terms toks rest ∧ Gathered terms none 1 0 (index, scale, off) := by
  rw [cpuLea, bind_ok] at ran
  obtain ⟨word, _, named, ran⟩ := ran
  obtain ⟨u, uk, uv, rfl⟩ := name_ok named
  rw [bind_ok] at ran
  obtain ⟨_, _, equals, ran⟩ := ran
  obtain ⟨e, ek, rfl⟩ := eq_ok equals
  rw [bind_ok] at ran
  obtain ⟨o, toks, opened, ran⟩ := ran
  obtain ⟨ok, rfl⟩ := expect_ok (by decide) opened
  rw [bind_run (rfl : atWord "rip" self toks = _)] at ran
  split at ran
  · simp only [bind_ok] at ran
    obtain ⟨_, _, -, _, _, -, _, _, -, _, _, -, ran⟩ := ran
    cases ran
  rw [bind_run (rfl : atWord "abs" self toks = _)] at ran
  split at ran
  · simp only [bind_ok] at ran
    obtain ⟨_, _, -, _, _, -, _, _, -, ran⟩ := ran
    cases ran
  rw [bind_ok] at ran
  obtain ⟨base, parts, read, ran⟩ := ran
  rw [bind_run (rfl : remaining self parts = _), bind_ok] at ran
  obtain ⟨out, behind, gathered, ran⟩ := ran
  rw [bind_ok] at ran
  obtain ⟨c, _, closed, ran⟩ := ran
  obtain ⟨ck, rfl⟩ := expect_ok (by decide) closed
  cases ran
  obtain ⟨terms, written, gathers⟩ := leaParts_gathers _ .none gathered
  exact ⟨terms, .mk uk uv ek ok read written ck, gathers⟩

end Gathering

end Aclm.Parse
