import Aclm.Lexer
import Aclm.Macros.Passes

/-! Calls with too few values: what of them `expand_one_pass` finds. -/

set_option autoImplicit false

namespace Aclm.Macros

open Text

/-- The text in front of a comment; a string may have a `#` in it. -/
def uncommentedFrom : Nat → Text → Text
  | _, [] => []
  | k + 1, c :: s => c :: uncommentedFrom k s
  | 0, c :: s =>
    if c = '#' then []
    else match if c = '"' then Lexer.stringBody s else none with
      | some (_, n) => c :: uncommentedFrom n s
      | none => c :: uncommentedFrom 0 s

def uncommented (s : Text) : Text := uncommentedFrom 0 s

variable (U : CharClasses) (filename : String)

/-- The words behind the name of a call, in front of a comment. -/
def given (line : Text) : List Text :=
  match matchCall U line with
  | some (_, text) => values (uncommented text)
  | none => []

variable (macros : Dict Macro)

/-- The second state is one that a pass looks at, when so many passes begin with the first one. -/
inductive Within : Nat → Nat × List Text → Nat × List Text → Prop where
  | here (k : Nat) (s : Nat × List Text) : Within (k + 1) s s
  | next {k n : Nat} {lines : List Text} {s t : Nat × List Text}
      (pass : expandOnePass U filename macros 1 s.1 s.2 = .ok (n, lines, true)) (more : Within k (n, lines) t) :
      Within (k + 1) s t

variable {macros}

/-- A call that the expansion of the text comes to. -/
def Reached (src line : Text) (call : Invocation) : Prop :=
  ∃ macros lines t, parseDefs U filename 1 none [] (splitLines src) = .ok (macros, lines) ∧
    Within U filename macros MAX_PASSES (0, lines) t ∧ line ∈ t.2 ∧ invocation U macros line = some call

/-- Every pass finds a call. -/
def Endless (src : Text) : Prop :=
  ∀ macros lines t, parseDefs U filename 1 none [] (splitLines src) = .ok (macros, lines) →
    Within U filename macros MAX_PASSES (0, lines) t → ∃ line ∈ t.2, (invocation U macros line).isSome = true

/-- The values of the parameters are words in front of the comment, one for each. -/
structure Served (line : Text) (call : Invocation) : Prop where
  enough : call.target.args.length ≤ (given U line).length
  values : call.target.args.zip (call.vals.getD []) = call.target.args.zip (given U line)

def RaisesMissing (src : Text) : Prop :=
  ∃ lineNo call vals, expandMacros U filename src = .error (missingArgs filename lineNo call vals)

/-- A call with fewer words in front of the comment than there are parameters is an error; so in a text that is returned,
every parameter of every call has been given such a word. -/
structure ArityEnforced (src : Text) : Prop where
  raises {line : Text} {call : Invocation} (reached : Reached U filename src line call)
    (few : (given U line).length < call.target.args.length) : RaisesMissing U filename src
  served {out line : Text} {call : Invocation} (returned : expandMacros U filename src = .ok out)
    (reached : Reached U filename src line call) : Served U line call

variable {U filename}

theorem missingArgs_ne (lineNo : Nat) (call : Invocation) (vals : List Text) :
    missingArgs filename lineNo call vals ≠ notTerminated filename := by
  intro same
  have letters := congrArg String.toList (PyErr.systemExit.inj same)
  change (((((((filename ++ ":") ++ Nat.repr lineNo) ++ _) ++ _) ++ _) ++ _ ++ _) ++ _ : String).toList =
    (((filename ++ ": macro expansion did not terminate after ") ++ _) ++ _ ++ _ : String).toList at letters
  obtain ⟨c, digits, shape⟩ := List.exists_cons_of_ne_nil (@Nat.toDigits_ne_nil lineNo 10)
  have digit : c.isDigit = true :=
    Nat.isDigit_of_mem_toDigits (by decide) (by decide) (shape ▸ List.mem_cons_self : c ∈ Nat.toDigits 10 lineNo)
  simp only [String.toList_append, Nat.toList_repr, shape, List.append_assoc, List.append_cancel_left_eq] at letters
  obtain ⟨rfl, -⟩ := List.cons.inj (List.cons.inj letters).2
  cases digit

/-- What the passes come to. -/
theorem expandPasses_cases (k : Nat) (s : Nat × List Text) :
    (∃ t lineNo line call vals, Within U filename macros k s t ∧ line ∈ t.2 ∧ invocation U macros line = some call ∧
        call.Short ∧ expandPasses U filename macros k s.1 s.2 = .error (missingArgs filename lineNo call vals)) ∨
      (∀ t line call, Within U filename macros k s t → line ∈ t.2 → invocation U macros line = some call → ¬ call.Short) ∧
        ((∃ out t, expandPasses U filename macros k s.1 s.2 = .ok out ∧ Within U filename macros k s t ∧
            ∀ line ∈ t.2, invocation U macros line = none) ∨
          expandPasses U filename macros k s.1 s.2 = .error (notTerminated filename) ∧
            ∀ t, Within U filename macros k s t → ∃ line ∈ t.2, (invocation U macros line).isSome = true) := by
  induction k generalizing s with
  | zero =>
    refine .inr ⟨fun t _ _ within => ?_, .inr ⟨rfl, fun t within => ?_⟩⟩
    · cases within
    · cases within
  | succ k ih =>
    by_cases few : ∃ line ∈ s.2, ∃ call, invocation U macros line = some call ∧ call.Short
    · obtain ⟨line, member, call, found, short⟩ := few
      obtain ⟨lineNo, line', call', vals, inside, found', short', raised⟩ :=
        @expandOnePass_short U filename macros s.2 1 s.1 line call member found short
      refine .inl ⟨s, lineNo, line', call', vals, .here k s, inside, found', short', ?_⟩
      rw [expandPasses, raised]
      rfl
    · have enough : ∀ line ∈ s.2, ∀ call, invocation U macros line = some call → ¬ call.Short :=
        fun line member call found short => few ⟨line, member, call, found, short⟩
      have pass := @expandOnePass_eq U filename macros s.2 1 s.1 enough
      by_cases normal : Expansion.Normal (rule U macros) s.2
      · have last : ∀ t, Within U filename macros (k + 1) s t → t = s := by
          intro t within
          cases within with
          | here => rfl
          | next found more =>
            simp [pass, normal] at found
        refine .inr ⟨fun t line call within => ?_, .inl ⟨s.2, s, ?_, .here k s, ?_⟩⟩
        · rw [last t within]
          exact fun member => enough line member call
        · rw [expandPasses, pass, ok_bind]
          simp [normal, Expansion.pass_normal normal]
        · exact fun line member => rule_eq_none.mp (normal line member)
      · -- The pass has replaced something, and the others follow.
        simp only [normal, decide_false, Bool.not_false] at pass
        have called : ∃ line ∈ s.2, (invocation U macros line).isSome = true := by
          by_contra none
          refine normal fun line member => rule_eq_none.mpr ?_
          exact Option.not_isSome_iff_eq_none.mp fun some => none ⟨line, member, some⟩
        have parts {t : Nat × List Text} (within : Within U filename macros (k + 1) s t) :
            t = s ∨ Within U filename macros k (Expansion.pass (rule U macros) s.1 s.2) t := by
          cases within with
          | here => exact .inl rfl
          | next found more =>
            cases pass.symm.trans found
            exact .inr more
        have whole : expandPasses U filename macros (k + 1) s.1 s.2 = expandPasses U filename macros k
            (Expansion.pass (rule U macros) s.1 s.2).1 (Expansion.pass (rule U macros) s.1 s.2).2 := by
          rw [expandPasses, pass]
          rfl
        rw [whole]
        rcases ih (Expansion.pass (rule U macros) s.1 s.2) with
          ⟨t, lineNo, line, call, vals, within, found⟩ | ⟨none, ⟨out, t, ok, within, done⟩ | ⟨raised, always⟩⟩
        · exact .inl ⟨t, lineNo, line, call, vals, .next pass within, found⟩
        · refine .inr ⟨fun t line call within => ?_, .inl ⟨out, t, ok, .next pass within, done⟩⟩
          rcases parts within with rfl | later
          · exact fun member => enough line member call
          · exact none t line call later
        · refine .inr ⟨fun t line call within => ?_, .inr ⟨raised, fun t within => ?_⟩⟩
          · rcases parts within with rfl | later
            · exact fun member => enough line member call
            · exact none t line call later
          · rcases parts within with rfl | later
            · exact called
            · exact always t later

/-- The arity is enforced exactly if some call is found to have too few words behind its name, those of a comment included,
or no call has too few in front of the comment, and these are its values in a text that is returned. -/
theorem arity_enforced_iff (src : Text) :
    ArityEnforced U filename src ↔
      (∃ line call, Reached U filename src line call ∧ call.Short) ∨
        (∀ line call, Reached U filename src line call → call.target.args.length ≤ (given U line).length) ∧
          ((∀ line call, Reached U filename src line call → Served U line call) ∨ Endless U filename src) := by
  cases parsed : parseDefs U filename 1 none [] (splitLines src) with
  | error e =>
    -- Without definitions no line is reached.
    have none : ∀ line call, ¬ Reached U filename src line call := by
      rintro line call ⟨macros, lines, t, closed, -⟩
      cases parsed.symm.trans closed
    refine iff_of_true ⟨?_, ?_⟩ (.inr ⟨?_, .inl ?_⟩)
    · exact fun reached _ => absurd reached (none _ _)
    · exact fun _ reached => absurd reached (none _ _)
    · exact fun line call reached => absurd reached (none line call)
    · exact fun line call reached => absurd reached (none line call)
  | ok definitions =>
    obtain ⟨macros, lines⟩ := definitions
    have whole : expandMacros U filename src = (expandPasses U filename macros MAX_PASSES 0 lines).map List.flatten := by
      rw [expandMacros, parsed, ok_bind]
      dsimp only
      cases expandPasses U filename macros MAX_PASSES 0 lines <;> rfl
    have reached_iff (line : Text) (call : Invocation) : Reached U filename src line call ↔
        ∃ t, Within U filename macros MAX_PASSES (0, lines) t ∧ line ∈ t.2 ∧ invocation U macros line = some call := by
      constructor
      · rintro ⟨macros', lines', t, closed, within, found⟩
        cases parsed.symm.trans closed
        exact ⟨t, within, found⟩
      · rintro ⟨t, within, found⟩
        exact ⟨macros, lines, t, parsed, within, found⟩
    -- The passes stop at a short call, at a text without calls, or at the limit of the passes.
    rcases @expandPasses_cases U filename macros MAX_PASSES (0, lines) with
      ⟨t, lineNo, line, call, vals, within, member, found, short, raised⟩ | ⟨none, ⟨out, t, ok, within, done⟩ | ⟨raised, always⟩⟩
    · rw [raised] at whole
      refine iff_of_true ⟨fun _ _ => ⟨lineNo, call, vals, whole⟩, fun returned => ?_⟩ (.inl ?_)
      · cases whole.symm.trans returned
      · exact ⟨line, call, (reached_iff line call).mpr ⟨t, within, member, found⟩, short⟩
    · rw [ok] at whole
      have quiet : ¬ RaisesMissing U filename src := by
        rintro ⟨lineNo, call, vals, missing⟩
        cases whole.symm.trans missing
      constructor
      · intro enforced
        refine .inr ⟨fun line call reached => ?_, .inl fun line call reached => enforced.served whole reached⟩
        by_contra few
        exact quiet (enforced.raises reached (Nat.not_le.mp few))
      · rintro (⟨line, call, reached, short⟩ | ⟨enough, served | endless⟩)
        · obtain ⟨u, inside, member, found⟩ := (reached_iff line call).mp reached
          exact absurd short (none u line call inside member found)
        · exact ⟨fun reached few => absurd few (Nat.not_lt.mpr (enough _ _ reached)), fun _ reached => served _ _ reached⟩
        · obtain ⟨line, member, some⟩ := endless macros lines t parsed within
          rw [done line member] at some
          cases some
    · rw [raised] at whole
      have quiet : ¬ RaisesMissing U filename src := by
        rintro ⟨lineNo, call, vals, missing⟩
        exact missingArgs_ne lineNo call vals (Except.error.inj (missing.symm.trans whole))
      have endless : Endless U filename src := by
        intro macros' lines' t closed within
        cases parsed.symm.trans closed
        exact always t within
      constructor
      · intro enforced
        refine .inr ⟨fun line call reached => ?_, .inr endless⟩
        by_contra few
        exact quiet (enforced.raises reached (Nat.not_le.mp few))
      · rintro (⟨line, call, reached, short⟩ | ⟨enough, -⟩)
        · obtain ⟨u, inside, member, found⟩ := (reached_iff line call).mp reached
          exact absurd short (none u line call inside member found)
        · refine ⟨fun reached few => absurd few (Nat.not_lt.mpr (enough _ _ reached)), fun returned => ?_⟩
          cases whole.symm.trans returned

/-- A call by the name alone, of a macro with a parameter. -/
def nameAlone : Text := "macro: one x\ncpu:set reg1 = $x\nend:macro\none\n".toList

theorem arity_enforced_wrong : ¬ ArityEnforced CharClasses.ascii "f" nameAlone := by
  intro enforced
  have returned : expandMacros .ascii "f" nameAlone = .ok "cpu:set reg1 = $x\n".toList := by decide
  have parsed : parseDefs .ascii "f" 1 none [] (splitLines nameAlone) =
      .ok ([("one", ⟨["x".toList], ["cpu:set reg1 = $x\n".toList]⟩)], ["one\n".toList]) := by decide
  have called : invocation .ascii [("one", ⟨["x".toList], ["cpu:set reg1 = $x\n".toList]⟩)] "one\n".toList =
      some ⟨"one", ⟨["x".toList], ["cpu:set reg1 = $x\n".toList]⟩, none⟩ := by decide
  have reached : Reached .ascii "f" nameAlone "one\n".toList ⟨"one", ⟨["x".toList], ["cpu:set reg1 = $x\n".toList]⟩, none⟩ :=
    ⟨_, _, _, parsed, .here 63 _, List.mem_cons_self, called⟩
  have enough := (enforced.served returned reached).enough
  exact absurd enough (by decide)

end Aclm.Macros
