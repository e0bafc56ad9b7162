import Aclm.Macros

/-! The passes over the lines come to the complete expansion of the text, or are given up. -/

set_option autoImplicit false

namespace Aclm.Macros

open Text
open Expansion (loop after Arises Expands Leads Reinvokes)

deriving instance DecidableEq for Invocation

variable (U : CharClasses) {filename : String} {macros : Dict Macro}

/-- A call is replaced by the body of its macro. -/
def rule (macros : Dict Macro) (line : Text) : Option (Nat → List Text) :=
  (invocation U macros line).map fun call => call.instantiate U

/-- There is a value for every parameter. -/
def Invocation.Supplied (call : Invocation) : Prop := call.target.args.length ≤ (call.vals.getD []).length

/-- `expand_one_pass` finds that there are too few values. -/
def Invocation.Short (call : Invocation) : Prop := ∃ vals, call.vals = some vals ∧ vals.length < call.target.args.length

theorem Invocation.Supplied.not_short {call : Invocation} (supplied : call.Supplied) : ¬ call.Short := by
  rintro ⟨vals, shape, short⟩
  rw [Supplied, shape] at supplied
  exact Nat.not_lt.mpr supplied short

variable {U}

theorem rule_eq_none {line : Text} : rule U macros line = none ↔ invocation U macros line = none := Option.map_eq_none_iff

theorem invocation_target {line : Text} {call : Invocation} (found : invocation U macros line = some call) :
    macros.get? call.name = some call.target := by
  unfold invocation at found
  split at found
  · split at found
    · cases found
    · obtain ⟨target, known, rfl⟩ := Option.map_eq_some_iff.mp found
      exact known
  · split at found
    · obtain ⟨target, known, rfl⟩ := Option.map_eq_some_iff.mp found
      exact known
    · cases found

theorem expandOnePass_eq {lines : List Text} (lineNo n : Nat)
    (enough : ∀ line ∈ lines, ∀ call, invocation U macros line = some call → ¬ call.Short) :
    expandOnePass U filename macros lineNo n lines =
      .ok ((Expansion.pass (rule U macros) n lines).1, (Expansion.pass (rule U macros) n lines).2,
        !decide (Expansion.Normal (rule U macros) lines)) := by
  induction lines generalizing lineNo n with
  | nil => rfl
  | cons line rest ih =>
    have ih := fun lineNo n => ih lineNo n fun other member => enough other (List.mem_cons_of_mem _ member)
    cases found : invocation U macros line with
    | none =>
      have none : rule U macros line = none := rule_eq_none.mpr found
      have normal : Expansion.Normal (rule U macros) (line :: rest) ↔ Expansion.Normal (rule U macros) rest := by
        simp [Expansion.Normal, none]
      simp only [expandOnePass, found, ih, ok_bind, Expansion.pass, none, normal]
    | some call =>
      have replaced : rule U macros line = some (call.instantiate U) := by simp [rule, found]
      have more : ¬Expansion.Normal (rule U macros) (line :: rest) := by simp [Expansion.Normal, replaced]
      have checked : ∀ vals, call.vals = some vals → ¬vals.length < call.target.args.length :=
        fun vals shape short => enough line List.mem_cons_self call found ⟨vals, shape, short⟩
      simp only [expandOnePass, found, ih, ok_bind, Expansion.pass, replaced, more, decide_false, Bool.not_false]
      cases shape : call.vals with
      | none => rfl
      | some vals =>
        simp only [checked vals shape, if_false]

/-- A pass stops at the first call with too few values. -/
theorem expandOnePass_short {lines : List Text} (lineNo n : Nat) {line : Text} {call : Invocation} (member : line ∈ lines)
    (found : invocation U macros line = some call) (short : call.Short) :
    ∃ lineNo' line' call' vals, line' ∈ lines ∧ invocation U macros line' = some call' ∧ call'.Short ∧
      expandOnePass U filename macros lineNo n lines = .error (missingArgs filename lineNo' call' vals) := by
  induction lines generalizing lineNo n with
  | nil => cases member
  | cons first rest ih =>
    cases here : invocation U macros first with
    | none =>
      have behind : line ∈ rest := by
        rcases List.mem_cons.mp member with rfl | behind
        · cases found.symm.trans here
        · exact behind
      obtain ⟨lineNo', line', call', vals, inside, found', short', raised⟩ := ih (lineNo + 1) n behind
      refine ⟨lineNo', line', call', vals, List.mem_cons_of_mem _ inside, found', short', ?_⟩
      simp only [expandOnePass, here, raised]
      rfl
    | some other =>
      by_cases few : other.Short
      · obtain ⟨vals, shape, less⟩ := id few
        refine ⟨lineNo, first, other, vals, List.mem_cons_self, here, few, ?_⟩
        simp only [expandOnePass, here, shape, if_pos less]
        rfl
      · have behind : line ∈ rest := by
          rcases List.mem_cons.mp member with rfl | behind
          · cases found.symm.trans here
            exact absurd short few
          · exact behind
        obtain ⟨lineNo', line', call', vals, inside, found', short', raised⟩ := ih (lineNo + 1) (n + 1) behind
        refine ⟨lineNo', line', call', vals, List.mem_cons_of_mem _ inside, found', short', ?_⟩
        simp only [expandOnePass, here, raised]
        cases shape : other.vals with
        | none => rfl
        | some given =>
          have enough : ¬ given.length < other.target.args.length := fun less => few ⟨given, shape, less⟩
          simp only [if_neg enough]
          rfl

theorem expandPasses_eq {lines : List Text} (k n : Nat)
    (enough : ∀ j < k, ∀ line ∈ (after (rule U macros) j (n, lines)).2, ∀ call,
      invocation U macros line = some call → ¬ call.Short) :
    expandPasses U filename macros k n lines =
      match loop (rule U macros) k (n, lines) with
      | some out => .ok out
      | none => .error (notTerminated filename) := by
  induction k generalizing n lines with
  | zero => rfl
  | succ k ih =>
    have once : ∀ line ∈ lines, ∀ call, invocation U macros line = some call → ¬ call.Short := enough 0 (Nat.succ_pos k)
    rw [expandPasses, expandOnePass_eq 1 n once, ok_bind, loop]
    by_cases normal : Expansion.Normal (rule U macros) lines
    · simp [normal, Expansion.pass_normal normal]
    · simp only [normal, decide_false, Bool.not_false, if_true, if_false]
      exact ih _ fun j small line member => enough (j + 1) (Nat.succ_lt_succ small) line member

/-- The name is called whenever its macro has been called, if not at once then by the macros it calls. -/
def AlwaysReinvokes (U : CharClasses) (macros : Dict Macro) (name : String) : Prop :=
  Reinvokes (rule U macros) fun line => ∃ call, invocation U macros line = some call ∧ call.name = name

theorem expand_macros_complete {src : Text} {lines : List Text}
    (closed : parseDefs U filename 1 none [] (splitLines src) = .ok (macros, lines))
    (supplied : ∀ g line call, Arises (rule U macros) lines g line → g < MAX_PASSES →
      invocation U macros line = some call → call.Supplied) :
    ((∃ result, expandMacros U filename src = .ok result) ↔
      ∀ g line, Arises (rule U macros) lines g line → 63 ≤ g → invocation U macros line = none) ∧
    ((¬∃ result, expandMacros U filename src = .ok result) → expandMacros U filename src = .error (notTerminated filename)) ∧
    (∀ result, expandMacros U filename src = .ok result → ∃ out, result = out.flatten ∧
      (∀ line ∈ out, invocation U macros line = none) ∧ Expands (rule U macros) lines out) ∧
    ∀ name, AlwaysReinvokes U macros name →
      (∃ g line call, Arises (rule U macros) lines g line ∧ invocation U macros line = some call ∧ call.name = name) →
      expandMacros U filename src = .error (notTerminated filename) := by
  -- No call that the passes reach is short of arguments, so they are the passes of the abstract expansion.
  have met (j : Nat) (small : j < MAX_PASSES) (line : Text) (member : line ∈ (after (rule U macros) j (0, lines)).2)
      (call : Invocation) (found : invocation U macros line = some call) : ¬ call.Short := by
    obtain ⟨g, inside⟩ := (Expansion.mem_after_iff j).mp member
    have generation := (Expansion.after_generation j inside).1
    exact (supplied g line call ⟨j, inside⟩ (Nat.lt_of_le_of_lt generation small) found).not_short
  have passes : expandMacros U filename src = match loop (rule U macros) MAX_PASSES (0, lines) with
      | some out => .ok out.flatten
      | none => .error (notTerminated filename) := by
    rw [expandMacros, closed, ok_bind]
    dsimp only
    rw [expandPasses_eq MAX_PASSES 0 met]
    cases loop (rule U macros) MAX_PASSES (0, lines) <;> rfl
  rw [passes]
  refine ⟨?_, ?_, ?_, ?_⟩
  -- The last of the 64 passes has to be one without a call.
  · have late := @Expansion.loop_isSome_iff _ (rule U macros) lines 63
    simp only [rule_eq_none] at late
    rw [← late, MAX_PASSES]
    cases loop (rule U macros) (63 + 1) (0, lines) <;> simp
  · intro failed
    cases ended : loop (rule U macros) MAX_PASSES (0, lines) with
    | none => rfl
    | some out => exact absurd ⟨_, by rw [ended]⟩ failed
  · intro result ended
    cases done : loop (rule U macros) MAX_PASSES (0, lines) with
    | none => rw [done] at ended; cases ended
    | some out =>
      rw [done] at ended
      obtain ⟨normal, expands⟩ := Expansion.loop_expands done
      exact ⟨out, (Except.ok.inj ended).symm, fun line member => rule_eq_none.mp (normal line member), expands⟩
  · rintro name always ⟨g, line, call, arises, found⟩
    rw [Expansion.loop_eq_none always arises ⟨call, found⟩ MAX_PASSES]

/-- A macro that calls another one, and a call of it. -/
def nestedCall : Text := "macro: one\n~@top\nend:macro\nmacro: two\none\none\nend:macro\n two\nret\n".toList

theorem expand_macros_complete_nested : ∃ out, "~@top__m2\n~@top__m3\nret\n".toList = out.flatten ∧
    Expands (rule .ascii [("one", ⟨[], ["~@top\n".toList]⟩), ("two", ⟨[], ["one\n".toList, "one\n".toList]⟩)])
      [" two\n".toList, "ret\n".toList] out := by
  have closed : parseDefs .ascii "f" 1 none [] (splitLines nestedCall) =
      .ok ([("one", ⟨[], ["~@top\n".toList]⟩), ("two", ⟨[], ["one\n".toList, "one\n".toList]⟩)],
        [" two\n".toList, "ret\n".toList]) := by decide
  have expanded : expandMacros .ascii "f" nestedCall = .ok "~@top__m2\n~@top__m3\nret\n".toList := by decide
  obtain ⟨-, -, complete, -⟩ := expand_macros_complete closed fun g line call _ _ found => by
    have known := invocation_target found
    have none : call.target.args = [] := by
      simp only [Dict.get?] at known
      split at known
      · rw [← Option.some.inj known]
      · split at known
        · rw [← Option.some.inj known]
        · cases known
    simp [Invocation.Supplied, none]
  obtain ⟨out, same, -, expands⟩ := complete _ expanded
  exact ⟨out, same, expands⟩

end Aclm.Macros
