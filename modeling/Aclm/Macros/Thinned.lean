import Aclm.Macros.Locals

/-! Lines that no pass over the text looks at, and the end of the last line: without them the passes come to the same lines. -/

set_option autoImplicit false

namespace Aclm

/-- Two exceptions, or two results that are related. -/
inductive Both {α β : Type} (R : α → β → Prop) : Except PyErr α → Except PyErr β → Prop
  | ok {a : α} {b : β} (related : R a b) : Both R (.ok a) (.ok b)
  | error (e e' : PyErr) : Both R (.error e) (.error e')

theorem Both.bind {α α' β β' : Type} {R : α → β → Prop} {S : α' → β' → Prop} {x : Except PyErr α} {y : Except PyErr β}
    {f : α → Except PyErr α'} {g : β → Except PyErr β'} (first : Both R x y) (rest : ∀ a b, R a b → Both S (f a) (g b)) :
    Both S (x >>= f) (y >>= g) := by
  cases first with
  | ok related => exact rest _ _ related
  | error e e' => exact .error e e'

theorem Both.left {α α' β : Type} {R : α → β → Prop} {S : α' → β → Prop} {x : Except PyErr α} {y : Except PyErr β}
    {f : α → Except PyErr α'} (first : Both R x y) (rest : ∀ a b, R a b → Both S (f a) (.ok b)) : Both S (x >>= f) y := by
  cases first with
  | ok related => exact rest _ _ related
  | error e e' => exact .error e e'

theorem Both.map {α α' β β' : Type} {R : α → β → Prop} {S : α' → β' → Prop} {x : Except PyErr α} {y : Except PyErr β}
    {f : α → α'} {g : β → β'} (both : Both R x y) (rest : ∀ a b, R a b → S (f a) (g b)) : Both S (x.map f) (y.map g) := by
  cases both with
  | ok related => exact .ok (rest _ _ related)
  | error e e' => exact .error e e'

namespace Text

variable {U : CharClasses}

/-! ### The end of the last line -/

theorem lstrip_newline (s : Text) : lstrip (s ++ ['\n']) = if lstrip s = [] then [] else lstrip s ++ ['\n'] := by
  induction s with
  | nil => rfl
  | cons c s ih =>
    unfold lstrip at ih ⊢
    by_cases space : isSpace c = true
    · rw [List.cons_append, List.dropWhile_cons_of_pos space, List.dropWhile_cons_of_pos space, ih]
    · rw [List.cons_append, List.dropWhile_cons_of_neg space, List.dropWhile_cons_of_neg space, if_neg (List.cons_ne_nil c s)]
      rfl

theorem lstrip_newline_nil {s : Text} (blank : lstrip s = []) : lstrip (s ++ ['\n']) = [] := by rw [lstrip_newline, if_pos blank]

theorem lstrip_newline_some {s : Text} (some : lstrip s ≠ []) : lstrip (s ++ ['\n']) = lstrip s ++ ['\n'] := by
  rw [lstrip_newline, if_neg some]

theorem rstrip_newline (s : Text) : rstrip (s ++ ['\n']) = rstrip s := by
  rw [rstrip, rstrip, List.reverse_append]
  rfl

theorem ident_newline (s : Text) : ident U (s ++ ['\n']) = (ident U s).map fun found => (found.1, found.2 ++ ['\n']) := by
  cases s with
  | nil => rfl
  | cons c s =>
    have plain : word U '\n' = false := word_ascii U (by decide)
    have taken : (s ++ ['\n']).takeWhile (word U) = s.takeWhile (word U) ∧
        (s ++ ['\n']).dropWhile (word U) = s.dropWhile (word U) ++ ['\n'] := by
      induction s with
      | nil => simp [plain]
      | cons d s ih =>
        by_cases inside : word U d = true
        · simp [inside, ih]
        · simp [inside]
    rw [List.cons_append, ident, ident, taken.1, taken.2]
    split <;> rfl

theorem split_newline (s : Text) : split (s ++ ['\n']) = split s := by
  rw [split, pieces_append s [] (by rfl), split]
  exact List.append_nil _

/-- A word that does not end with a newline stands in front of the newline, too. -/
theorem append_newline {w s t : Text} (other : w.getLast? ≠ some '\n') :
    s ++ ['\n'] = w ++ t ↔ ∃ t', t = t' ++ ['\n'] ∧ s = w ++ t' := by
  constructor
  · intro same
    rcases List.eq_nil_or_concat t with rfl | ⟨t', c, rfl⟩
    · rw [List.append_nil] at same
      rw [← same] at other
      exact absurd List.getLast?_concat other
    · rw [List.concat_eq_append, ← List.append_assoc] at same
      obtain ⟨rfl, last⟩ := List.append_inj' same rfl
      cases last
      exact ⟨t', List.concat_eq_append, rfl⟩
  · rintro ⟨t', rfl, rfl⟩
    exact List.append_assoc w t' ['\n']

end Text

namespace Macros

open Text

variable {U : CharClasses}

theorem macroStart_newline (line : Text) : macroStart U (line ++ ['\n']) = macroStart U line := by
  unfold macroStart
  by_cases blank : lstrip line = []
  · rw [lstrip_newline_nil blank, blank]
  · rw [lstrip_newline_some blank]
    generalize lstrip line = s
    split
    · next s' begun =>
      obtain ⟨t, rfl, rfl⟩ := (append_newline (w := "macro:".toList) (by decide)).mp begun
      change _ = (ident U (lstrip t)).map fun found => (found.1, split found.2)
      by_cases blank : lstrip t = []
      · rw [lstrip_newline_nil blank, blank]
      · rw [lstrip_newline_some blank, ident_newline]
        cases ident U (lstrip t) with
        | none => rfl
        | some found => simp [split_newline]
    · next other =>
      split
      · next s => exact (other _ rfl).elim
      · rfl

theorem macroEnd_newline (line : Text) : macroEnd (line ++ ['\n']) = macroEnd line := by
  rw [macroEnd, macroEnd, rstrip_newline]

theorem matchCall_newline {line : Text} (whole : '\n' ∉ line) : matchCall U (line ++ ['\n']) = matchCall U line := by
  unfold matchCall
  by_cases blank : lstrip line = []
  · rw [lstrip_newline_nil blank, blank]
  rw [lstrip_newline_some blank, ident_newline]
  cases found : ident U (lstrip line) with
  | none => rfl
  | some pair =>
    obtain ⟨name, rest⟩ := pair
    have behind : '\n' ∉ rest := by
      obtain ⟨shape, -, -⟩ := ident_found found
      intro member
      have inside : '\n' ∈ lstrip line := shape ▸ List.mem_append_right _ member
      exact whole ((List.dropWhile_suffix _).subset inside)
    have last : rest.getLast? ≠ some '\n' := fun same => behind (List.mem_of_getLast? same)
    simp only [Option.map_some, Option.bind_eq_bind, Option.bind_some]
    by_cases blank : lstrip rest = []
    · simp only [lstrip_newline_nil blank, blank, if_true, List.getLast?_concat, if_neg last, List.dropLast_concat]
    · simp only [lstrip_newline_some blank, rstrip_newline, List.length_append, List.length_singleton,
        Nat.add_lt_add_iff_right, List.append_eq_nil_iff, blank, false_and, if_false]

theorem matchBare_newline (line : Text) : matchBare U (line ++ ['\n']) = matchBare U line := by
  unfold matchBare
  by_cases blank : lstrip line = []
  · rw [lstrip_newline_nil blank, blank]
  rw [lstrip_newline_some blank, ident_newline]
  cases ident U (lstrip line) with
  | none => rfl
  | some found =>
    simp only [Option.map_some, Option.bind_eq_bind, Option.bind_some]
    by_cases blank : lstrip found.2 = []
    · rw [lstrip_newline_nil blank, blank]
    · rw [lstrip_newline_some blank, if_neg blank, if_neg (by simp)]

theorem invocation_newline (macros : Dict Macro) {line : Text} (whole : '\n' ∉ line) :
    invocation U macros (line ++ ['\n']) = invocation U macros line := by
  rw [invocation, invocation, matchCall_newline whole, matchBare_newline]

/-! ### Lines that are left out -/

/-- The same lines, without some of those of which `M` holds; where `ends` holds, the last one may lack its end. -/
inductive Thinned (M : Text → Prop) (ends : Prop) : List Text → List Text → Prop
  | nil : Thinned M ends [] []
  | keep (line : Text) {lines lines' : List Text} (rest : Thinned M ends lines lines') :
    Thinned M ends (line :: lines) (line :: lines')
  | drop {line : Text} {lines lines' : List Text} (out : M line) (rest : Thinned M ends lines lines') :
    Thinned M ends (line :: lines) lines'
  | blank (last : ends) : Thinned M ends [['\n']] []
  | last (last : ends) {line : Text} (some : line ≠ []) (whole : ∀ c ∈ line, lineBreak c = false) :
    Thinned M ends [line ++ ['\n']] [line]

/-- No pass looks at the line. -/
structure Quiet (U : CharClasses) (line : Text) : Prop where
  start : macroStart U line = none
  ends : macroEnd line = false
  call : ∀ macros, invocation U macros line = none

/-- The lines of which `M` holds go through the passes as they are, and what the passes make of them goes through, too. -/
structure Passed (U : CharClasses) (M : Text → Prop) : Prop where
  quiet {line : Text} (out : M line) : Quiet U line
  numbered (n : Nat) {line : Text} (out : M line) : M (numberLabels U n line)
  substituted (d : Dict Text) {line : Text} (out : M line) : M (substitute d line)

variable {M : Text → Prop} {ends : Prop} {lines lines' : List Text}

namespace Thinned

theorem refl : (lines : List Text) → Thinned M ends lines lines
  | [] => .nil
  | line :: rest => .keep line (refl rest)

theorem append {front front' : List Text} (first : Thinned M False front front') (rest : Thinned M ends lines lines') :
    Thinned M ends (front ++ lines) (front' ++ lines') := by
  induction first with
  | nil => exact rest
  | keep line _ ih => exact .keep line ih
  | drop out _ ih => exact .drop out ih
  | blank last => exact last.elim
  | last last => exact last.elim

theorem snoc_keep {front front' : List Text} (first : Thinned M False front front') (line : Text) :
    Thinned M False (front ++ [line]) (front' ++ [line]) := first.append (refl _)

theorem snoc_drop {front front' : List Text} (first : Thinned M False front front') {line : Text} (out : M line) :
    Thinned M False (front ++ [line]) front' := by
  have both := first.append (.drop out (.nil : Thinned M False [] []))
  rwa [List.append_nil] at both

theorem any (thin : Thinned M False lines lines') : Thinned M ends lines lines' := by
  have both := thin.append (.nil : Thinned M ends [] [])
  rwa [List.append_nil, List.append_nil] at both

/-- What a line of the one is made into, a line of the other is, too. -/
theorem map (thin : Thinned M False lines lines') {f : Text → Text} (kept : ∀ {line}, M line → M (f line)) :
    Thinned M False (lines.map f) (lines'.map f) := by
  induction thin with
  | nil => exact .nil
  | keep line _ ih => exact .keep (f line) ih
  | drop out _ ih => exact .drop (kept out) ih
  | blank last => exact last.elim
  | last last => exact last.elim

end Thinned

/-! ### Definitions -/

/-- The same macro, but for lines that are left out of its body. -/
structure SameMacro (M : Text → Prop) (target target' : Macro) : Prop where
  args : target.args = target'.args
  body : Thinned M False target.body target'.body

/-- The same macros under the same names. -/
def SameMacros (M : Text → Prop) (macros macros' : Dict Macro) : Prop :=
  List.Forall₂ (fun entry entry' => entry.1 = entry'.1 ∧ SameMacro M entry.2 entry'.2) macros macros'

theorem SameMacros.set {macros macros' : Dict Macro} (same : SameMacros M macros macros') (name : String) {target target' : Macro}
    (new : SameMacro M target target') : SameMacros M (macros.set name target) (macros'.set name target') := by
  induction same with
  | nil => exact .cons ⟨rfl, new⟩ .nil
  | @cons entry entry' rest rest' first behind ih =>
    obtain ⟨key, value⟩ := entry
    obtain ⟨key', value'⟩ := entry'
    obtain ⟨rfl, value⟩ := first
    rw [Dict.set, Dict.set]
    split
    · exact .cons ⟨rfl, new⟩ behind
    · exact .cons ⟨rfl, value⟩ ih

theorem SameMacros.get? {macros macros' : Dict Macro} (same : SameMacros M macros macros') (name : String) :
    Option.Rel (SameMacro M) (macros.get? name) (macros'.get? name) := by
  induction same with
  | nil => exact .none
  | @cons entry entry' rest rest' first behind ih =>
    obtain ⟨key, value⟩ := entry
    obtain ⟨key', value'⟩ := entry'
    obtain ⟨rfl, value⟩ := first
    rw [Dict.get?, Dict.get?]
    split
    · exact .some value
    · exact ih

theorem parseDefs_thinned (passed : Passed U M) (file : String) (thin : Thinned M ends lines lines') (n n' : Nat)
    {opened opened' : Option Opened} (open' : Option.Rel (fun d d' => d.name = d'.name ∧ SameMacro M d.target d'.target) opened opened')
    {macros macros' : Dict Macro} (same : SameMacros M macros macros') :
    Both (fun out out' => SameMacros M out.1 out'.1 ∧ Thinned M ends out.2 out'.2)
      (parseDefs U file n opened macros lines) (parseDefs U file n' opened' macros' lines') := by
  -- On the lines, one of which may stand in the one text only, or without its newline.
  induction thin generalizing n n' opened opened' macros macros' with
  | nil =>
    cases open' with
    | none => exact .ok ⟨same, .nil⟩
    | some target => exact .error _ _
  | @keep line lines lines' rest ih =>
    cases open' with
    | none =>
      rw [parseDefs, parseDefs]
      cases macroStart U line with
      | some found =>
        refine ih _ _ (.some ?_) same
        exact ⟨rfl, rfl, .nil⟩
      | none => exact (ih _ _ .none same).bind fun out out' related => .ok ⟨related.1, .keep line related.2⟩
    | @some d d' target =>
      obtain ⟨name, target⟩ := target
      rw [parseDefs, parseDefs]
      split
      · exact ih _ _ .none (name ▸ same.set d.name target)
      · refine ih _ _ (.some ?_) same
        exact ⟨name, target.args, target.body.snoc_keep line⟩
  | @drop line lines lines' out rest ih =>
    cases open' with
    | none =>
      rw [parseDefs, (passed.quiet out).start]
      exact (ih _ _ .none same).left fun _ _ related => .ok ⟨related.1, .drop out related.2⟩
    | @some d d' target =>
      rw [parseDefs, if_neg (Bool.eq_false_iff.mp (passed.quiet out).ends)]
      refine ih _ _ (.some ?_) same
      exact ⟨target.1, target.2.args, target.2.body.snoc_drop out⟩
  | blank last =>
    cases open' with
    | none => exact .ok ⟨same, .blank last⟩
    | some target => exact .error _ _
  | @last last line some whole =>
    cases open' with
    | none =>
      simp only [parseDefs, macroStart_newline]
      cases macroStart U line with
      | some found => exact .error _ _
      | none => exact .ok ⟨same, .last last some whole⟩
    | @some d d' target =>
      obtain ⟨name, target⟩ := target
      simp only [parseDefs, macroEnd_newline]
      split
      · exact .ok ⟨name ▸ same.set d.name target, .nil⟩
      · exact .error _ _

/-! ### Calls -/

/-- The same call of the same macro. -/
structure SameCall (M : Text → Prop) (call call' : Invocation) : Prop where
  vals : call.vals = call'.vals
  target : SameMacro M call.target call'.target

theorem invocation_same {macros macros' : Dict Macro} (same : SameMacros M macros macros') (line : Text) :
    Option.Rel (SameCall M) (invocation U macros line) (invocation U macros' line) := by
  have called (name : String) (vals : Option (List Text)) :
      Option.Rel (SameCall M) ((macros.get? name).map fun target => ⟨name, target, vals⟩)
        ((macros'.get? name).map fun target => ⟨name, target, vals⟩) := by
    have found := same.get? name
    generalize macros.get? name = target, macros'.get? name = target' at found
    cases found with
    | none => exact .none
    | some target => exact .some ⟨rfl, target⟩
  unfold invocation
  split
  · split
    · exact .none
    · exact called _ _
  · split
    · exact called _ _
    · exact .none

theorem SameCall.instantiate (passed : Passed U M) {call call' : Invocation} (same : SameCall M call call') (n : Nat) :
    Thinned M False (call.instantiate U n) (call'.instantiate U n) := by
  unfold Invocation.instantiate
  rw [← same.vals, ← same.target.args]
  refine same.target.body.map fun out => ?_
  cases call.vals with
  | some vals => exact passed.numbered n (passed.substituted _ out)
  | none => exact passed.numbered n out

/-- What one pass comes to: the number of the last call, the lines, and whether there was a call. -/
structure SamePass (M : Text → Prop) (ends : Prop) (out out' : Nat × List Text × Bool) : Prop where
  counter : out.1 = out'.1
  lines : Thinned M ends out.2.1 out'.2.1
  expanded : out.2.2 = out'.2.2

/-- A line that calls a macro, and `rest`, what the pass makes of the lines behind it. -/
def expandCall (U : CharClasses) (file : String) (n counter : Nat) (call : Invocation) (rest : Except PyErr (Nat × List Text × Bool)) :
    Except PyErr (Nat × List Text × Bool) := do
  if let some vals := call.vals then
    if vals.length < call.target.args.length then .error (missingArgs file n call vals)
  let (counter', out, _) ← rest
  .ok (counter', call.instantiate U (counter + 1) ++ out, true)

theorem expandOnePass_thinned (passed : Passed U M) (file : String) {macros macros' : Dict Macro}
    (same : SameMacros M macros macros') (thin : Thinned M ends lines lines') (n n' counter : Nat) :
    Both (SamePass M ends) (expandOnePass U file macros n counter lines) (expandOnePass U file macros' n' counter lines') := by
  have turn {call call' : Invocation} (calls : SameCall M call call') (n n' counter : Nat) {x y : Except PyErr (Nat × List Text × Bool)}
      (rest : Both (SamePass M ends) x y) :
      Both (SamePass M ends) (expandCall U file n counter call x) (expandCall U file n' counter call' y) := by
    unfold expandCall
    rw [← calls.vals, ← calls.target.args]
    have behind : Both (SamePass M ends) (x >>= fun out => .ok (out.1, call.instantiate U (counter + 1) ++ out.2.1, true))
        (y >>= fun out => .ok (out.1, call'.instantiate U (counter + 1) ++ out.2.1, true)) :=
      rest.bind fun out out' related =>
        .ok ⟨related.counter, (calls.instantiate passed (counter + 1)).append related.lines, rfl⟩
    cases call.vals with
    | none => exact behind
    | some vals =>
      simp only
      split
      · exact .error _ _
      · exact behind
  induction thin generalizing n n' counter with
  | nil => exact .ok ⟨rfl, .nil, rfl⟩
  | @keep line lines lines' rest ih =>
    rw [expandOnePass, expandOnePass]
    have calls := invocation_same (U := U) same line
    generalize invocation U macros line = call, invocation U macros' line = call' at calls
    cases calls with
    | none => exact (ih _ _ _).bind fun out out' related => .ok ⟨related.counter, .keep line related.lines, related.expanded⟩
    | some calls => exact turn calls n n' counter (ih _ _ _)
  | drop out rest ih =>
    rw [expandOnePass, (passed.quiet out).call]
    exact (ih _ _ _).left fun _ _ related => .ok ⟨related.counter, .drop out related.lines, related.expanded⟩
  | blank last => exact .ok ⟨rfl, .blank last, rfl⟩
  | @last last line some whole =>
    have within : '\n' ∉ line := fun member => by
      have ends := whole _ member
      cases ends
    simp only [expandOnePass, invocation_newline _ within]
    have calls := invocation_same (U := U) same line
    generalize invocation U macros line = call, invocation U macros' line = call' at calls
    cases calls with
    | none => exact .ok ⟨rfl, .last last some whole, rfl⟩
    | some calls => exact turn calls n n' counter (.ok ⟨rfl, .nil, rfl⟩)

theorem expandPasses_thinned (passed : Passed U M) (file : String) {macros macros' : Dict Macro}
    (same : SameMacros M macros macros') (thin : Thinned M ends lines lines') (passes counter : Nat) :
    Both (Thinned M ends) (expandPasses U file macros passes counter lines) (expandPasses U file macros' passes counter lines') := by
  induction passes generalizing counter lines lines' with
  | zero => exact .error _ _
  | succ passes ih =>
    refine (expandOnePass_thinned passed file same thin 1 1 counter).bind fun out out' related => ?_
    obtain ⟨counter, out, expanded⟩ := out
    obtain ⟨counter', out', expanded'⟩ := out'
    obtain ⟨rfl, thin, rfl⟩ := related
    dsimp only
    split
    · exact ih thin _
    · exact .ok thin

/-- The lines that `expand_macros` comes to. -/
def expandedLines (U : CharClasses) (file : String) (src : Text) : Except PyErr (List Text) := do
  let (macros, lines) ← parseDefs U file 1 none [] (splitLines src)
  expandPasses U file macros MAX_PASSES 0 lines

theorem expandMacros_eq (file : String) (src : Text) :
    expandMacros U file src = (do .ok (← expandedLines U file src).flatten) := by
  rw [expandedLines, bind_assoc]
  rfl

/-- Lines that no pass looks at are all that is missing after the passes, too. -/
theorem expandedLines_thinned (passed : Passed U M) (file : String) {src src' : Text}
    (thin : Thinned M ends (splitLines src) (splitLines src')) :
    Both (Thinned M ends) (expandedLines U file src) (expandedLines U file src') := by
  have none : SameMacros M [] [] := .nil
  exact (parseDefs_thinned passed file thin 1 1 .none none).bind fun _ _ related =>
    expandPasses_thinned passed file related.1 related.2 _ _

end Macros

end Aclm
