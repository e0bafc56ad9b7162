import Aclm.Macros.Labels
import Aclm.Macros.Passes

/-! Where the lines of an expanded text come from: the call each of them was made for, and the characters of a body among
those of its values. -/

set_option autoImplicit false

namespace Aclm.Macros

open Text
open Expansion (after)

/-! ### Characters -/

/-- A character of a line comes from the body of a macro or from the value of a parameter. -/
inductive Origin where
  | body
  | value (param : String)
  deriving DecidableEq

abbrev Marked := List (Char × Origin)

def Marked.text (m : Marked) : Text := m.map Prod.fst

def mark (o : Origin) (s : Text) : Marked := s.map (·, o)

/-- `s.replace(old, new)`, with the origins of the characters. -/
def replaceMarkedFrom (old : Text) (new : Marked) : Nat → Marked → Marked
  | _, [] => []
  | k + 1, _ :: s => replaceMarkedFrom old new k s
  | 0, c :: s =>
    if old.isPrefixOf (Marked.text (c :: s)) then new ++ replaceMarkedFrom old new (old.length - 1) s
    else c :: replaceMarkedFrom old new 0 s

def substituteMarked (d : Dict Text) (line : Text) : Marked :=
  d.foldl (fun m entry => replaceMarkedFrom ('$' :: entry.1.toList) (mark (.value entry.1) entry.2) 0 m) (mark .body line)

theorem text_mark (o : Origin) (s : Text) : (mark o s).text = s := by
  rw [Marked.text, mark, List.map_map]
  exact List.map_id s

theorem text_append (m m' : Marked) : Marked.text (m ++ m') = Marked.text m ++ Marked.text m' := List.map_append

theorem text_replaceMarkedFrom (old : Text) (new : Marked) (k : Nat) (m : Marked) :
    (replaceMarkedFrom old new k m).text = replaceFrom old new.text k m.text := by
  induction m generalizing k with
  | nil => cases k <;> rfl
  | cons c m ih => cases k with
    | succ k => exact ih k
    | zero =>
      have whole : Marked.text (c :: m) = c.1 :: Marked.text m := rfl
      rw [replaceMarkedFrom, whole, replaceFrom]
      split
      · rw [text_append, ih]
      · exact congrArg (c.1 :: ·) (ih 0)

/-- Without the origins, it is the substitution that is made. -/
theorem text_substituteMarked (d : Dict Text) (line : Text) : (substituteMarked d line).text = substitute d line := by
  have all (m : Marked) (line : Text) (same : m.text = line) :
      (d.foldl (fun m entry => replaceMarkedFrom ('$' :: entry.1.toList) (mark (.value entry.1) entry.2) 0 m) m).text =
        substitute d line := by
    unfold substitute
    induction d generalizing m line with
    | nil => exact same
    | cons entry d ih =>
      refine ih _ _ ?_
      rw [text_replaceMarkedFrom, text_mark, same]
      rfl
  exact all _ line (text_mark .body line)

/-! ### Lines -/

/-- One call of the expansion: the pass that replaces it, and its place among the lines of that pass. -/
structure Instance where
  pass : Nat
  place : Nat
  deriving DecidableEq

/-- What a line was made for. -/
structure Birth where
  inst : Instance
  number : Nat
  call : Invocation
  /-- The line of the body. -/
  line : Text
  deriving DecidableEq

/-- The line with its values, before its labels are numbered. -/
def Birth.marked (b : Birth) : Marked :=
  match b.call.vals with
  | some vals => substituteMarked (mapping b.call.target.args vals) b.line
  | none => mark .body b.line

/-- A line of the text, which is one of the source or was made for a call. -/
inductive Traced (U : CharClasses) where
  | source (line : Text)
  | made (b : Birth)
  deriving DecidableEq

variable {U : CharClasses}

def Traced.text : Traced U → Text
  | .source line => line
  | .made b => numberLabels U b.number b.marked.text

variable (U)

/-- The lines made for a call. -/
def births (call : Invocation) (inst : Instance) (number : Nat) : List (Traced U) :=
  call.target.body.map fun line => .made ⟨inst, number, call, line⟩

/-- `expand_one_pass` from a line on. -/
def tracePass (macros : Dict Macro) (pass : Nat) : Nat → Nat → List (Traced U) → Nat × List (Traced U)
  | _, n, [] => (n, [])
  | place, n, t :: rest => match invocation U macros t.text with
    | some call =>
      let (n', out) := tracePass macros pass (place + 1) (n + 1) rest
      (n', births U call ⟨pass, place⟩ (n + 1) ++ out)
    | none =>
      let (n', out) := tracePass macros pass (place + 1) n rest
      (n', t :: out)

/-- The lines after a number of passes, with the number of the last call. -/
def traceAfter (macros : Dict Macro) (lines : List Text) : Nat → Nat × List (Traced U)
  | 0 => (0, lines.map .source)
  | j + 1 => tracePass U macros j 0 (traceAfter macros lines j).1 (traceAfter macros lines j).2

variable {U} {macros : Dict Macro} {filename : String}

theorem births_text (call : Invocation) (inst : Instance) (number : Nat) :
    (births U call inst number).map Traced.text = call.instantiate U number := by
  rw [births, List.map_map, Invocation.instantiate]
  refine List.map_congr_left fun line _ => ?_
  change numberLabels U number (Birth.marked _).text = _
  cases shape : call.vals with
  | none => simp only [Birth.marked, shape, text_mark]
  | some vals => simp only [Birth.marked, shape, text_substituteMarked]

/-- Without what is known of the lines, a pass is the one that is made. -/
theorem tracePass_text (pass place n : Nat) (ts : List (Traced U)) :
    (tracePass U macros pass place n ts).1 = (Expansion.pass (rule U macros) n (ts.map Traced.text)).1 ∧
      (tracePass U macros pass place n ts).2.map Traced.text =
        (Expansion.pass (rule U macros) n (ts.map Traced.text)).2 := by
  induction ts generalizing place n with
  | nil => exact ⟨rfl, rfl⟩
  | cons t ts ih =>
    rw [tracePass, List.map_cons, Expansion.pass]
    cases found : invocation U macros t.text with
    | none =>
      obtain ⟨count, lines⟩ := ih (place + 1) n
      simp only [rule, found, Option.map_none]
      exact ⟨count, congrArg (t.text :: ·) lines⟩
    | some call =>
      obtain ⟨count, lines⟩ := ih (place + 1) (n + 1)
      simp only [rule, found, Option.map_some]
      exact ⟨count, by rw [List.map_append, births_text]; exact congrArg _ lines⟩

theorem traceAfter_text (lines : List Text) (j : Nat) :
    (traceAfter U macros lines j).1 = (after (rule U macros) j (0, lines)).1 ∧
      (traceAfter U macros lines j).2.map Traced.text = (after (rule U macros) j (0, lines)).2 := by
  induction j with
  | zero =>
    refine ⟨rfl, ?_⟩
    change (lines.map Traced.source).map Traced.text = lines
    rw [List.map_map]
    exact List.map_id lines
  | succ j ih =>
    obtain ⟨count, texts⟩ := ih
    rw [Expansion.after_succ, ← count, ← texts]
    exact tracePass_text j 0 _ _

/-! ### Calls and their numbers -/

/-- The calls that the lines were made for are told apart by their numbers as they are by their places. -/
structure Numbered (j n : Nat) (ts : List (Traced U)) : Prop where
  before {b : Birth} (member : .made b ∈ ts) : b.inst.pass < j ∧ b.number ≤ n
  one {b b' : Birth} (member : .made b ∈ ts) (member' : .made b' ∈ ts) : b.inst = b'.inst ↔ b.number = b'.number

/-- A line after a pass was there before it, or was made in it for a call that comes later than those before. -/
theorem mem_tracePass {pass place n : Nat} {ts : List (Traced U)} {b : Birth}
    (member : .made b ∈ (tracePass U macros pass place n ts).2) :
    .made b ∈ ts ∨ (b.inst.pass = pass ∧ place ≤ b.inst.place ∧ n < b.number) ∧
      macros.get? b.call.name = some b.call.target ∧ b.line ∈ b.call.target.body := by
  induction ts generalizing place n with
  | nil => exact .inl member
  | cons t ts ih =>
    rw [tracePass] at member
    split at member
    · next call found =>
      rcases List.mem_append.mp member with new | later
      · obtain ⟨line, inside, same⟩ := List.mem_map.mp new
        cases same
        exact .inr ⟨⟨rfl, Nat.le_refl _, Nat.lt_succ_self n⟩, invocation_target found, inside⟩
      · rcases ih later with old | ⟨⟨same, place', number⟩, body⟩
        · exact .inl (List.mem_cons_of_mem _ old)
        · exact .inr ⟨⟨same, by omega, by omega⟩, body⟩
    · next none =>
      rcases List.mem_cons.mp member with rfl | later
      · exact .inl List.mem_cons_self
      · rcases ih later with old | ⟨⟨same, place', number⟩, body⟩
        · exact .inl (List.mem_cons_of_mem _ old)
        · exact .inr ⟨⟨same, by omega, number⟩, body⟩

theorem tracePass_count (pass place n : Nat) (ts : List (Traced U)) :
    n ≤ (tracePass U macros pass place n ts).1 ∧
      ∀ b, .made b ∈ (tracePass U macros pass place n ts).2 → .made b ∈ ts ∨ b.number ≤ (tracePass U macros pass place n ts).1 := by
  induction ts generalizing place n with
  | nil => exact ⟨Nat.le_refl n, fun b member => .inl member⟩
  | cons t ts ih =>
    rw [tracePass]
    split
    · next call found =>
      obtain ⟨more, below⟩ := ih (place + 1) (n + 1)
      refine ⟨by dsimp only; omega, fun b member => ?_⟩
      rcases List.mem_append.mp member with new | later
      · obtain ⟨line, -, same⟩ := List.mem_map.mp new
        cases same
        exact .inr more
      · exact (below b later).imp_left (List.mem_cons_of_mem _)
    · next none =>
      obtain ⟨more, below⟩ := ih (place + 1) n
      refine ⟨more, fun b member => ?_⟩
      rcases List.mem_cons.mp member with rfl | later
      · exact .inl List.mem_cons_self
      · exact (below b later).imp_left (List.mem_cons_of_mem _)

/-- Two lines that were made in the pass. -/
theorem tracePass_one {pass place n : Nat} {ts : List (Traced U)} {b b' : Birth}
    (member : .made b ∈ (tracePass U macros pass place n ts).2) (member' : .made b' ∈ (tracePass U macros pass place n ts).2)
    (new : .made b ∉ ts) (new' : .made b' ∉ ts) : b.inst = b'.inst ↔ b.number = b'.number := by
  induction ts generalizing place n with
  | nil => cases member
  | cons t ts ih =>
    have rest (b : Birth) (new : .made b ∉ t :: ts) : .made b ∉ ts := fun inside => new (List.mem_cons_of_mem _ inside)
    rw [tracePass] at member member'
    split at member
    · next call found =>
      rw [found] at member'
      have later {b : Birth} (new : .made b ∉ t :: ts) (later : .made b ∈ (tracePass U macros pass (place + 1) (n + 1) ts).2) :
          place < b.inst.place ∧ n + 1 < b.number := by
        rcases mem_tracePass later with old | ⟨⟨-, place', number⟩, -⟩
        · exact absurd old (rest b new)
        · exact ⟨place', number⟩
      -- Both lines are born at this call, or one of them, or both behind it.
      rcases List.mem_append.mp member with first | behind <;> rcases List.mem_append.mp member' with first' | behind'
      · obtain ⟨line, -, same⟩ := List.mem_map.mp first
        obtain ⟨line', -, same'⟩ := List.mem_map.mp first'
        cases same
        cases same'
        exact iff_of_true rfl rfl
      · obtain ⟨line, -, same⟩ := List.mem_map.mp first
        cases same
        obtain ⟨place', number⟩ := later new' behind'
        refine iff_of_false (fun same => ?_) (fun same => ?_)
        · rw [← same] at place'
          exact Nat.lt_irrefl _ place'
        · rw [← same] at number
          exact Nat.lt_irrefl _ number
      · obtain ⟨line', -, same'⟩ := List.mem_map.mp first'
        cases same'
        obtain ⟨place', number⟩ := later new behind
        refine iff_of_false (fun same => ?_) (fun same => ?_)
        · rw [same] at place'
          exact Nat.lt_irrefl _ place'
        · rw [same] at number
          exact Nat.lt_irrefl _ number
      · exact ih behind behind' (rest b new) (rest b' new')
    · next none =>
      rw [none] at member'
      have behind {b : Birth} (new : .made b ∉ t :: ts) (member : .made b ∈ t :: (tracePass U macros pass (place + 1) n ts).2) :
          .made b ∈ (tracePass U macros pass (place + 1) n ts).2 := by
        rcases List.mem_cons.mp member with same | later
        · exact absurd (same ▸ List.mem_cons_self) new
        · exact later
      exact ih (behind new member) (behind new' member') (rest b new) (rest b' new')

theorem Numbered.step {j n : Nat} {ts : List (Traced U)} (numbered : Numbered j n ts) :
    Numbered (j + 1) (tracePass U macros j 0 n ts).1 (tracePass U macros j 0 n ts).2 := by
  obtain ⟨more, below⟩ := @tracePass_count U macros j 0 n ts
  -- A call of this pass and one of an earlier pass.
  have apart {b b' : Birth} (new : .made b ∉ ts) (member : .made b ∈ (tracePass U macros j 0 n ts).2) (old : .made b' ∈ ts) :
      b.inst ≠ b'.inst ∧ b.number ≠ b'.number := by
    rcases mem_tracePass member with inside | ⟨⟨same, -, number⟩, -⟩
    · exact absurd inside new
    · obtain ⟨pass, number'⟩ := numbered.before old
      refine ⟨fun equal => ?_, by omega⟩
      rw [equal] at same
      omega
  constructor
  · intro b member
    by_cases old : .made b ∈ ts
    · obtain ⟨pass, number⟩ := numbered.before old
      exact ⟨by omega, by omega⟩
    · rcases mem_tracePass member with inside | ⟨⟨same, -, -⟩, -⟩
      · exact absurd inside old
      · exact ⟨by omega, (below b member).resolve_left old⟩
  · intro b b' member member'
    by_cases old : .made b ∈ ts <;> by_cases old' : .made b' ∈ ts
    · exact numbered.one old old'
    · obtain ⟨inst, number⟩ := apart old' member' old
      exact iff_of_false inst.symm number.symm
    · obtain ⟨inst, number⟩ := apart old member old'
      exact iff_of_false inst number
    · exact tracePass_one member member' old old'

theorem traceAfter_numbered (lines : List Text) (j : Nat) :
    Numbered j (traceAfter U macros lines j).1 (traceAfter U macros lines j).2 := by
  induction j with
  | zero =>
    have none (b : Birth) : .made b ∉ (traceAfter U macros lines 0).2 := by
      intro member
      obtain ⟨line, -, same⟩ := List.mem_map.mp member
      cases same
    exact ⟨fun member => absurd member (none _), fun member => absurd member (none _)⟩
  | succ j ih => exact ih.step

/-- Every line that was made is a line of the body of its macro. -/
theorem traceAfter_body {lines : List Text} {j : Nat} {b : Birth} (member : .made b ∈ (traceAfter U macros lines j).2) :
    macros.get? b.call.name = some b.call.target ∧ b.line ∈ b.call.target.body := by
  induction j with
  | zero =>
    obtain ⟨line, -, same⟩ := List.mem_map.mp member
    cases same
  | succ j ih =>
    rcases mem_tracePass member with old | ⟨-, body⟩
    · exact ih old
    · exact body

/-! ### The text that comes out -/

theorem expandPasses_ok {k n : Nat} {lines out : List Text} (ok : expandPasses U filename macros k n lines = .ok out) :
    ∃ j ≤ k, Expansion.Normal (rule U macros) (after (rule U macros) j (n, lines)).2 ∧
      out = (after (rule U macros) j (n, lines)).2 := by
  induction k generalizing n lines with
  | zero => cases ok
  | succ k ih =>
    have enough : ∀ line ∈ lines, ∀ call, invocation U macros line = some call → ¬ call.Short := by
      intro line member call found short
      obtain ⟨lineNo, line', call', vals, -, -, -, raised⟩ :=
        @expandOnePass_short U filename macros lines 1 n line call member found short
      rw [expandPasses, raised] at ok
      cases ok
    rw [expandPasses, expandOnePass_eq 1 n enough, ok_bind] at ok
    by_cases normal : Expansion.Normal (rule U macros) lines
    · simp only [normal, decide_true, Bool.not_true, Bool.false_eq_true, if_false, Expansion.pass_normal normal] at ok
      cases ok
      exact ⟨0, Nat.zero_le _, normal, rfl⟩
    · simp only [normal, decide_false, Bool.not_false, if_true] at ok
      obtain ⟨j, small, done⟩ := ih ok
      exact ⟨j + 1, Nat.succ_le_succ small, done⟩

/-- The text that is returned, and what is known of its lines. -/
theorem expandMacros_trace {src out : Text} (ok : expandMacros U filename src = .ok out) :
    ∃ macros lines, parseDefs U filename 1 none [] (splitLines src) = .ok (macros, lines) ∧
      out = ((traceAfter U macros lines MAX_PASSES).2.map Traced.text).flatten := by
  obtain ⟨⟨macros, lines⟩, parsed, ok⟩ := bind_eq_ok.mp ok
  obtain ⟨texts, passes, ok⟩ := bind_eq_ok.mp ok
  cases ok
  obtain ⟨j, small, normal, rfl⟩ := expandPasses_ok passes
  refine ⟨macros, lines, parsed, ?_⟩
  rw [(traceAfter_text lines MAX_PASSES).2, Expansion.after_of_normal normal small]

end Aclm.Macros
