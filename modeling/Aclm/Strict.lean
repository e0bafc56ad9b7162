import Aclm.Regs
import Aclm.Text
import Mathlib.Data.List.DropRight
import Mathlib.Data.List.Infix

/-! `analyze_source`: what the strict mode finds in a text, line by line. -/

set_option autoImplicit false

namespace Aclm

/-- `str.lower`; what it makes of letters outside ASCII depends on the version of the tables. -/
structure Casing where
  lower : Text → Text
  ascii_lower : ∀ s : Text, (∀ c ∈ s, c.toNat < 128) → lower s = s.map Char.toLower

/-- The tables of a Python that knows of ASCII only. -/
def Casing.ascii : Casing where
  lower := List.map Char.toLower
  ascii_lower _ _ := rfl

namespace Text

/-- `s.splitlines()` -/
def lines (s : Text) : List Text := (splitLines s).map fun line => line.rdropWhile lineBreak

/-- `line.split("#")[0]` -/
def beforeHash (line : Text) : Text := line.takeWhile (· ≠ '#')

end Text

namespace Strict

open Text

/-- The primary virtual name of a physical register, in the table of the analysis. -/
def PHYS_TO_VIRT : Dict String :=
  [("rax", "reg1"), ("rbx", "reg2"), ("rcx", "reg3"), ("rdx", "reg4"),
   ("rsi", "reg5"), ("rdi", "reg6"),
   ("r8", "reg7"), ("r9", "reg8"), ("r10", "reg9"), ("r11", "reg10"),
   ("r12", "reg11"), ("r13", "reg12"), ("r14", "reg13")]

inductive Severity where
  | error | warning | note
  deriving DecidableEq, Repr

structure Finding where
  severity : Severity
  message : String
  deriving DecidableEq, Repr

variable (U : CharClasses) (C : Casing)

/-- `_word`, in front of a text; `inside` tells that the character before it belongs to a word. -/
def wordFrom (word' : Text) : Bool → Text → Bool
  | _, [] => false
  | inside, c :: s =>
    (!inside && word'.isPrefixOf (c :: s) && !((c :: s).drop word'.length).head?.any (word U)) ||
      wordFrom word' (word U c) s

/-- `_word` -/
def hasWord (text : Text) (word' : String) : Bool := wordFrom U word'.toList false text

def atLine (i : Nat) (text : String) : String := s!"line {i}: {text}"

def shiftCount : String :=
  "shld/shrd — reg3/rcx is the shift-count register; do not use it as a data operand (use reg2/reg11/…)"

/-- The substring test `sub in low`. -/
def within (sub : String) (low : Text) : Bool := sub.toList <:+: low

/-- What a line is reported for, without its comment and in lower case. -/
def lineFindings (low : Text) (i : Nat) : List Finding :=
  let word := hasWord U low
  (if (within "cpu:shld" low || within "cpu:shrd" low) && (word "reg3" || word "rcx" || word "ecx") then
    [⟨.error, atLine i shiftCount⟩] else []) ++
  (if within "cpu:cmpxchg" low && (word "reg1" || word "rax" || word "eax") then
    [⟨.warning, atLine i "cmpxchg — RAX/reg1 is the implicit compare target"⟩] else []) ++
  (if (within "cpu:mulu" low || within "cpu:divu" low) &&
      (word "reg1" || word "reg4" || word "rax" || word "rdx") then
    [⟨.warning, atLine i "mulu/divu — destroys RDX:RAX (reg4:reg1); save first if needed"⟩] else []) ++
  (if within "cpu:mulx" low && (word "reg4" || word "rdx") then
    [⟨.warning, atLine i "mulx — RDX is implicit source; avoid clobber patterns"⟩] else []) ++
  (if within "thread:join_all" low then
    [⟨.note, atLine i "thread:join_all waits on spawn/done counters — not waitid(tid)"⟩] else [])

/-- The lines as they are looked at; a line with nothing in it is passed over. -/
def lows (src : Text) : List Text := (lines src).map fun line => rstrip (lstrip (C.lower (beforeHash line)))

def usedVirtual (lows : List Text) : List String := VIRTUAL.keys.filter fun v => lows.any (hasWord U · v)

def usedPhys (lows : List Text) : List String := PHYS_TO_VIRT.keys.filter fun p => lows.any (hasWord U · p)

def dualNaming (phys virt : String) : Finding :=
  ⟨.warning, s!"file uses both '{virt}' and '{phys}' (identical physical register)"⟩

def dualNamings (lows : List Text) : List Finding :=
  (PHYS_TO_VIRT.filter fun entry => entry.1 ∈ usedPhys U lows ∧ entry.2 ∈ usedVirtual U lows).map fun entry =>
    dualNaming entry.1 entry.2

/-- `sys:\s*(call|raw)` with `re.I`, at the front of a text; a long s matches as well. -/
def syscallAt (s : Text) : Bool :=
  let letter (expected c : Char) : Bool := c.toLower = expected || (expected = 's' && c.toNat = 0x17F)
  let begun (pattern : String) (s : Text) : Bool :=
    pattern.length ≤ s.length && (pattern.toList.zip s).all fun (expected, c) => letter expected c
  begun "sys:" s && (begun "call" (lstrip (s.drop 4)) || begun "raw" (lstrip (s.drop 4)))

def syscallNote : Finding :=
  ⟨.note, "syscalls use Linux x86-64 ABI: rax=nr, args rdi rsi rdx r10 r8 r9 " ++
    "(reg1/reg6/reg5/reg4/reg9/reg7/reg8 — see docs/CONTRACT.md)"⟩

/-- A message is kept where it stands first. -/
def dedupe : List Finding → List Finding → List Finding
  | _, [] => []
  | seen, f :: rest => if f ∈ seen then dedupe seen rest else f :: dedupe (f :: seen) rest

/-- `analyze_source` -/
def analyzeSource (src : Text) : List Finding :=
  let lows := lows C src
  dedupe [] <|
    (lows.zipIdx 1).flatMap (fun (low, i) => if low = [] then [] else lineFindings U low i) ++
    dualNamings U lows ++
    (if src.tails.any syscallAt then [syscallNote] else [])

/-- `has_errors` -/
def hasErrors (ws : List Finding) : Bool := ws.any (·.severity = .error)

/-! ### Words and substrings of a line -/

/-- A word of a text, with no letter, digit or underscore on either side. -/
def IsWord (word' text : Text) : Prop :=
  ∃ before after, text = before ++ word' ++ after ∧
    (∀ c ∈ before.getLast?, word U c = false) ∧ ∀ c ∈ after.head?, word U c = false

theorem mem_dedupe {f : Finding} (seen fs : List Finding) : f ∈ dedupe seen fs ↔ f ∈ fs ∧ f ∉ seen := by
  induction fs generalizing seen with
  | nil => simp [dedupe]
  | cons g rest ih =>
    unfold dedupe
    split
    · next known =>
      rw [ih, List.mem_cons]
      constructor
      · exact fun ⟨member, fresh⟩ => ⟨.inr member, fresh⟩
      · rintro ⟨rfl | member, fresh⟩
        · exact absurd known fresh
        · exact ⟨member, fresh⟩
    · next unknown =>
      rw [List.mem_cons, ih, List.mem_cons, List.mem_cons]
      constructor
      · rintro (rfl | ⟨member, fresh⟩)
        · exact ⟨.inl rfl, unknown⟩
        · exact ⟨.inr member, fun old => fresh (.inr old)⟩
      · rintro ⟨rfl | member, fresh⟩
        · exact .inl rfl
        · by_cases same : f = g
          · exact .inl same
          · exact .inr ⟨member, fun old => old.elim same fresh⟩

theorem wordFrom_iff {word' : Text} (some : word' ≠ []) (inside : Bool) (text : Text) :
    wordFrom U word' inside text = true ↔
      ∃ before after, text = before ++ word' ++ after ∧ (before = [] → inside = false) ∧
        (∀ c ∈ before.getLast?, word U c = false) ∧ ∀ c ∈ after.head?, word U c = false := by
  induction text generalizing inside with
  | nil => simp [wordFrom, some]
  | cons c s ih =>
    have behind (after : Text) : (!after.head?.any (word U)) = true ↔ ∀ d ∈ after.head?, word U d = false := by
      cases after <;> simp
    simp only [wordFrom, Bool.or_eq_true, Bool.and_eq_true, Bool.not_eq_true', List.isPrefixOf_iff_prefix, ih]
    constructor
    · rintro (⟨⟨start, after, same⟩, apart⟩ | ⟨before, after, rfl, start, left, right⟩)
      · refine ⟨[], after, by simp [← same], fun _ => start, by simp, (behind after).mp ?_⟩
        simpa [← same] using apart
      · refine ⟨c :: before, after, rfl, by simp, ?_, right⟩
        cases before with
        | nil => simpa using start rfl
        | cons d before => simpa [List.getLast?_cons_cons] using left
    · rintro ⟨before, after, same, start, left, right⟩
      cases before with
      | nil =>
        refine .inl ⟨⟨start rfl, after, by simpa using same.symm⟩, ?_⟩
        simpa [same] using (behind after).mpr right
      | cons d before =>
        obtain ⟨rfl, rest⟩ := List.cons.inj same
        refine .inr ⟨before, after, rest, fun nothing => ?_, fun e member => left e ?_, right⟩
        · subst nothing
          exact left c (by simp)
        · cases before with
          | nil => cases member
          | cons f before => simpa [List.getLast?_cons_cons] using member

theorem hasWord_iff {word' : String} (some : word'.toList ≠ []) (text : Text) :
    hasWord U text word' = true ↔ IsWord U word'.toList text := by
  rw [hasWord, wordFrom_iff U some]
  simp [IsWord]

/-- Blanks at the front of a text are not part of a piece that has none. -/
theorem lstrip_around {piece : Text} (solid : ∀ c ∈ piece, isSpace c = false) (some : piece ≠ []) (before after : Text) :
    lstrip (before ++ piece ++ after) = before.dropWhile isSpace ++ piece ++ after := by
  obtain ⟨c, rest, rfl⟩ := List.exists_cons_of_ne_nil some
  have head := solid c List.mem_cons_self
  rw [lstrip, List.append_assoc, List.dropWhile_append]
  split
  · next blank => simp [List.isEmpty_iff.mp blank, head]
  · simp

/-- Blanks around a text hide none of its words. -/
theorem isWord_lstrip {word' : Text} (solid : ∀ c ∈ word', isSpace c = false) (some : word' ≠ []) (text : Text) :
    IsWord U word' (lstrip text) ↔ IsWord U word' text := by
  constructor
  · rintro ⟨before, after, same, left, right⟩
    have whole := List.takeWhile_append_dropWhile (p := isSpace) (l := text)
    refine ⟨text.takeWhile isSpace ++ before, after, ?_, fun c member => ?_, right⟩
    · conv_lhs => rw [← whole, show text.dropWhile isSpace = _ from same]
      simp [List.append_assoc]
    · cases before with
      | nil =>
        rw [List.append_nil] at member
        have space : isSpace c = true := List.all_eq_true.mp List.all_takeWhile c (List.mem_of_getLast? member)
        have other : c ≠ '_' := by
          rintro rfl
          cases space
        simp [word, U.space_alnum c space, other]
      | cons d before => exact left c (by simpa [List.getLast?_append] using member)
  · rintro ⟨before, after, rfl, left, right⟩
    refine ⟨before.dropWhile isSpace, after, lstrip_around solid some before after, fun c member => left c ?_, right⟩
    have whole := List.takeWhile_append_dropWhile (p := isSpace) (l := before)
    rw [← whole, List.getLast?_append, member]
    rfl

theorem isWord_reverse (word' text : Text) : IsWord U word'.reverse text.reverse ↔ IsWord U word' text := by
  constructor
  · rintro ⟨before, after, same, left, right⟩
    refine ⟨after.reverse, before.reverse, ?_, by simpa using right, by simpa using left⟩
    rw [← List.reverse_reverse text, same]
    simp
  · rintro ⟨before, after, rfl, left, right⟩
    exact ⟨after.reverse, before.reverse, by simp, by simpa using right, by simpa using left⟩

theorem isWord_strip {word' : Text} (solid : ∀ c ∈ word', isSpace c = false) (some : word' ≠ []) (text : Text) :
    IsWord U word' (rstrip (lstrip text)) ↔ IsWord U word' text := by
  have back := isWord_lstrip U (show ∀ c ∈ word'.reverse, isSpace c = false by simpa using solid)
    (by simpa using some) (lstrip text).reverse
  rw [isWord_reverse, isWord_lstrip U solid some] at back
  rw [← back, ← isWord_reverse, rstrip, List.reverse_reverse]
  rfl

theorem mem_analyzeSource (f : Finding) (src : Text) :
    f ∈ analyzeSource U C src ↔
      (∃ low i, (low, i) ∈ (lows C src).zipIdx 1 ∧ low ≠ [] ∧ f ∈ lineFindings U low i) ∨
        f ∈ dualNamings U (lows C src) ∨ (src.tails.any syscallAt = true ∧ f = syscallNote) := by
  simp only [analyzeSource, mem_dedupe, List.not_mem_nil, not_false_eq_true, and_true, List.mem_append, or_assoc]
  refine or_congr ?_ (or_congr Iff.rfl ?_)
  · simp only [List.mem_flatMap, Prod.exists]
    refine exists_congr fun low => exists_congr fun i => and_congr_right fun _ => ?_
    by_cases empty : low = [] <;> simp [empty]
  · split <;> simp [*]

end Strict

end Aclm
