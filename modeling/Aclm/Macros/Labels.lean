import Aclm.Compiler
import Aclm.Lexer.Numerals
import Aclm.Lexer.Pieces
import Mathlib.Data.List.TakeWhile

/-! The local labels of a text: what `re.sub` over them replaces. -/

set_option autoImplicit false

namespace Aclm.Text

variable (U : CharClasses)

/-- A text is cut into its local labels and the characters between them. -/
inductive Cut where
  | char (c : Char)
  | label (name : String)
  deriving DecidableEq

def Cut.text : Cut → Text
  | .char c => [c]
  | .label name => '~' :: '@' :: name.toList

/-- The text that has been cut. -/
def uncut (cs : List Cut) : Text := cs.flatMap Cut.text

def cutFrom : Nat → Text → List Cut
  | _, [] => []
  | k + 1, _ :: s => cutFrom k s
  | 0, c :: s => match localLabel U (c :: s) with
    | some name => .label name :: cutFrom (name.length + 1) s
    | none => .char c :: cutFrom 0 s

def cut (s : Text) : List Cut := cutFrom U 0 s

/-- What is left of the labels and what is kept, piece by piece. -/
def subCuts {σ : Type} (f : σ → String → Text × σ) : σ → List Cut → Text
  | _, [] => []
  | state, .char c :: cs => c :: subCuts f state cs
  | state, .label name :: cs => (f state name).1 ++ subCuts f (f state name).2 cs

/-- What is kept after these pieces. -/
def keptAfter {σ : Type} (f : σ → String → Text × σ) : σ → List Cut → σ
  | state, [] => state
  | state, .char _ :: cs => keptAfter f state cs
  | state, .label name :: cs => keptAfter f (f state name).2 cs

variable {U}

theorem subLabels_eq {σ : Type} (f : σ → String → Text × σ) (state : σ) (s : Text) :
    subLabels U f state s = subCuts f state (cut U s) := by
  have all (k : Nat) (s : Text) (state : σ) : subLabelsFrom U f state k s = subCuts f state (cutFrom U k s) := by
    induction k, s using cutFrom.induct U generalizing state with
    | case1 k => rfl
    | case2 k c s ih => exact ih state
    | case3 c s name found ih =>
      rw [subLabelsFrom, cutFrom, found]
      exact congrArg _ (ih _)
    | case4 c s none ih =>
      rw [subLabelsFrom, cutFrom, none]
      exact congrArg _ (ih _)
  exact all 0 s state

theorem uncut_append (cs ds : List Cut) : uncut (cs ++ ds) = uncut cs ++ uncut ds := List.flatMap_append

theorem subCuts_append {σ : Type} (f : σ → String → Text × σ) (state : σ) (cs ds : List Cut) :
    subCuts f state (cs ++ ds) = subCuts f state cs ++ subCuts f (keptAfter f state cs) ds := by
  induction cs generalizing state with
  | nil => rfl
  | cons c cs ih => cases c with
    | char c => exact congrArg _ (ih state)
    | label name =>
      rw [List.cons_append, subCuts, subCuts, ih, List.append_assoc]
      rfl

theorem keptAfter_append {σ : Type} (f : σ → String → Text × σ) (state : σ) (cs ds : List Cut) :
    keptAfter f state (cs ++ ds) = keptAfter f (keptAfter f state cs) ds := by
  induction cs generalizing state with
  | nil => rfl
  | cons c cs ih => cases c <;> exact ih _

/-! ### Cutting a text at its labels -/

/-- An identifier and nothing else. -/
def IsIdent (U : CharClasses) (name : String) : Prop := ident U name.toList = some (name, [])

def startsWord (U : CharClasses) (s : Text) : Prop := ∃ c, s.head? = some c ∧ word U c = true

/-- The pieces are what the text is cut into. -/
def Fits (U : CharClasses) : List Cut → Prop
  | [] => True
  | .char c :: cs => localLabel U (c :: uncut cs) = none ∧ Fits U cs
  | .label name :: cs => IsIdent U name ∧ ¬ startsWord U (uncut cs) ∧ Fits U cs

theorem takeWhile_word {s t : Text} (all : ∀ c ∈ s, word U c = true) (ends : ¬ startsWord U t) :
    (s ++ t).takeWhile (word U) = s ∧ (s ++ t).dropWhile (word U) = t := by
  induction s with
  | nil => cases t with
    | nil => exact ⟨rfl, rfl⟩
    | cons c t =>
      have other : word U c ≠ true := fun inside => ends ⟨c, rfl, inside⟩
      rw [List.nil_append, List.takeWhile_cons_of_neg other, List.dropWhile_cons_of_neg other]
      exact ⟨rfl, rfl⟩
  | cons c s ih =>
    have here := all c List.mem_cons_self
    obtain ⟨taken, left⟩ := ih fun d member => all d (List.mem_cons_of_mem _ member)
    rw [List.cons_append, List.takeWhile_cons_of_pos here, List.dropWhile_cons_of_pos here, taken, left]
    exact ⟨rfl, rfl⟩

theorem identStart_word {c : Char} (start : identStart c = true) : word U c = true := by
  have range := Lexer.identStart_range start
  have ascii : c.toNat < 128 := by omega
  rw [word_ascii U ascii, Char.isAlphanum]
  rcases Bool.or_eq_true_iff.mp start with alpha | underscore
  · simp [alpha]
  · simp [underscore]

theorem ident_found {s rest : Text} {name : String} (found : ident U s = some (name, rest)) :
    s = name.toList ++ rest ∧ IsIdent U name ∧ ¬ startsWord U rest := by
  cases s with
  | nil => cases found
  | cons c s =>
    rw [ident] at found
    split at found
    · next start =>
      cases found
      have ends : ¬ startsWord U (s.dropWhile (word U)) := by
        rintro ⟨d, first, inside⟩
        have other := List.head?_dropWhile_not (word U) s
        rw [first] at other
        simp only [inside] at other
        cases other
      have all : ∀ d ∈ s.takeWhile (word U), word U d = true := fun d => List.mem_takeWhile_imp
      refine ⟨?_, ?_, ends⟩
      · rw [String.toList_ofList, List.cons_append, List.takeWhile_append_dropWhile]
      · obtain ⟨taken, left⟩ := takeWhile_word (t := []) all (fun ⟨d, first, _⟩ => by cases first)
        rw [List.append_nil] at taken left
        rw [IsIdent, String.toList_ofList, ident, if_pos start, taken, left]
    · cases found

theorem IsIdent.word {name : String} (identifier : IsIdent U name) :
    ∃ c s, name.toList = c :: s ∧ identStart c = true ∧ ∀ d ∈ c :: s, Text.word U d = true := by
  rw [IsIdent] at identifier
  cases shape : name.toList with
  | nil =>
    rw [shape] at identifier
    cases identifier
  | cons c s =>
    rw [shape, ident] at identifier
    split at identifier
    · next start =>
      have rest : ∀ d ∈ s, Text.word U d = true := List.dropWhile_eq_nil_iff.mp (Prod.mk.inj (Option.some.inj identifier)).2
      exact ⟨c, s, rfl, start, List.forall_mem_cons.mpr ⟨identStart_word start, rest⟩⟩
    · cases identifier

theorem ident_append {name : String} {t : Text} (identifier : IsIdent U name) (ends : ¬ startsWord U t) :
    ident U (name.toList ++ t) = some (name, t) := by
  obtain ⟨c, s, shape, start, all⟩ := identifier.word
  obtain ⟨taken, rest⟩ := takeWhile_word (fun d member => all d (List.mem_cons_of_mem c member)) ends
  rw [shape, List.cons_append, ident, if_pos start, taken, rest, ← shape, String.ofList_toList]

theorem localLabel_found {s : Text} {name : String} (found : localLabel U s = some name) :
    ∃ rest, s = '~' :: '@' :: name.toList ++ rest ∧ IsIdent U name ∧ ¬ startsWord U rest := by
  unfold localLabel at found
  split at found
  · next s =>
    obtain ⟨⟨_, rest⟩, inner, rfl⟩ := Option.map_eq_some_iff.mp found
    obtain ⟨rfl, identifier, ends⟩ := ident_found inner
    exact ⟨rest, rfl, identifier, ends⟩
  · cases found

theorem localLabel_append {name : String} {t : Text} (identifier : IsIdent U name) (ends : ¬ startsWord U t) :
    localLabel U ('~' :: '@' :: name.toList ++ t) = some name := by
  rw [List.cons_append, List.cons_append, localLabel, ident_append identifier ends]
  rfl

theorem cutFrom_skip (s t : Text) : cutFrom U s.length (s ++ t) = cutFrom U 0 t := by
  induction s with
  | nil => rfl
  | cons c s ih => exact ih

theorem cutFrom_label {name : String} {t : Text} (identifier : IsIdent U name) (ends : ¬ startsWord U t) :
    cutFrom U 0 ('~' :: '@' :: name.toList ++ t) = .label name :: cutFrom U 0 t := by
  have found := localLabel_append identifier ends
  rw [List.cons_append] at found ⊢
  rw [cutFrom, found]
  exact congrArg _ (cutFrom_skip ('@' :: name.toList) t)

theorem uncut_cutFrom (k : Nat) (s : Text) : uncut (cutFrom U k s) = s.drop k ∧ Fits U (cutFrom U k s) := by
  induction k, s using cutFrom.induct U with
  | case1 k => exact ⟨List.drop_nil.symm, trivial⟩
  | case2 k c s ih => exact ih
  | case3 c s name found ih =>
    rw [cutFrom, found]
    obtain ⟨rest, shape, identifier, ends⟩ := localLabel_found found
    obtain ⟨rfl, rfl⟩ := List.cons.inj shape
    have behind : ('@' :: name.toList ++ rest).drop (name.length + 1) = rest :=
      List.drop_left' (by rw [List.length_cons, String.length_toList])
    obtain ⟨same, fits⟩ := ih
    have same := same.trans behind
    refine ⟨?_, identifier, by rwa [same], fits⟩
    change '~' :: '@' :: name.toList ++ uncut _ = _
    rw [same]
    rfl
  | case4 c s none ih =>
    rw [cutFrom, none]
    obtain ⟨same, fits⟩ := ih
    rw [List.drop_zero] at same
    exact ⟨congrArg (c :: ·) same, by rwa [same], fits⟩

theorem uncut_cut (s : Text) : uncut (cut U s) = s := (uncut_cutFrom 0 s).1

theorem fits_cut (s : Text) : Fits U (cut U s) := (uncut_cutFrom 0 s).2

theorem cut_uncut {cs : List Cut} (fits : Fits U cs) : cut U (uncut cs) = cs := by
  induction cs with
  | nil => rfl
  | cons c cs ih => cases c with
    | char c =>
      obtain ⟨none, fits⟩ := fits
      change cutFrom U 0 (c :: uncut cs) = _
      rw [cutFrom, none]
      exact congrArg _ (ih fits)
    | label name =>
      obtain ⟨identifier, ends, fits⟩ := fits
      exact (cutFrom_label identifier ends).trans (congrArg _ (ih fits))

/-- Whether a label begins here can be seen from the next two characters. -/
theorem localLabel_take {c : Char} {s t : Text} (same : s.take 2 = t.take 2) (no : localLabel U (c :: s) = none) :
    localLabel U (c :: t) = none := by
  cases found : localLabel U (c :: t) with
  | none => rfl
  | some name =>
    obtain ⟨rest, shape, identifier, ends⟩ := localLabel_found found
    obtain ⟨rfl, rfl⟩ := List.cons.inj shape
    obtain ⟨d, ds, letters, start, -⟩ := identifier.word
    rw [letters] at same
    obtain ⟨s, rfl⟩ : ∃ s', s = '@' :: d :: s' := by
      rcases s with _ | ⟨x, _ | ⟨y, s⟩⟩
      · cases same
      · cases same
      · obtain ⟨rfl, rfl⟩ : x = '@' ∧ y = d := by simpa using same
        exact ⟨s, rfl⟩
    rw [localLabel, ident, if_pos start] at no
    cases no

theorem not_startsWord_append {s t : Text} {c : Char} (ends : ¬ startsWord U s) (apart : word U c = false) :
    ¬ startsWord U (s ++ c :: t) := by
  rintro ⟨d, first, inside⟩
  cases s with
  | nil =>
    cases first
    rw [apart] at inside
    cases inside
  | cons x s => exact ends ⟨d, first, inside⟩

/-- A character that is part of no label ends the text as its end does. -/
theorem cutFrom_append {c : Char} (apart : word U c = false) (other : c ≠ '@') (t : Text) (k : Nat) (s : Text)
    (inside : k ≤ s.length) : cutFrom U k (s ++ c :: t) = cutFrom U k s ++ cutFrom U 0 (c :: t) := by
  induction k, s using cutFrom.induct U with
  | case1 k =>
    obtain rfl : k = 0 := Nat.le_zero.mp inside
    rfl
  | case2 k x s ih => exact ih (Nat.le_of_succ_le_succ inside)
  -- A label of the front stays one: what follows it does not go on with its name.
  | case3 x s name found ih =>
    obtain ⟨rest, shape, identifier, ends⟩ := localLabel_found found
    have longer : localLabel U (x :: (s ++ c :: t)) = some name := by
      have same : x :: (s ++ c :: t) = '~' :: '@' :: name.toList ++ (rest ++ c :: t) := by
        rw [← List.append_assoc, ← shape, List.cons_append]
      rw [same]
      exact localLabel_append identifier (not_startsWord_append ends apart)
    have room : name.length + 1 ≤ s.length := by
      have length := congrArg List.length shape
      simp only [List.length_cons, List.length_append, String.length_toList] at length
      omega
    rw [List.cons_append, cutFrom, longer, cutFrom, found]
    exact congrArg (Cut.label name :: ·) (ih room)
  | case4 x s no ih =>
    have longer : localLabel U (x :: (s ++ c :: t)) = none := by
      -- Only the last two characters of the front look across the seam.
      rcases s with _ | ⟨y, _ | ⟨z, s⟩⟩
      · cases found : localLabel U (x :: c :: t) with
        | none => exact found
        | some name =>
          obtain ⟨rest, shape, -, -⟩ := localLabel_found found
          exact absurd (List.cons.inj (List.cons.inj shape).2).1 other
      · cases found : localLabel U (x :: y :: c :: t) with
        | none => exact found
        | some name =>
          obtain ⟨rest, shape, identifier, -⟩ := localLabel_found found
          have behind : c :: t = name.toList ++ rest := (List.cons.inj (List.cons.inj shape).2).2
          obtain ⟨d, ds, letters, start, -⟩ := identifier.word
          rw [letters] at behind
          rw [← (List.cons.inj behind).1] at start
          rw [identStart_word start] at apart
          cases apart
      · have same : (y :: z :: s).take 2 = (y :: z :: s ++ c :: t).take 2 := rfl
        exact localLabel_take same no
    rw [List.cons_append, cutFrom, longer, cutFrom, no]
    exact congrArg (Cut.char x :: ·) (ih (Nat.zero_le _))

theorem tilde_plain : word U '~' = false := word_ascii U (by decide)

/-- A label among other text is cut out of it. -/
theorem cut_label {name : String} (identifier : IsIdent U name) (s : Text) {t : Text} (ends : ¬ startsWord U t) :
    cut U (s ++ ('~' :: '@' :: name.toList ++ t)) = cut U s ++ .label name :: cut U t := by
  have parted := cutFrom_append (U := U) tilde_plain (by decide) ('@' :: name.toList ++ t) 0 s (Nat.zero_le _)
  rw [cut, List.cons_append, parted]
  exact congrArg (cut U s ++ ·) (cutFrom_label identifier ends)

/-! ### Other names -/

def relabel (g : String → String) : Cut → Cut
  | .char c => .char c
  | .label name => .label (g name)

theorem uncut_relabel_take (g : String → String) (cs : List Cut) :
    (uncut (cs.map (relabel g))).take 2 = (uncut cs).take 2 := by
  cases cs with
  | nil => rfl
  | cons c cs => cases c with
    | label name => rfl
    | char c => cases cs with
      | nil => rfl
      | cons d cs => cases d <;> rfl

theorem uncut_relabel_head (g : String → String) (cs : List Cut) :
    (uncut (cs.map (relabel g))).head? = (uncut cs).head? := by
  have heads := congrArg List.head? (uncut_relabel_take g cs)
  rwa [List.head?_take, List.head?_take, if_neg (by decide), if_neg (by decide)] at heads

theorem Fits.relabel {g : String → String} (names : ∀ name, IsIdent U name → IsIdent U (g name)) {cs : List Cut}
    (fits : Fits U cs) : Fits U (cs.map (relabel g)) := by
  induction cs with
  | nil => trivial
  | cons c cs ih =>
    have same := uncut_relabel_take g cs
    cases c with
    | char c => exact ⟨localLabel_take same.symm fits.1, ih fits.2⟩
    | label name =>
      obtain ⟨identifier, ends, fits⟩ := fits
      refine ⟨names name identifier, ?_, ih fits⟩
      rintro ⟨d, first, inside⟩
      refine ends ⟨d, ?_, inside⟩
      rw [← uncut_relabel_head g]
      exact first

theorem isIdent_append {name : String} {s : Text} (identifier : IsIdent U name) (all : ∀ c ∈ s, word U c = true) :
    IsIdent U (name ++ .ofList s) := by
  obtain ⟨c, cs, shape, start, front⟩ := identifier.word
  have whole : ∀ d ∈ cs ++ s, word U d = true :=
    fun d member => (List.mem_append.mp member).elim (fun inside => front d (List.mem_cons_of_mem c inside)) (all d)
  obtain ⟨taken, rest⟩ := takeWhile_word (t := []) whole (fun ⟨d, first, _⟩ => by cases first)
  rw [List.append_nil] at taken rest
  rw [IsIdent, String.toList_append, String.toList_ofList, shape, List.cons_append, ident, if_pos start, taken, rest,
    ← List.cons_append, ← shape, String.ofList_append, String.ofList_toList]

end Aclm.Text

namespace Aclm.Macros

open Text

variable {U : CharClasses}

/-- The name of a local label in a call with this number. -/
def numbered (n : Nat) (name : String) : String := s!"{name}__m{n}"

theorem numbered_toList (n : Nat) (name : String) :
    (numbered n name).toList = name.toList ++ '_' :: '_' :: 'm' :: Nat.toDigits 10 n := by
  change ((name ++ "__m") ++ Nat.repr n).toList = _
  rw [String.toList_append, String.toList_append, Nat.toList_repr, List.append_assoc]
  rfl

theorem digit_word {c : Char} (digit : c.isDigit = true) : word U c = true := by
  obtain ⟨lower, upper⟩ := isDigit_toNat digit
  rw [word_ascii U (by omega), Char.isAlphanum, digit, Bool.or_true, Bool.true_or]

theorem isIdent_numbered (n : Nat) {name : String} (identifier : IsIdent U name) : IsIdent U (numbered n name) := by
  have shape : numbered n name = name ++ .ofList ('_' :: '_' :: 'm' :: Nat.toDigits 10 n) := by
    rw [← String.toList_inj, numbered_toList, String.toList_append, String.toList_ofList]
  rw [shape]
  refine isIdent_append identifier fun c member => ?_
  rcases List.mem_cons.mp member with rfl | member
  · exact word_ascii U (by decide)
  rcases List.mem_cons.mp member with rfl | member
  · exact word_ascii U (by decide)
  rcases List.mem_cons.mp member with rfl | member
  · exact word_ascii U (by decide)
  · exact digit_word (toDigits_digits n c member)

/-- A text is parted in one way only at the last place of a character. -/
theorem append_last {c : Char} {s s' t t' : Text} (last : c ∉ t) (last' : c ∉ t') (same : s ++ c :: t = s' ++ c :: t') :
    s = s' ∧ t = t' := by
  rcases List.append_eq_append_iff.mp same with ⟨u, rfl, behind⟩ | ⟨u, rfl, behind⟩
  · cases u with
    | nil => exact ⟨(List.append_nil _).symm, (List.cons.inj behind).2⟩
    | cons d u =>
      rw [List.cons_append] at behind
      exact absurd ((List.cons.inj behind).2 ▸ List.mem_append_right u List.mem_cons_self) last
  · cases u with
    | nil => exact ⟨List.append_nil _, (List.cons.inj behind).2.symm⟩
    | cons d u =>
      rw [List.cons_append] at behind
      exact absurd ((List.cons.inj behind).2 ▸ List.mem_append_right u List.mem_cons_self) last'

theorem toDigits_injective {n n' : Nat} (same : Nat.toDigits 10 n = Nat.toDigits 10 n') : n = n' := by
  have value := congrArg (Nat.ofDigitChars 10 · 0) same
  simpa only [Nat.ofDigitChars_ten_toDigits] using value

theorem numbered_injective {n n' : Nat} {name name' : String} (same : numbered n name = numbered n' name') :
    n = n' ∧ name = name' := by
  have letters := congrArg String.toList same
  rw [numbered_toList, numbered_toList] at letters
  have plain (n : Nat) : 'm' ∉ Nat.toDigits 10 n := fun member => absurd (toDigits_digits n _ member) (by decide)
  have parted (name : String) (n : Nat) : name.toList ++ '_' :: '_' :: 'm' :: Nat.toDigits 10 n =
      (name.toList ++ ['_', '_']) ++ 'm' :: Nat.toDigits 10 n := by rw [List.append_assoc]; rfl
  rw [parted, parted] at letters
  obtain ⟨front, digits⟩ := append_last (plain n) (plain n') letters
  exact ⟨toDigits_injective digits, String.toList_inj.mp (List.append_cancel_right front)⟩

theorem numberLabels_eq (n : Nat) (line : Text) : numberLabels U n line = uncut ((cut U line).map (relabel (numbered n))) := by
  have spelled (cs : List Cut) : subCuts (fun (_ : Unit) name => (s!"~@{name}__m{n}".toList, ())) () cs =
      uncut (cs.map (relabel (numbered n))) := by
    induction cs with
    | nil => rfl
    | cons c cs ih => cases c with
      | char c => exact congrArg (c :: ·) ih
      | label name =>
        have text : s!"~@{name}__m{n}".toList = '~' :: '@' :: (numbered n name).toList := by
          change ((("~@" ++ name) ++ "__m") ++ Nat.repr n).toList = _
          rw [numbered_toList, String.toList_append, String.toList_append, String.toList_append, Nat.toList_repr]
          simp
        rw [subCuts, ih, text]
        rfl
  rw [numberLabels, subLabels_eq, spelled]

theorem numberLabels_head (n : Nat) (line : Text) : (numberLabels U n line).head? = line.head? := by
  rw [numberLabels_eq, uncut_relabel_head, uncut_cut]

theorem cut_numberLabels (n : Nat) (line : Text) : cut U (numberLabels U n line) = (cut U line).map (relabel (numbered n)) := by
  rw [numberLabels_eq]
  exact cut_uncut ((fits_cut line).relabel fun name => isIdent_numbered n)

/-- Nothing of the line is lost when its labels are numbered. -/
theorem numberLabels_injective {n : Nat} {line line' : Text} (same : numberLabels U n line = numberLabels U n line') :
    line = line' := by
  have pieces := congrArg (cut U) same
  rw [cut_numberLabels, cut_numberLabels] at pieces
  have one : Function.Injective (relabel (numbered n)) := by
    rintro (c | name) (d | name') equal
    · exact congrArg Cut.char (Cut.char.inj equal)
    · cases equal
    · cases equal
    · exact congrArg Cut.label (numbered_injective (Cut.label.inj equal)).2
  rw [← uncut_cut (U := U) line, List.map_injective_iff.mpr one pieces, uncut_cut]

end Aclm.Macros
