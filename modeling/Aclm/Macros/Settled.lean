import Aclm.Macros.Locals

/-! No local label is left in a text in which the local labels have their final names. -/

set_option autoImplicit false

namespace Aclm.Macros

open Text
open Compiler (Locals renameLocal expandLocalLabels)

variable {U : CharClasses}

/-- Nowhere in the text a local label begins. -/
def Unlabelled (U : CharClasses) (s : Text) : Prop := ∀ i, localLabel U (s.drop i) = none

theorem unlabelled_nil : Unlabelled U [] := by
  intro i
  rw [List.drop_nil]
  rfl

theorem Unlabelled.cons {c : Char} {s : Text} (rest : Unlabelled U s) (here : localLabel U (c :: s) = none) :
    Unlabelled U (c :: s) := by
  intro i
  cases i with
  | zero => exact here
  | succ i => exact rest i

/-- A label begins with `~@`. -/
theorem localLabel_other {c d : Char} {s : Text} (other : c = '~' → d ≠ '@') : localLabel U (c :: d :: s) = none := by
  cases found : localLabel U (c :: d :: s) with
  | none => rfl
  | some name =>
    obtain ⟨rest, shape, -⟩ := localLabel_found found
    obtain ⟨first, shape⟩ := List.cons.inj shape
    exact absurd (List.cons.inj shape).1 (other first)

theorem word_ne {c d : Char} (inside : word U c = true) (outside : word U d = false) : c ≠ d := by
  rintro rfl
  rw [inside] at outside
  cases outside

theorem at_plain : word U '@' = false := word_ascii U (by decide)

theorem Unlabelled.word {s t : Text} (rest : Unlabelled U t) (all : ∀ c ∈ s, Text.word U c = true) : Unlabelled U (s ++ t) := by
  induction s with
  | nil => exact rest
  | cons c s ih =>
    refine (ih fun d member => all d (List.mem_cons_of_mem _ member)).cons ?_
    have other : c ≠ '~' := word_ne (all c List.mem_cons_self) tilde_plain
    cases found : localLabel U (c :: (s ++ t)) with
    | none => rfl
    | some name =>
      obtain ⟨_, shape, -⟩ := localLabel_found found
      exact absurd (List.cons.inj shape).1 other

theorem Unlabelled.cut {s : Text} (none : Unlabelled U s) : cut U s = s.map Cut.char := by
  induction s with
  | nil => rfl
  | cons c s ih =>
    have here := none 0
    rw [List.drop_zero] at here
    change cutFrom U 0 (c :: s) = _
    rw [cutFrom, here]
    exact congrArg _ (ih fun i => none (i + 1))

theorem subCuts_chars {σ : Type} (f : σ → String → Text × σ) (state : σ) (s : Text) : subCuts f state (s.map Cut.char) = s := by
  induction s with
  | nil => rfl
  | cons c s ih => exact congrArg _ ih

/-! ### Final names -/

theorem toDigits_word (n : Nat) : ∀ c ∈ Nat.toDigits 10 n, word U c = true :=
  fun _ member => digit_word (toDigits_digits n _ member)

/-- The name that a label gets is one word. -/
theorem renameLocal_word {known : Locals} (formed : Formed known) {name : String} (identifier : IsIdent U name) :
    ∃ c s, (renameLocal known name).1 = '~' :: c :: s ∧ ∀ d ∈ c :: s, word U d = true := by
  obtain ⟨label, shape, found⟩ := renameLocal_found known name
  obtain ⟨k, rfl⟩ := formed.renameLocal name name label found
  obtain ⟨c, s, letters, -, all⟩ := identifier.word
  refine ⟨'_', "_loc".toList ++ (Nat.toDigits 10 k ++ '_' :: name.toList), ?_, ?_⟩
  · rw [shape, loc_toList]
    rfl
  · have front : ∀ d ∈ '_' :: "_loc".toList, word U d = true := by
      intro d member
      have ascii : d.toNat < 128 ∧ (d.isAlphanum || d == '_') = true := by
        revert d
        decide
      rw [word_ascii U ascii.1]
      exact ascii.2
    have back : ∀ d ∈ '_' :: name.toList, word U d = true := by
      rw [letters]
      exact List.forall_mem_cons.mpr ⟨front '_' List.mem_cons_self, all⟩
    intro d member
    rw [← List.cons_append] at member
    rcases List.mem_append.mp member with member | member
    · exact front d member
    · rcases List.mem_append.mp member with member | member
      · exact toDigits_word k d member
      · exact back d member

theorem subCuts_head {known : Locals} (cs : List Cut) : (subCuts renameLocal known cs).head? = (uncut cs).head? := by
  cases cs with
  | nil => rfl
  | cons c cs => cases c with
    | char c => rfl
    | label name =>
      obtain ⟨label, shape, -⟩ := renameLocal_found known name
      rw [subCuts, shape]
      rfl

/-- In front of a label that has its final name no other one begins. -/
theorem localLabel_renamed {known : Locals} {c : Char} {cs : List Cut} (no : localLabel U (c :: uncut cs) = none) :
    localLabel U (c :: subCuts renameLocal known cs) = none := by
  cases cs with
  | nil => exact no
  | cons d cs => cases d with
    | char d =>
      refine localLabel_take ?_ no
      have heads := @subCuts_head known cs
      change List.take 2 (d :: uncut cs) = List.take 2 (d :: subCuts renameLocal known cs)
      rw [List.take_succ_cons, List.take_succ_cons, List.take_one, List.take_one, heads]
    | label name =>
      obtain ⟨label, shape, -⟩ := renameLocal_found known name
      rw [subCuts, shape]
      exact localLabel_other fun _ => by decide

theorem unlabelled_subCuts {cs : List Cut} (fits : Fits U cs) {known : Locals} (formed : Formed known) :
    Unlabelled U (subCuts renameLocal known cs) := by
  induction cs generalizing known with
  | nil => exact unlabelled_nil
  | cons c cs ih => cases c with
    | char c => exact (ih fits.2 formed).cons (localLabel_renamed fits.1)
    | label name =>
      obtain ⟨identifier, -, fits⟩ := fits
      obtain ⟨c, s, shape, all⟩ := renameLocal_word formed identifier
      rw [subCuts, shape]
      have rest := (ih fits (formed.renameLocal name)).word all
      exact rest.cons (localLabel_other fun _ => word_ne (all c List.mem_cons_self) at_plain)

/-- The pass leaves no local label behind, so that another one changes nothing. -/
theorem expandLocalLabels_settled (src : Text) : (∀ i, localLabel U ((expandLocalLabels U src).drop i) = none) ∧
    expandLocalLabels U (expandLocalLabels U src) = expandLocalLabels U src := by
  have none : Unlabelled U (expandLocalLabels U src) := by
    rw [expandLocalLabels, subLabels_eq]
    exact unlabelled_subCuts (fits_cut src) formed_empty
  refine ⟨none, ?_⟩
  rw [expandLocalLabels, subLabels_eq, none.cut, subCuts_chars]

end Aclm.Macros
