import Aclm.Text

/-! Integers as Python writes them are read back by `int`. -/

set_option autoImplicit false

namespace Aclm.Text

variable {U : CharClasses}

theorem isDigit_toNat {c : Char} (digit : c.isDigit = true) : 48 ≤ c.toNat ∧ c.toNat ≤ 57 := by
  simpa [Char.isDigit, UInt32.le_iff_toNat_le] using digit

theorem digitValue_digit {c : Char} (digit : c.isDigit = true) : digitValue U 10 c = some (c.toNat - 48) := by
  obtain ⟨lower, upper⟩ := isDigit_toNat digit
  rw [digitValue, U.ascii_decimal c (by omega), if_pos digit]
  exact Option.filter_eq_some_iff.mpr ⟨rfl, by simp; omega⟩

theorem digitsFrom_digits {s : Text} (digits : ∀ c ∈ s, c.isDigit = true) (value : Nat) :
    digitsFrom U 10 value s = some (Nat.ofDigitChars 10 s value) := by
  induction s generalizing value with
  | nil => rfl
  | cons c s ih =>
    have digit := digits c List.mem_cons_self
    have plain : c ≠ '_' := by
      rintro rfl
      exact absurd digit (by decide)
    rw [digitsFrom, digitValue_digit digit, Option.bind_some, ih (fun d member => digits d (List.mem_cons_of_mem _ member)),
      Nat.ofDigitChars_cons, Nat.mul_comm]
    · rfl
    · rintro d t rfl
      exact absurd rfl plain

/-- A numeral begins with a zero only if it is zero. -/
theorem toDigits_head {n : Nat} (positive : 0 < n) : ∃ c s, Nat.toDigits 10 n = c :: s ∧ c ≠ '0' := by
  induction n using Nat.strongRecOn with
  | ind n ih =>
    by_cases small : n < 10
    · refine ⟨n.digitChar, [], Nat.toDigits_of_lt_base small, ?_⟩
      have all : ∀ n : Fin 10, 0 < n.val → n.val.digitChar ≠ '0' := by decide
      exact all ⟨n, small⟩ positive
    · obtain ⟨c, s, front, nonzero⟩ := ih (n / 10) (by omega) (by omega)
      rw [Nat.toDigits_of_base_le (by decide) (by omega), front]
      exact ⟨c, _, rfl, nonzero⟩

theorem toDigits_digits (n : Nat) : ∀ c ∈ Nat.toDigits 10 n, c.isDigit = true :=
  fun _ member => Nat.isDigit_of_mem_toDigits (by decide) (by decide) member

theorem digits_toDigits (n : Nat) : digits U 10 (Nat.toDigits 10 n) = some n := by
  obtain ⟨c, s, shape⟩ := List.exists_cons_of_ne_nil (@Nat.toDigits_ne_nil n 10)
  have digit := toDigits_digits n c (by rw [shape]; exact List.mem_cons_self)
  have value := digitsFrom_digits (U := U) (toDigits_digits n) 0
  rw [Nat.ofDigitChars_ten_toDigits, shape] at value
  rw [shape]
  unfold digits
  split
  · next empty => cases empty
  · next same =>
    cases same
    exact absurd digit (by decide)
  · exact value

theorem natural_toDigits (n : Nat) : natural U 0 (Nat.toDigits 10 n) = some n := by
  have value : digits U 10 (Nat.toDigits 10 n) = some n := digits_toDigits n
  unfold natural
  simp only [if_true]
  split
  · next z c rest shape =>
    have positive : 0 < n := by
      refine Nat.pos_of_ne_zero ?_
      rintro rfl
      cases shape
    obtain ⟨c', s, shape', nonzero⟩ := toDigits_head positive
    obtain ⟨rfl, -⟩ := List.cons.inj (shape'.symm.trans shape)
    have digit := toDigits_digits n c' (by rw [shape']; exact List.mem_cons_self)
    obtain ⟨lower, upper⟩ := isDigit_toNat digit
    have notZero : c'.toNat ≠ 48 := fun same => nonzero (Char.toNat_inj.mp same)
    rw [U.ascii_decimal c' (by omega), if_pos digit, if_neg (by simp; omega)]
    exact value
  · exact value

/-- Nothing is stripped of a text without blanks. -/
theorem strip_none {s : Text} (plain : ∀ c ∈ s, isSpace c = false) : rstrip (lstrip s) = s := by
  have front (t : Text) (all : ∀ c ∈ t, isSpace c = false) : t.dropWhile isSpace = t := by
    cases t with
    | nil => rfl
    | cons c t => rw [List.dropWhile_cons_of_neg (by simp [all c List.mem_cons_self])]
  rw [lstrip, front s plain, rstrip, front s.reverse fun c member => plain c (List.mem_reverse.mp member), List.reverse_reverse]

theorem digit_plain {c : Char} (digit : c.isDigit = true) : isSpace c = false := by
  obtain ⟨lower, upper⟩ := isDigit_toNat digit
  simp only [isSpace, Bool.or_eq_false_iff, Bool.and_eq_false_iff, decide_eq_false_iff_not, beq_eq_false_iff_ne]
  omega

/-- `int(str(v), 0)` -/
theorem int_toString (v : Int) : int U 0 (toString v).toList = .ok v := by
  cases v with
  | ofNat n =>
    have text : (toString (Int.ofNat n)).toList = Nat.toDigits 10 n := Nat.toList_repr
    obtain ⟨c, s, shape⟩ := List.exists_cons_of_ne_nil (@Nat.toDigits_ne_nil n 10)
    have digit := toDigits_digits n c (by rw [shape]; exact List.mem_cons_self)
    have unsigned : signed U 0 (Nat.toDigits 10 n) = some (n : Int) := by
      have value := natural_toDigits (U := U) n
      rw [shape] at value ⊢
      unfold signed
      split
      · next same =>
        cases same
        exact absurd digit (by decide)
      · next same =>
        cases same
        exact absurd digit (by decide)
      · rw [value]
        rfl
    rw [int, text, strip_none fun c member => digit_plain (toDigits_digits n c member), unsigned]
    rfl
  | negSucc n =>
    have text : (toString (Int.negSucc n)).toList = '-' :: Nat.toDigits 10 (n + 1) := by
      change ("-" ++ Nat.repr (n + 1)).toList = _
      rw [String.toList_append, Nat.toList_repr]
      rfl
    have plain : ∀ c ∈ '-' :: Nat.toDigits 10 (n + 1), isSpace c = false := by
      intro c member
      rcases List.mem_cons.mp member with rfl | member
      · decide
      · exact digit_plain (toDigits_digits _ c member)
    rw [int, text, strip_none plain, signed, natural_toDigits]
    rfl

end Aclm.Text
