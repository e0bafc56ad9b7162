import Aclm.Image.Lines

/-! The loops that write variable-length numbers: they end, a reader gets the number back, and no shorter bytes
stand for it. -/

set_option autoImplicit false

namespace Aclm.Image

open X64 (Byte)
open Dwarf

/-! ### The loops -/

/-- A round of a loop: the byte it appends, and the number that is left to the next round, unless it breaks the loop. -/
structure Round (α : Type) where
  byte : Byte
  rest : Option α

/-- The bytes of a loop, if it breaks within so many rounds. -/
def loop {α : Type} (round : α → Round α) : Nat → α → Option (List Byte)
  | 0, _ => none
  | rounds + 1, v => match (round v).rest with
    | none => some [(round v).byte]
    | some v' => (loop round rounds v').map ((round v).byte :: ·)

def ulebRound (n : Nat) : Round Nat :=
  let b := n &&& 0x7F
  let n := n >>> 7
  if n ≠ 0 then ⟨BitVec.ofNat 8 (b ||| 0x80), some n⟩ else ⟨BitVec.ofNat 8 b, none⟩

def sleb2Round (value : Int) : Round Int :=
  let byte := (value % 128).toNat
  let value := value >>> (7 : Nat)
  if value = 0 ∧ byte &&& 0x40 = 0 then ⟨BitVec.ofNat 8 byte, none⟩
  else if value = -1 ∧ byte &&& 0x40 ≠ 0 then ⟨BitVec.ofNat 8 byte, none⟩
  else ⟨BitVec.ofNat 8 (byte ||| 0x80), some value⟩

section Rounds

variable {α : Type} {round : α → Round α} {v v' : α} {b : Byte} {bytes : List Byte}

theorem loop_last (here : round v = ⟨b, none⟩) : ∃ rounds, loop round rounds v = some [b] :=
  ⟨1, by rw [loop, here]⟩

theorem loop_more (here : round v = ⟨b, some v'⟩) (later : ∃ rounds, loop round rounds v' = some bytes) :
    ∃ rounds, loop round rounds v = some (b :: bytes) := by
  obtain ⟨rounds, ended⟩ := later
  refine ⟨rounds + 1, ?_⟩
  rw [loop, here]
  simp only [ended, Option.map_some]

end Rounds

theorem mask_eq (n : Nat) : n &&& 0x7F = n % 128 := Nat.and_two_pow_sub_one_eq_mod n 7

/-- The high bit is set in a byte that does not have it. -/
theorem or_high {b : Nat} (small : b < 128) : b ||| 0x80 = b + 128 := by
  rw [Nat.or_comm, Nat.add_comm]
  exact (Nat.two_pow_add_eq_or_of_lt (i := 7) small 1).symm

/-- The sign bit of the seven. -/
theorem sign_clear {b : Nat} (small : b < 128) : b &&& 0x40 = 0 ↔ b < 64 := by
  revert small
  revert b
  decide

theorem uleb_ends (n : Nat) : ∃ rounds, loop ulebRound rounds n = some (uleb n) := by
  induction n using uleb.induct with
  | case1 n last =>
    have here : ulebRound n = ⟨BitVec.ofNat 8 (n % 128), none⟩ := by
      rw [ulebRound, mask_eq, Nat.shiftRight_eq_div_pow, if_neg (not_not.mpr last)]
    rw [uleb, if_pos last]
    exact loop_last here
  | case2 n more ih =>
    have here : ulebRound n = ⟨BitVec.ofNat 8 (n % 128 + 128), some (n / 128)⟩ := by
      rw [ulebRound, mask_eq, Nat.shiftRight_eq_div_pow, if_pos more, or_high (Nat.mod_lt _ (by decide))]
    rw [uleb, if_neg more]
    exact loop_more here ih

theorem sleb2_ends (v : Int) : ∃ rounds, loop sleb2Round rounds v = some (sleb2 v) := by
  induction v using sleb2.induct with
  | case1 v byte next last =>
    have small : byte < 128 := by omega
    have here : sleb2Round v = ⟨BitVec.ofNat 8 byte, none⟩ := by
      rw [sleb2Round, Int.shiftRight_eq_div_pow]
      rcases last with ⟨zero, low⟩ | ⟨minus, high⟩
      · exact if_pos ⟨zero, (sign_clear small).mpr low⟩
      · have signed : byte &&& 0x40 ≠ 0 := fun clear => absurd ((sign_clear small).mp clear) (Nat.not_lt.mpr high)
        exact (if_neg fun both => signed both.2).trans (if_pos ⟨minus, signed⟩)
    rw [sleb2, if_pos last]
    exact loop_last here
  | case2 v byte next more ih =>
    have small : byte < 128 := by omega
    have here : sleb2Round v = ⟨BitVec.ofNat 8 (byte + 128), some next⟩ := by
      rw [sleb2Round, Int.shiftRight_eq_div_pow, or_high small]
      have low : ¬(next = 0 ∧ byte &&& 0x40 = 0) := fun both => more (.inl ⟨both.1, (sign_clear small).mp both.2⟩)
      have high : ¬(next = -1 ∧ byte &&& 0x40 ≠ 0) := fun both =>
        more (.inr ⟨both.1, Nat.le_of_not_lt fun below => both.2 ((sign_clear small).mpr below)⟩)
      exact (if_neg low).trans (if_neg high)
    rw [sleb2, if_neg more]
    exact loop_more here ih

/-! ### No bytes to spare -/

/-- Whatever bytes the number is read from, they are as many. -/
theorem uleb_shortest {n : Nat} {bs rest : List Byte} (taken : takeUleb bs = some (n, rest)) :
    (uleb n).length + rest.length ≤ bs.length := by
  induction bs generalizing n with
  | nil => cases taken
  | cons b bs ih =>
    have shorter := takeUleb_shortens taken
    rw [takeUleb] at taken
    split at taken
    · next small =>
      cases taken
      rw [uleb_small small, List.length_singleton]
      omega
    · obtain ⟨⟨m, tail⟩, later, shape⟩ := Option.map_eq_some_iff.mp taken
      cases shape
      have next : (b.toNat - 128 + 128 * m) / 128 = m := by omega
      rw [uleb]
      split
      · rw [List.length_singleton]
        omega
      · rw [List.length_cons, List.length_cons, next]
        have shortest := ih later
        omega

theorem sleb2_shortest {v : Int} {bs rest : List Byte} (taken : takeSleb bs = some (v, rest)) :
    (sleb2 v).length + rest.length ≤ bs.length := by
  induction bs generalizing v with
  | nil => cases taken
  | cons b bs ih =>
    have shorter := takeSleb_shortens taken
    -- One byte is never too many.
    have one (stops : (sleb2 v).length = 1) : (sleb2 v).length + rest.length ≤ (b :: bs).length := by omega
    rw [takeSleb] at taken
    split_ifs at taken with low small
    · cases taken
      refine one ?_
      rw [sleb2, if_pos (by omega), List.length_singleton]
    · cases taken
      refine one ?_
      rw [sleb2, if_pos (by omega), List.length_singleton]
    · obtain ⟨⟨m, tail⟩, later, shape⟩ := Option.map_eq_some_iff.mp taken
      cases shape
      have next : ((b.toNat : Int) - 128 + 128 * m) / 128 = m := by omega
      by_cases stops : (sleb2 (b.toNat - 128 + 128 * m)).length = 1
      · exact one stops
      · rw [sleb2] at stops ⊢
        split at stops
        · exact absurd List.length_singleton stops
        · next more =>
          rw [if_neg more, List.length_cons, List.length_cons, next]
          have shortest := ih later
          omega

/-! ### The encoders -/

/-- What the loop leaves behind is read as the number, and there are no shorter bytes that are. -/
structure Encodes {α : Type} (round : α → Round α) (take : List Byte → Option (α × List Byte)) (v : α) (bytes : List Byte) :
    Prop where
  ends : ∃ rounds, loop round rounds v = some bytes
  read : ∀ rest, take (bytes ++ rest) = some (v, rest)
  shortest : ∀ bs rest, take bs = some (v, rest) → bytes.length + rest.length ≤ bs.length

theorem leb128_encodes : (∀ n, Encodes ulebRound takeUleb n (uleb n)) ∧ ∀ v, Encodes sleb2Round takeSleb v (sleb2 v) :=
  ⟨fun n => ⟨uleb_ends n, takeUleb_uleb n, fun _ _ => uleb_shortest⟩,
    fun v => ⟨sleb2_ends v, takeSleb_sleb2 v, fun _ _ => sleb2_shortest⟩⟩

/-- On both sides of the boundaries at a power of 64. -/
example : (sleb2 63, sleb2 64, sleb2 (-64), sleb2 (-65)) = ([0x3F], [0xC0, 0x00], [0x40], [0xBF, 0x7F]) := by
  decide +kernel

end Aclm.Image
