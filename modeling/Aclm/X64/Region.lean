import Aclm.X64.Memory
import Mathlib.Data.Set.Basic
import Mathlib.Order.CompletePartialOrder

/-! Ranges of addresses that do not overlap, and memories that agree inside or outside a range. -/

set_option autoImplicit false

namespace Aclm.X64.Memory

/-- The `k` bytes at `b` and the `n` bytes at `a` do not overlap. -/
def Separate (a : Word) (n : Nat) (b : Word) (k : Nat) : Prop := n ≤ (b - a).toNat ∧ (b - a).toNat + k ≤ 2 ^ 64

/-- The memories agree outside the `n` bytes at `a`. -/
def OnlyIn (a : Word) (n : Nat) (m m' : Memory) : Prop := ∀ x : Word, n ≤ (x - a).toNat → m' x = m x

/-- The memories agree on the `n` bytes at `a`. -/
def SameOn (a : Word) (n : Nat) (m m' : Memory) : Prop := ∀ x : Word, (x - a).toNat < n → m' x = m x

variable {a b : Word} {n k : Nat} {m m' m'' : Memory}

namespace Separate

theorem symm (apart : Separate a n b k) (positive : 0 < n) : Separate b k a n := by
  obtain ⟨far, fits⟩ := apart
  constructor <;> bv_omega

/-- Parts of ranges that do not overlap do not overlap. -/
theorem mono (apart : Separate a n b k) {i j n' k' : Nat} (left : i + n' ≤ n) (right : j + k' ≤ k) (positive : 0 < k') :
    Separate (a + BitVec.ofNat 64 i) n' (b + BitVec.ofNat 64 j) k' := by
  obtain ⟨far, fits⟩ := apart
  have distance : (b + BitVec.ofNat 64 j - (a + BitVec.ofNat 64 i)).toNat + i = (b - a).toNat + j := by bv_omega
  constructor <;> omega

theorem right (apart : Separate a n b k) {j k' : Nat} (inside : j + k' ≤ k) (positive : 0 < k') :
    Separate a n (b + BitVec.ofNat 64 j) k' := by
  simpa using apart.mono (i := 0) (Nat.zero_add n).le inside positive

end Separate

namespace OnlyIn

theorem refl (a : Word) (n : Nat) (m : Memory) : OnlyIn a n m m := fun _ _ => rfl

theorem trans (first : OnlyIn a n m m') (second : OnlyIn a n m' m'') : OnlyIn a n m m'' :=
  fun x outside => (second x outside).trans (first x outside)

/-- A store inside the range. -/
theorem store (m : Memory) {i : Nat} (inside : i + k ≤ n) (fits : n ≤ 2 ^ 64) (v : Word) :
    OnlyIn a n m (m.store (a + BitVec.ofNat 64 i) k v) := by
  intro x outside
  apply store_of_le
  have := (x - a).isLt
  bv_omega

/-- A range is part of a longer one. -/
theorem widen {j : Nat} (same : OnlyIn (a + BitVec.ofNat 64 j) n m m') (inside : j + n ≤ k) (fits : k ≤ 2 ^ 64) :
    OnlyIn a k m m' := by
  intro x outside
  apply same
  have := (x - a).isLt
  bv_omega

/-- What happens in the bytes just below `p` is not seen above. -/
theorem sameAbove {p : Word} (same : OnlyIn (p - BitVec.ofNat 64 n) n m m') : SameAbove p n m m' :=
  fun x far => same x (by bv_omega)

theorem sameOn (same : OnlyIn a n m m') (apart : Separate a n b k) : SameOn b k m m' := by
  intro x inside
  obtain ⟨far, fits⟩ := apart
  exact same x (by bv_omega)

end OnlyIn

namespace SameOn

theorem refl (a : Word) (n : Nat) (m : Memory) : SameOn a n m m := fun _ _ => rfl

theorem symm (same : SameOn a n m m') : SameOn a n m' m := fun x inside => (same x inside).symm

theorem trans (first : SameOn a n m m') (second : SameOn a n m' m'') : SameOn a n m m'' :=
  fun x inside => (second x inside).trans (first x inside)

theorem mono (same : SameOn a n m m') (le : k ≤ n) : SameOn a k m m' := fun x inside => same x (by omega)

theorem load (same : SameOn a n m m') {i : Nat} (inside : i + k ≤ n) (fits : n ≤ 2 ^ 64) :
    m'.load (a + BitVec.ofNat 64 i) k = m.load (a + BitVec.ofNat 64 i) k :=
  load_congr fun j small => same _ (by bv_omega)

theorem bytes (same : SameOn a n m m') (fits : n ≤ 2 ^ 64) : m'.bytes a n = m.bytes a n :=
  bytes_congr fun i small => same _ (by bv_omega)

/-- The same store into both. -/
theorem store (same : SameOn a n m m') (b : Word) (k : Nat) (v : Word) : SameOn a n (m.store b k v) (m'.store b k v) := by
  intro x inside
  simp only [Memory.store, write, same x inside]

theorem stackAt (same : SameOn a n m m') {ws : List Word} {j : Nat} (stack : StackAt m (a + BitVec.ofNat 64 j) ws)
    (inside : j + 8 * ws.length ≤ n) (fits : n ≤ 2 ^ 64) : StackAt m' (a + BitVec.ofNat 64 j) ws := by
  induction ws generalizing j with
  | nil => trivial
  | cons w ws ih =>
    simp only [List.length_cons] at inside
    have next : a + BitVec.ofNat 64 j + 8 = a + BitVec.ofNat 64 (j + 8) := by bv_omega
    rw [StackAt, next] at stack ⊢
    exact ⟨(same.load (by omega) fits).trans stack.1, ih stack.2 (by omega)⟩

end SameOn

theorem store_sameOn (apart : Separate a n b k) (v : Word) : SameOn b k m (m.store a n v) := by
  intro x inside
  obtain ⟨far, fits⟩ := apart
  exact store_of_le (by bv_omega)

theorem load_store_apart (apart : Separate a n b k) (v : Word) : (m.store a n v).load b k = m.load b k := by
  refine load_congr fun i small => store_of_le ?_
  obtain ⟨far, fits⟩ := apart
  bv_omega

/-- Two words at different offsets from one address. -/
theorem separate_offsets {i j : Nat} (before : i + n ≤ j ∨ j + k ≤ i) (positive : 0 < n) (lower : i + n ≤ 2 ^ 64)
    (upper : j + k ≤ 2 ^ 64) (one : 0 < k) : Separate (a + BitVec.ofNat 64 i) n (a + BitVec.ofNat 64 j) k := by
  rcases before with before | before
  · constructor <;> bv_omega
  · constructor <;> bv_omega

/-- The words `ws` at consecutive addresses. -/
def storeWords (m : Memory) (a : Word) : List Word → Memory
  | [] => m
  | w :: ws => storeWords (m.store a 8 w) (a + 8) ws

theorem storeWords_onlyIn (m : Memory) (a : Word) (ws : List Word) (fits : 8 * ws.length ≤ 2 ^ 64) :
    OnlyIn a (8 * ws.length) m (storeWords m a ws) := by
  induction ws generalizing m a with
  | nil => exact .refl _ _ _
  | cons w ws ih =>
    simp only [List.length_cons] at fits ⊢
    have first : OnlyIn a (8 * (ws.length + 1)) m (m.store a 8 w) := by
      simpa using @OnlyIn.store a _ 8 m 0 (by omega) fits w
    have rest : OnlyIn (a + BitVec.ofNat 64 8) (8 * ws.length) (m.store a 8 w) (storeWords m a (w :: ws)) :=
      ih (m.store a 8 w) (a + 8) (by omega)
    exact first.trans (rest.widen (by omega) fits)

theorem storeWords_stackAt (m : Memory) (a : Word) (ws : List Word) (fits : 8 * ws.length ≤ 2 ^ 64) :
    StackAt (storeWords m a ws) a ws := by
  induction ws generalizing m a with
  | nil => trivial
  | cons w ws ih =>
    simp only [List.length_cons] at fits
    refine ⟨?_, ih (m.store a 8 w) (a + 8) (by omega)⟩
    have kept := storeWords_onlyIn (m.store a 8 w) (a + 8) ws (by omega)
    have apart : Separate (a + 8) (8 * ws.length) a 8 := by constructor <;> bv_omega
    have same := (kept.sameOn apart).load (i := 0) (k := 8) (by omega) (by omega)
    simpa [storeWords] using same

/-! ### Zeros -/

/-- The `n` bytes at `a` are zero. -/
def Zeros (a : Word) (n : Nat) (m : Memory) : Prop := ∀ x : Word, (x - a).toNat < n → m x = 0

theorem leValue_zeros (n : Nat) : leValue (List.replicate n 0) = 0 := by
  induction n with
  | zero => rfl
  | succ n ih => rw [List.replicate_succ, leValue, ih]; rfl

theorem leBytes_zero (n : Nat) : leBytes n 0 = List.replicate n 0 := by
  induction n with
  | zero => rfl
  | succ n ih => simp [List.replicate_succ, leBytes, ih]

theorem zeros_store (m : Memory) (a : Word) (n : Nat) : Zeros a n (m.store a n 0) := by
  intro x inside
  have found : (List.replicate n (0 : Byte))[(x - a).toNat]? = some 0 := by
    rw [List.getElem?_replicate, if_pos inside]
  rw [Memory.store, write, show (0 : Word).toNat = 0 from rfl, leBytes_zero, found]
  rfl

namespace Zeros

theorem load (zeros : Zeros a n m) {i : Nat} (inside : i + k ≤ n) (fits : n ≤ 2 ^ 64) :
    m.load (a + BitVec.ofNat 64 i) k = 0 := by
  have bytes : m.bytes (a + BitVec.ofNat 64 i) k = List.replicate k 0 := by
    rw [List.eq_replicate_iff]
    refine ⟨bytes_length .., fun b member => ?_⟩
    obtain ⟨j, small, rfl⟩ := List.mem_map.mp member
    rw [List.mem_range] at small
    exact zeros _ (by bv_omega)
  rw [Memory.load, bytes, leValue_zeros]
  rfl

theorem append (first : Zeros a n m) (second : Zeros (a + BitVec.ofNat 64 n) k m) :
    Zeros a (n + k) m := by
  intro x inside
  by_cases front : (x - a).toNat < n
  · exact first x front
  · exact second x (by bv_omega)

end Zeros

theorem SameOn.zeros (same : SameOn a n m m') (zeros : Zeros a n m) : Zeros a n m' :=
  fun x inside => (same x inside).trans (zeros x inside)

/-! ### Consecutive ranges -/

/-- The `n` bytes at `a`. -/
def range (a : Word) (n : Nat) : Set Word := {x | (x - a).toNat < n}

theorem range_subset_iff (positive : 0 < n) (small : k < 2 ^ 64) :
    range b n ⊆ range a k ↔ (b - a).toNat + n ≤ k := by
  constructor
  · intro inside
    by_contra exceeds
    have first : (b - a).toNat < k := inside (show (b - b).toNat < n by bv_omega)
    -- The byte of the second range that stands just behind the first.
    have behind : (b + BitVec.ofNat 64 (k - (b - a).toNat) - a).toNat < k :=
      inside (show (b + BitVec.ofNat 64 (k - (b - a).toNat) - b).toNat < n by bv_omega)
    bv_omega
  · intro fits x inside
    simp only [range, Set.mem_ofPred_eq] at inside ⊢
    bv_omega

/-- Each range begins where the one before it ends, the first one at `a`. -/
def Consecutive : Word → List (Word × Nat) → Prop
  | _, [] => True
  | a, (b, n) :: rest => b = a ∧ Consecutive (a + BitVec.ofNat 64 n) rest

def totalLength (ranges : List (Word × Nat)) : Nat := (ranges.map Prod.snd).sum

namespace Consecutive

variable {ranges : List (Word × Nat)}

theorem append_singleton (consecutive : Consecutive a ranges) (n : Nat) :
    Consecutive a (ranges ++ [(a + BitVec.ofNat 64 (totalLength ranges), n)]) := by
  induction ranges generalizing a with
  | nil => exact ⟨by simp [totalLength], trivial⟩
  | cons r rest ih =>
    obtain ⟨here, further⟩ := consecutive
    refine ⟨here, ?_⟩
    have next := ih further
    have shift : a + BitVec.ofNat 64 r.2 + BitVec.ofNat 64 (totalLength rest) =
        a + BitVec.ofNat 64 (totalLength (r :: rest)) := by
      simp only [totalLength, List.map_cons, List.sum_cons, BitVec.ofNat_add]
      ring
    rwa [shift] at next

theorem subset (consecutive : Consecutive a ranges) {r : Word × Nat} (member : r ∈ ranges) :
    range r.1 r.2 ⊆ range a (totalLength ranges) := by
  induction ranges generalizing a with
  | nil => cases member
  | cons s rest ih =>
    obtain ⟨here, further⟩ := consecutive
    intro x inside
    simp only [range, Set.mem_ofPred_eq, totalLength, List.map_cons, List.sum_cons] at inside ⊢
    rcases List.mem_cons.mp member with rfl | later
    · rw [here] at inside
      omega
    · have deeper := ih further later inside
      simp only [range, Set.mem_ofPred_eq, totalLength] at deeper
      bv_omega

/-- Consecutive ranges that do not go around the circle do not overlap. -/
theorem pairwise (consecutive : Consecutive a ranges) (fits : totalLength ranges ≤ 2 ^ 64) :
    ranges.Pairwise fun r s => Disjoint (range r.1 r.2) (range s.1 s.2) := by
  induction ranges generalizing a with
  | nil => exact .nil
  | cons r rest ih =>
    obtain ⟨here, further⟩ := consecutive
    have length : totalLength (r :: rest) = r.2 + totalLength rest := rfl
    refine .cons (fun s member => Set.disjoint_left.mpr fun x first second => ?_) (ih further (by omega))
    have later := further.subset member second
    simp only [range, Set.mem_ofPred_eq] at first later
    rw [here] at first
    bv_omega

end Consecutive

end Aclm.X64.Memory
