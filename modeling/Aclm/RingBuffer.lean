import Mathlib.Data.List.Basic

/-! Bounded queues, and circular buffers that hold them: the entries lie from a tail on around the circle, and one
slot always stays free. -/

set_option autoImplicit false

namespace Aclm

variable {α : Type}

namespace Fifo

/-- The queue takes an entry while it holds fewer than `capacity`. -/
def push (capacity : Nat) (q : List α) (x : α) : Bool × List α :=
  if q.length < capacity then (true, q ++ [x]) else (false, q)

/-- The oldest entry, if there is one, and the others. -/
def pop : List α → Option α × List α
  | [] => (none, [])
  | x :: q => (some x, q)

theorem push_length_le {capacity : Nat} {q : List α} (x : α) (le : q.length ≤ capacity) :
    (push capacity q x).2.length ≤ capacity := by
  unfold push
  split
  · simpa
  · exact le

theorem pop_length_le {capacity : Nat} {q : List α} (le : q.length ≤ capacity) : (pop q).2.length ≤ capacity := by
  cases q with
  | nil => exact le
  | cons x q => exact Nat.le_of_succ_le le

end Fifo

namespace RingBuffer

/-- From the slot `tail` on the slots hold the entries of `q`. -/
def Holds (slot : Nat → α) (size tail : Nat) (q : List α) : Prop :=
  ∀ i x, q[i]? = some x → slot ((tail + i) % size) = x

variable {slot slot' : Nat → α} {size tail i j : Nat} {q : List α} {x : α}

/-- Once around the circle at most. -/
theorem mod_eq (small : i < 2 * size) : i % size = if i < size then i else i - size := by
  split
  · next less => exact Nat.mod_eq_of_lt less
  · next more =>
    rw [Nat.mod_eq_sub_mod (by omega), Nat.mod_eq_of_lt (by omega)]

/-- Slots at different distances from the tail are different. -/
theorem slot_ne (below : tail < size) (left : i < size) (right : j < size) (apart : i ≠ j) :
    (tail + i) % size ≠ (tail + j) % size := by
  rw [mod_eq (by omega), mod_eq (by omega)]
  split <;> split <;> omega

/-- The head is the tail exactly where nothing is held. -/
theorem head_eq_tail_iff (below : tail < size) (room : q.length < size) :
    (tail + q.length) % size = tail ↔ q = [] := by
  rw [mod_eq (by omega), ← List.length_eq_zero_iff]
  split <;> omega

/-- The slot after the head is the tail exactly where all slots but one are taken. -/
theorem next_eq_tail_iff (below : tail < size) (room : q.length < size) :
    ((tail + q.length) % size + 1) % size = tail ↔ q.length + 1 = size := by
  rw [Nat.mod_add_mod, Nat.add_assoc]
  by_cases full : q.length + 1 = size
  · simp [full, Nat.mod_eq_of_lt below]
  · rw [mod_eq (by omega)]
    split <;> omega

namespace Holds

theorem empty (slot : Nat → α) (size tail : Nat) : Holds slot size tail [] := fun i x found => by simp at found

theorem congr (holds : Holds slot size tail q) (positive : 0 < size) (same : ∀ j < size, slot' j = slot j) :
    Holds slot' size tail q :=
  fun i x found => (same _ (Nat.mod_lt _ positive)).trans (holds i x found)

/-- An entry is put into the slot behind the last one. -/
theorem push (holds : Holds slot size tail q) (below : tail < size) (room : q.length < size)
    (others : ∀ j < size, j ≠ (tail + q.length) % size → slot' j = slot j)
    (here : slot' ((tail + q.length) % size) = x) : Holds slot' size tail (q ++ [x]) := by
  intro i y found
  have bound := (List.getElem?_eq_some_iff.mp found).1
  simp only [List.length_append, List.length_singleton] at bound
  by_cases last : i = q.length
  · subst last
    simp only [List.getElem?_append_right (Nat.le_refl _), Nat.sub_self, List.getElem?_cons_zero,
      Option.some.injEq] at found
    exact here.trans found
  · have old : i < q.length := by omega
    rw [List.getElem?_append_left old] at found
    have apart := slot_ne below (Nat.lt_trans old room) room last
    exact (others _ (Nat.mod_lt _ (by omega)) apart).trans (holds i y found)

theorem oldest (holds : Holds slot size tail (x :: q)) (below : tail < size) : slot tail = x := by
  have first := holds 0 x rfl
  rwa [Nat.add_zero, Nat.mod_eq_of_lt below] at first

/-- Without the oldest entry the buffer begins one slot further. -/
theorem pop (holds : Holds slot size tail (x :: q)) : Holds slot size ((tail + 1) % size) q := by
  intro i y found
  have next := holds (i + 1) y found
  rwa [Nat.mod_add_mod, Nat.add_assoc, Nat.add_comm 1 i]

end Holds

/-- One entry more moves the head on. -/
theorem head_push (tail size : Nat) (q : List α) (x : α) :
    ((tail + q.length) % size + 1) % size = (tail + (q ++ [x]).length) % size := by
  rw [Nat.mod_add_mod, List.length_append, List.length_singleton, Nat.add_assoc]

/-- One entry less leaves the head where it is. -/
theorem head_pop (tail size : Nat) (q : List α) (x : α) :
    ((tail + 1) % size + q.length) % size = (tail + (x :: q).length) % size := by
  rw [Nat.mod_add_mod, List.length_cons, Nat.add_assoc, Nat.add_comm 1]

end RingBuffer

end Aclm
