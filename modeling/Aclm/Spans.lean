import Mathlib.Data.List.Basic

/-! Spans of a list: each begins at a position of its own and ends where the next one begins, the last at the end. -/

set_option autoImplicit false

namespace Aclm

variable {α β : Type}

structure Span (β : Type) where
  label : β
  start : Nat
  stop : Nat
  deriving DecidableEq, Repr

namespace Span

/-- The elements of the span. -/
def slice (span : Span β) (xs : List α) : List α := (xs.take span.stop).drop span.start

def covers (i : Nat) (span : Span β) : Bool := span.start ≤ i && i < span.stop

theorem slice_of_le {span : Span β} (empty : span.stop ≤ span.start) (xs : List α) : span.slice xs = [] :=
  List.drop_eq_nil_of_le (by rw [List.length_take]; omega)

end Span

/-- The spans that begin at some positions of a list of length `n`. -/
def spans : List (β × Nat) → Nat → List (Span β)
  | [], _ => []
  | (label, start) :: rest, n => ⟨label, start, (rest.map Prod.snd).headD n⟩ :: spans rest n

/-- The spans with at least one element. -/
def filled (all : List (Span β)) : List (Span β) := all.filter fun span => ¬ span.stop ≤ span.start

/-- The spans in order are the list, and each of its positions is in exactly one of them. -/
structure Partitions (all : List (Span β)) (xs : List α) : Prop where
  whole : (all.map fun span => span.slice xs).flatten = xs
  once : ∀ i < xs.length, all.countP (Span.covers i) = 1

/-- The positions go up to at most `n`. -/
structure Ascending (entries : List (β × Nat)) (n : Nat) : Prop where
  sorted : (entries.map Prod.snd).Pairwise (· ≤ ·)
  within : ∀ entry ∈ entries, entry.2 ≤ n

namespace Ascending

variable {entry : β × Nat} {entries : List (β × Nat)} {n : Nat}

theorem nil (n : Nat) : Ascending ([] : List (β × Nat)) n := ⟨.nil, by simp⟩

theorem tail (ascending : Ascending (entry :: entries) n) : Ascending entries n :=
  ⟨ascending.sorted.of_cons, fun _ member => ascending.within _ (List.mem_cons_of_mem _ member)⟩

theorem mono {n' : Nat} (ascending : Ascending entries n) (le : n ≤ n') : Ascending entries n' :=
  ⟨ascending.sorted, fun entry member => Nat.le_trans (ascending.within entry member) le⟩

/-- An entry at the end of what there is. -/
theorem snoc (ascending : Ascending entries n) (label : β) : Ascending (entries ++ [(label, n)]) n := by
  constructor
  · rw [List.map_append, List.pairwise_append]
    refine ⟨ascending.sorted, List.pairwise_singleton _ _, fun start member stop last => ?_⟩
    obtain ⟨entry, inside, rfl⟩ := List.mem_map.mp member
    rw [List.mem_singleton.mp last]
    exact ascending.within entry inside
  · intro entry member
    rcases List.mem_append.mp member with member | last
    · exact ascending.within entry member
    · exact Nat.le_of_eq (congrArg Prod.snd (List.mem_singleton.mp last))

/-- The first span begins before the second one, and not behind the end. -/
theorem head_le (ascending : Ascending (entry :: entries) n) :
    entry.2 ≤ (entries.map Prod.snd).headD n ∧ (entries.map Prod.snd).headD n ≤ n := by
  cases entries with
  | nil => exact ⟨ascending.within entry List.mem_cons_self, Nat.le_refl n⟩
  | cons next rest =>
    exact ⟨(List.pairwise_cons.mp ascending.sorted).1 next.2 List.mem_cons_self,
      ascending.within next (List.mem_cons_of_mem _ List.mem_cons_self)⟩

end Ascending

/-- Empty spans add nothing. -/
theorem filled_flatten (all : List (Span β)) (xs : List α) :
    ((filled all).map fun span => span.slice xs).flatten = (all.map fun span => span.slice xs).flatten := by
  induction all with
  | nil => rfl
  | cons span all ih =>
    by_cases empty : span.stop ≤ span.start
    · have skipped : filled (span :: all) = filled all := List.filter_cons_of_neg (by simpa using empty)
      rw [skipped, ih, List.map_cons, List.flatten_cons, span.slice_of_le empty, List.nil_append]
    · have kept : filled (span :: all) = span :: filled all := List.filter_cons_of_pos (by simpa using empty)
      rw [kept, List.map_cons, List.flatten_cons, ih, List.map_cons, List.flatten_cons]

theorem filled_covers (all : List (Span β)) (i : Nat) :
    (filled all).countP (Span.covers i) = all.countP (Span.covers i) := by
  rw [filled, List.countP_filter]
  refine List.countP_congr fun span _ => ?_
  simp only [Bool.and_eq_true, decide_eq_true_eq, Span.covers]
  omega

/-- Consecutive spans are what the list has from the first one on. -/
theorem spans_flatten {entries : List (β × Nat)} {xs : List α} (ascending : Ascending entries xs.length) :
    ((spans entries xs.length).map fun span => span.slice xs).flatten =
      xs.drop ((entries.map Prod.snd).headD xs.length) := by
  induction entries with
  | nil => simp [spans]
  | cons entry entries ih =>
    obtain ⟨le, end_le⟩ := ascending.head_le
    rw [spans, List.map_cons, List.flatten_cons, ih ascending.tail, Span.slice]
    generalize (entries.map Prod.snd).headD xs.length = next at le end_le
    change (xs.take next).drop entry.2 ++ xs.drop next = xs.drop entry.2
    rw [← List.drop_append_of_le_length (by rw [List.length_take]; omega), List.take_append_drop]

/-- A position behind the first start is in one span, a position before it in none. -/
theorem spans_covers {entries : List (β × Nat)} {n : Nat} (ascending : Ascending entries n) (i : Nat) :
    (spans entries n).countP (Span.covers i) = if (entries.map Prod.snd).headD n ≤ i ∧ i < n then 1 else 0 := by
  induction entries with
  | nil => simp [spans]
  | cons entry entries ih =>
    obtain ⟨le, end_le⟩ := ascending.head_le
    rw [spans, List.countP_cons, ih ascending.tail, List.map_cons, List.headD_cons]
    generalize (entries.map Prod.snd).headD n = next at le end_le
    simp only [Span.covers, Bool.and_eq_true, decide_eq_true_eq]
    split <;> split <;> split <;> omega

/-- Such spans partition the list exactly if the first begins at its start. -/
theorem spans_partition_iff {entries : List (β × Nat)} {xs : List α} (ascending : Ascending entries xs.length) :
    Partitions (filled (spans entries xs.length)) xs ↔ (entries.map Prod.snd).headD xs.length = 0 := by
  constructor
  · intro partitions
    have whole := partitions.whole
    rw [filled_flatten, spans_flatten ascending] at whole
    have lengths := congrArg List.length whole
    rw [List.length_drop] at lengths
    have le : (entries.map Prod.snd).headD xs.length ≤ xs.length := by
      cases entries with
      | nil => exact Nat.le_refl _
      | cons entry entries => exact ascending.within entry List.mem_cons_self
    omega
  · intro first
    refine ⟨?_, fun i inside => ?_⟩
    · rw [filled_flatten, spans_flatten ascending, first, List.drop_zero]
    · rw [filled_covers, spans_covers ascending, first, if_pos ⟨Nat.zero_le i, inside⟩]

end Aclm
