import Mathlib.Data.List.Induction
import Mathlib.Data.List.Pairwise
import Mathlib.Tactic.Basic

/-! Assignments carried out one after the other, compared with the same assignments all at once. -/

set_option autoImplicit false

namespace Aclm.X64

/-- A constant, or the content of a location. -/
inductive Source (ρ ν : Type) where
  | const (v : ν)
  | loc (x : ρ)
  deriving DecidableEq, Repr

namespace Source

variable {ρ ν : Type}

def value (f : ρ → ν) : Source ρ ν → ν
  | const v => v
  | loc x => f x

end Source

variable {ρ ν : Type} [DecidableEq ρ]

/-- One assignment after the other. -/
def assign (f : ρ → ν) : List (ρ × Source ρ ν) → ρ → ν
  | [] => f
  | (x, s) :: rest => assign (fun y => if y = x then s.value f else f y) rest

theorem assign_append (f : ρ → ν) (ps qs : List (ρ × Source ρ ν)) :
    assign f (ps ++ qs) = assign (assign f ps) qs := by
  induction ps generalizing f with
  | nil => rfl
  | cons p ps ih => exact ih _

theorem assign_other {f : ρ → ν} {ps : List (ρ × Source ρ ν)} {x : ρ} (other : ∀ p ∈ ps, x ≠ p.1) :
    assign f ps x = f x := by
  induction ps generalizing f with
  | nil => rfl
  | cons p ps ih =>
    have apart : x ≠ p.1 := other p List.mem_cons_self
    rw [assign, ih fun q member => other q (List.mem_cons_of_mem _ member)]
    simp only [apart, if_false]

/-- Only what the sources read matters. -/
theorem assign_congr {f g : ρ → ν} {P : ρ → Prop} (same : ∀ x, P x → f x = g x) {ps : List (ρ × Source ρ ν)}
    (reads : ∀ p ∈ ps, ∀ x, p.2 = .loc x → P x) {x : ρ} (here : P x) : assign f ps x = assign g ps x := by
  induction ps generalizing f g with
  | nil => exact same x here
  | cons p ps ih =>
    obtain ⟨y, s⟩ := p
    have value : s.value f = s.value g := by
      cases s with
      | const v => rfl
      | loc z => exact same z (reads _ List.mem_cons_self z rfl)
    refine ih (fun z inside => ?_) fun q member => reads q (List.mem_cons_of_mem _ member)
    simp only [value, same z inside]

/-- Every location has the value that its source had at the start exactly when no source is a location assigned
before, or had the value assigned there at the start already. -/
theorem assign_parallel_iff {f : ρ → ν} {ps : List (ρ × Source ρ ν)} (distinct : (ps.map Prod.fst).Nodup) :
    (∀ p ∈ ps, assign f ps p.1 = p.2.value f) ↔
      ps.Pairwise fun p q => q.2 = .loc p.1 → p.2.value f = q.2.value f := by
  induction ps using List.reverseRecOn with
  | nil => simp
  | append_singleton ps q ih =>
    obtain ⟨x, s⟩ := q
    simp only [List.map_append, List.map_cons, List.map_nil, List.nodup_append, List.mem_singleton, List.mem_map,
      forall_eq] at distinct
    obtain ⟨earlier, -, apart⟩ := distinct
    have last : assign f (ps ++ [(x, s)]) x = s.value (assign f ps) := by simp [assign_append, assign]
    have kept (p : ρ × Source ρ ν) (member : p ∈ ps) : assign f (ps ++ [(x, s)]) p.1 = assign f ps p.1 := by
      simp [assign_append, assign, apart p.1 ⟨p, member, rfl⟩]
    rw [List.pairwise_append]
    simp only [List.mem_append, List.mem_singleton, or_imp, forall_and, forall_eq, List.pairwise_singleton, true_and,
      last]
    constructor
    · rintro ⟨right, value⟩
      have before : ∀ p ∈ ps, assign f ps p.1 = p.2.value f := fun p member => (kept p member).symm.trans (right p member)
      refine ⟨(ih earlier).mp before, fun p member same => ?_⟩
      subst same
      exact (before p member).symm.trans value
    · rintro ⟨pairs, value⟩
      have before := (ih earlier).mpr pairs
      refine ⟨fun p member => (kept p member).trans (before p member), ?_⟩
      cases s with
      | const v => rfl
      | loc y =>
        -- Either `y` was assigned before, and then it holds what it held at the start, or it was not.
        by_cases assigned : ∃ p ∈ ps, y = p.1
        · obtain ⟨p, member, rfl⟩ := assigned
          exact (before p member).trans (value p member rfl)
        · exact assign_other fun p member same => assigned ⟨p, member, same⟩

end Aclm.X64
