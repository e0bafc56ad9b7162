import Mathlib.Algebra.BigOperators.Ring.Finset
import Mathlib.Algebra.BigOperators.Pi
import Mathlib.Data.Fintype.BigOperators

/-! Affine forms over finitely many variables. -/

set_option autoImplicit false

namespace Aclm

variable {ι R : Type} [Fintype ι] [CommRing R]

/-- A form with a coefficient for each variable. -/
def affine (a : ι → R) (k : R) (v : ι → R) : R := ∑ i, a i * v i + k

theorem affine_zero (a : ι → R) (k : R) : affine a k 0 = k := by simp [affine]

variable [DecidableEq ι]

theorem affine_single (a : ι → R) (k : R) (i : ι) : affine a k (Pi.single i 1) = a i + k := by
  simp [affine, Pi.single_apply]

omit [DecidableEq ι] in
theorem add_affine (a : ι → R) (k l : R) (v : ι → R) : l + affine a k v = affine a (l + k) v := add_left_comm _ _ _

/-- One more term for a variable. -/
theorem mul_add_affine (a : ι → R) (i : ι) (s k : R) (v : ι → R) : v i * s + affine a k v = affine (Pi.single i s + a) k v := by
  have single : ∑ j, (Pi.single i s : ι → R) j * v j = v i * s := by simp [Pi.single_apply, mul_comm]
  simp only [affine, Pi.add_apply, add_mul, Finset.sum_add_distrib, single, add_assoc]

/-- Forms with the same values have the same coefficients. -/
theorem affine_inj (a b : ι → R) (k l : R) : (∀ v, affine a k v = affine b l v) ↔ a = b ∧ k = l := by
  constructor
  · intro same
    have constant : k = l := by simpa only [affine_zero] using same 0
    refine ⟨funext fun i => ?_, constant⟩
    have unit := same (Pi.single i 1)
    rw [affine_single, affine_single, constant] at unit
    exact add_right_cancel unit
  · rintro ⟨rfl, rfl⟩ v
    rfl

end Aclm
