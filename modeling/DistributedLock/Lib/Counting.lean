import Mathlib.Algebra.BigOperators.Group.Finset.Basic
import Mathlib.Algebra.Order.BigOperators.Group.Finset
import Mathlib.Data.Fintype.BigOperators

/-!
# Sums over the values of a function that is updated at one point
-/

namespace DistributedLock.Lib

variable {ι α : Type*} [Fintype ι] [DecidableEq ι]

theorem sum_update_add (g : α → ℕ) (f : ι → α) (i : ι) (a : α) :
    (∑ j, g (Function.update f i a j)) + g (f i) = (∑ j, g (f j)) + g a := by
  have hcomp : ∀ j, g (Function.update f i a j) = Function.update (fun j => g (f j)) i (g a) j := by
    intro j
    by_cases hj : j = i
    · subst hj
      simp
    · simp [Function.update_of_ne hj]
  have hrest : (∑ j, g (f j)) = g (f i) + ∑ j ∈ Finset.univ \ {i}, g (f j) := by
    rw [Finset.sdiff_singleton_eq_erase]
    exact (Finset.add_sum_erase _ _ (Finset.mem_univ i)).symm
  simp only [hcomp]
  rw [Finset.sum_update_of_mem (Finset.mem_univ i), hrest]
  omega

/-- If the sum is at most 1, at most one value has a weight. -/
theorem eq_of_sum_le_one {g : α → ℕ} {f : ι → α} (h : (∑ j, g (f j)) ≤ 1) {i j : ι} (hi : 0 < g (f i))
    (hj : 0 < g (f j)) : i = j := by
  by_contra hij
  have hpair : (∑ k ∈ {i, j}, g (f k)) ≤ ∑ k, g (f k) :=
    Finset.sum_le_sum_of_subset (Finset.subset_univ _)
  rw [Finset.sum_pair hij] at hpair
  omega

end DistributedLock.Lib
