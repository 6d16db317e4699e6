import Mathlib.Data.Finset.Card
import Mathlib.Data.List.Dedup
import Mathlib.Data.Finset.Dedup

/-!
# Majorities of a list with repeated entries

A majority of a list `hosts` is more than half of its *length*, counted in distinct members.  A list with
repeated entries has fewer distinct members than its length, so it may have no majority at all, but two
majorities always share a member.
-/

namespace DistributedLock.Lib

variable {α : Type*}

/-- More than half of `n`. -/
def quorum (n : ℕ) : ℕ := n / 2 + 1

/-- The list `xs` is a majority of `hosts`: distinct members, more than half of the length of `hosts`. -/
structure Majority (hosts xs : List α) : Prop where
  nodup : xs.Nodup
  subset : ∀ h ∈ xs, h ∈ hosts
  length : quorum hosts.length ≤ xs.length

/-- **Two majorities meet.** -/
theorem Majority.inter [DecidableEq α] {hosts xs ys : List α} (hx : Majority hosts xs)
    (hy : Majority hosts ys) : ∃ h, h ∈ xs ∧ h ∈ ys := by
  have hcx := List.toFinset_card_of_nodup hx.nodup
  have hcy := List.toFinset_card_of_nodup hy.nodup
  have hle : hosts.toFinset.card ≤ hosts.length := List.toFinset_card_le hosts
  have hsx : xs.toFinset ⊆ hosts.toFinset := fun h hh => by simpa using hx.subset h (by simpa using hh)
  have hsy : ys.toFinset ⊆ hosts.toFinset := fun h hh => by simpa using hy.subset h (by simpa using hh)
  have hlx := hx.length
  have hly := hy.length
  unfold quorum at hlx hly
  by_contra hno
  -- disjoint majorities would have more members together than the list has entries
  have hdisj : Disjoint xs.toFinset ys.toFinset := by
    rw [Finset.disjoint_left]
    intro h h1 h2
    exact hno ⟨h, by simpa using h1, by simpa using h2⟩
  have hcard := Finset.card_le_card (Finset.union_subset hsx hsy)
  rw [Finset.card_union_of_disjoint hdisj] at hcard
  omega

end DistributedLock.Lib
