import Mathlib.Data.Int.Basic
import Mathlib.Tactic.Ring

/-!
# Machine integers

Conversions of C++ integers, as remainders: `u64` is the conversion to `uint64_t`, `i32` the conversion of a
64-bit value to a 32-bit two's complement `int`, and `InInt64` the range of `int64_t`.
-/

namespace DistributedLock.Lib

/-- Conversion to `uint64_t`. -/
def u64 (x : ℤ) : ℕ := (x % 2 ^ 64).toNat

/-- Conversion to a 32-bit `int`. -/
def i32 (x : ℤ) : ℤ := Int.bmod x (2 ^ 32)

/-- The values of `int64_t`. -/
def InInt64 (x : ℤ) : Prop := -2 ^ 63 ≤ x ∧ x < 2 ^ 63

instance (x : ℤ) : Decidable (InInt64 x) := inferInstanceAs (Decidable (_ ∧ _))

theorem u64_of_lt {x : ℤ} (h₀ : 0 ≤ x) (h : x < 2 ^ 64) : (u64 x : ℤ) = x := by
  unfold u64
  omega

/-- The difference of an `int64_t` and a `uint64_t` that came from an `int64_t` is the difference of the two
`int64_t` values. -/
theorem u64_sub_u64 (x y : ℤ) : u64 (x - u64 y) = u64 (x - y) := by
  unfold u64
  omega

theorem i32_of_lt {x : ℤ} (h₀ : 0 ≤ x) (h : x < 2 ^ 31) : i32 x = x := by
  unfold i32
  rw [Int.bmod_def]
  split <;> omega

/-- A positive value survives the conversion to `int` exactly if an `int` can hold it. -/
theorem i32_eq_self_iff {x : ℤ} (h : 0 < x) : i32 x = x ↔ x ≤ 2 ^ 31 - 1 := by
  constructor
  · intro heq
    unfold i32 at heq
    rw [Int.bmod_def] at heq
    split at heq <;> omega
  · intro hle
    exact i32_of_lt (by omega) (by omega)

end DistributedLock.Lib
