import Mathlib.Data.List.Basic

/-!
# Prefix codes

An encoding is a prefix code if the code of one value at the front of a stream determines the value and what is
behind it.

* `PrefixCode.flatMap_unique`: the same for lists of values of a known length;
* `PrefixCode.flatMap_injective`: the codes of a list of values, one behind the other, determine the list.
-/

namespace DistributedLock.Lib

variable {α β : Type*}

structure PrefixCode (code : α → List β) : Prop where
  ne_nil : ∀ a, code a ≠ []
  unique : ∀ a b x y, code a ++ x = code b ++ y → a = b ∧ x = y

namespace PrefixCode

variable {code : α → List β} {l l' : List α} {x y : List β}

theorem flatMap_unique (h : PrefixCode code) (hlen : l.length = l'.length)
    (heq : l.flatMap code ++ x = l'.flatMap code ++ y) : l = l' ∧ x = y := by
  induction l generalizing l' with
  | nil =>
    obtain rfl := List.length_eq_zero_iff.mp hlen.symm
    exact ⟨rfl, heq⟩
  | cons a l ih =>
    cases l' with
    | nil => cases hlen
    | cons b l' =>
      rw [List.flatMap_cons, List.flatMap_cons, List.append_assoc, List.append_assoc] at heq
      obtain ⟨rfl, hrest⟩ := h.unique _ _ _ _ heq
      obtain ⟨rfl, rfl⟩ := ih (Nat.succ.inj hlen) hrest
      exact ⟨rfl, rfl⟩

/-- **A stream of codes has one reading.** -/
theorem flatMap_injective (h : PrefixCode code) : Function.Injective fun l : List α => l.flatMap code := by
  intro l l' heq
  induction l generalizing l' with
  | nil =>
    cases l' with
    | nil => rfl
    | cons b l' =>
      have hnil : code b ++ l'.flatMap code = [] := heq.symm
      exact absurd (List.append_eq_nil_iff.mp hnil).1 (h.ne_nil b)
  | cons a l ih =>
    cases l' with
    | nil =>
      have hnil : code a ++ l.flatMap code = [] := heq
      exact absurd (List.append_eq_nil_iff.mp hnil).1 (h.ne_nil a)
    | cons b l' =>
      obtain ⟨rfl, hrest⟩ := h.unique a b _ _ heq
      rw [ih hrest]

end PrefixCode

end DistributedLock.Lib
