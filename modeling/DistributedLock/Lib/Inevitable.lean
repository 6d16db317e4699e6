import DistributedLock.Lib.Machine
import Mathlib.Order.RelClasses

/-!
# What a machine cannot avoid

`Inevitable may P s`: whatever steps the machine takes from `s`, of those that `may` allows, it does not stop
and does not go on forever before it is in a state with the property `P`.  No fairness between the steps is
asked for.

* `Inevitable.of_acc`: the rule with a well-founded relation that every step follows and an invariant under
  which the machine does not stop early;
* `Inevitable.of_measure`: the same with a measure.
-/

namespace DistributedLock.Lib.Machine

variable {σ ℓ β : Type*} {M : Machine σ ℓ} {may : σ → ℓ → Prop} {P I : σ → Prop}

inductive Inevitable (M : Machine σ ℓ) (may : σ → ℓ → Prop) (P : σ → Prop) : σ → Prop
  | now {s : σ} : P s → Inevitable M may P s
  | later {s : σ} : (∃ l s', may s l ∧ M.next s l = some s') →
      (∀ l s', may s l → M.next s l = some s' → Inevitable M may P s') → Inevitable M may P s

/-- **The rule of inevitability.** -/
theorem Inevitable.of_acc {r : σ → σ → Prop} (hr : ∀ s l s', I s → may s l → M.next s l = some s' → r s' s ∧ I s')
    (hlive : ∀ s, I s → ¬ P s → ∃ l s', may s l ∧ M.next s l = some s') {s : σ} (hacc : Acc r s) (hI : I s) :
    M.Inevitable may P s := by
  induction hacc with
  | intro s _ ih =>
    by_cases hP : P s
    · exact .now hP
    · refine .later (hlive s hI hP) fun l s' hm hn => ?_
      obtain ⟨hlt, hI'⟩ := hr s l s' hI hm hn
      exact ih s' hlt hI'

/-- **The rule with a measure** that every step makes smaller. -/
theorem Inevitable.of_measure [LT β] [WellFoundedLT β] (f : σ → β)
    (hf : ∀ s l s', I s → may s l → M.next s l = some s' → f s' < f s ∧ I s')
    (hlive : ∀ s, I s → ¬ P s → ∃ l s', may s l ∧ M.next s l = some s') {s : σ} (hI : I s) : M.Inevitable may P s :=
  .of_acc (r := fun s' s => f s' < f s) hf hlive ((InvImage.wf f wellFounded_lt).apply s) hI

end DistributedLock.Lib.Machine
