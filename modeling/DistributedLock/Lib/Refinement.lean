import DistributedLock.Lib.Machine

/-!
# Refinement

A machine `M` refines a machine `N` along a function `abs` from its states to those of `N`, if `N` can follow
each step of `M`, by one step or by none.  An invariant of `M` may be used at each step.

* `Refinement.reach`: what `M` reaches is, seen through `abs`, what `N` reaches;
* `Refinement.invariant`: so what holds of all states that `N` reaches holds of all states that `M` reaches.
-/

namespace DistributedLock.Lib.Machine

variable {σ ℓ σ' ℓ' : Type*}

/-- **A refinement** along `abs`, in the runs whose steps meet `ok`; the runs of the abstract machine meet `ok'`. -/
structure Refinement (M : Machine σ ℓ) (ok : σ → ℓ → Prop) (N : Machine σ' ℓ') (ok' : σ' → ℓ' → Prop) (abs : σ → σ') :
    Prop where
  init : ∀ s, M.init s → N.init (abs s)
  step : ∀ s l s', M.Reach ok s → ok s l → M.next s l = some s' →
    abs s' = abs s ∨ ∃ l', ok' (abs s) l' ∧ N.next (abs s) l' = some (abs s')

variable {M : Machine σ ℓ} {ok : σ → ℓ → Prop} {N : Machine σ' ℓ'} {ok' : σ' → ℓ' → Prop} {abs : σ → σ'}

theorem Refinement.reach (h : M.Refinement ok N ok' abs) {s : σ} (hs : M.Reach ok s) : N.Reach ok' (abs s) := by
  induction hs with
  | init h₀ => exact .init (h.init _ h₀)
  | step hr ho hn ih =>
    rcases h.step _ _ _ hr ho hn with heq | ⟨l', ho', hn'⟩
    · rw [heq]
      exact ih
    · exact ih.step ho' hn'

/-- **What the abstract machine keeps, the concrete one keeps.** -/
theorem Refinement.invariant (h : M.Refinement ok N ok' abs) {P : σ' → Prop} (hP : ∀ t, N.Reach ok' t → P t) {s : σ}
    (hs : M.Reach ok s) : P (abs s) :=
  hP _ (h.reach hs)

end DistributedLock.Lib.Machine
