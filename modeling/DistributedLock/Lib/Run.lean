import Mathlib.Data.Nat.Notation
import Mathlib.Logic.Relation

/-!
# Runs of a deterministic machine

`Runs f s t`: the partial step function `f` leads from `s` to `t`.  Two runs from one state are parts of one another
(`Runs.total`), so a machine that has stopped has stopped at the only state it can stop at (`Runs.stop_unique`).
`Runs.invariant` is the rule for what holds throughout, `Runs.loop` the rule for a loop over positions.
`exists_runs` and `forall_runs` are about runs computed from their length.
-/

namespace DistributedLock.Lib

variable {σ : Type*} {f : σ → Option σ} {s t u : σ}

def Runs (f : σ → Option σ) : σ → σ → Prop := Relation.ReflTransGen fun s t => f s = some t

namespace Runs

theorem refl : Runs f s s := Relation.ReflTransGen.refl

theorem trans (h : Runs f s t) (h' : Runs f t u) : Runs f s u := Relation.ReflTransGen.trans h h'

theorem one (h : f s = some t) : Runs f s t := Relation.ReflTransGen.single h

theorem step (h : f s = some t) (h' : Runs f t u) : Runs f s u := (one h).trans h'

theorem total (h : Runs f s t) (h' : Runs f s u) : Runs f t u ∨ Runs f u t := by
  refine Relation.ReflTransGen.total_of_right_unique ?_ h h'
  intro a b c hab hac
  rw [hab] at hac
  exact Option.some.inj hac

theorem eq_of_stop (h : Runs f s t) (hs : f s = none) : t = s := by
  rcases Relation.ReflTransGen.cases_head h with rfl | ⟨u, hu, -⟩
  · rfl
  · rw [hs] at hu
    cases hu

theorem stop_unique (h : Runs f s t) (ht : f t = none) (h' : Runs f s u) (hu : f u = none) : t = u := by
  rcases h.total h' with hr | hr
  · exact (hr.eq_of_stop ht).symm
  · exact hr.eq_of_stop hu

theorem invariant {I : σ → Prop} (hstep : ∀ s t, I s → f s = some t → I t) (h : Runs f s t) (hs : I s) : I t := by
  induction h with
  | refl => exact hs
  | tail _ hn ih => exact hstep _ _ ih hn

/-- A loop: what every iteration carries from one position to the next, the loop carries to its end. -/
theorem loop {I : ℕ → σ → Prop} {n : ℕ} (hbody : ∀ i s, i < n → I i s → ∃ t, Runs f s t ∧ I (i + 1) t) (hs : I 0 s) :
    ∃ t, Runs f s t ∧ I n t := by
  induction n with
  | zero => exact ⟨s, refl, hs⟩
  | succ n ih =>
    obtain ⟨t, ht, hI⟩ := ih fun i s hi => hbody i s (by omega)
    obtain ⟨u, hu, hI'⟩ := hbody n t (by omega) hI
    exact ⟨u, ht.trans hu, hI'⟩

end Runs

/-- The state after `k` steps. -/
def iterate (f : σ → Option σ) : ℕ → σ → Option σ
  | 0, s => some s
  | k + 1, s => (f s).bind (iterate f k)

theorem exists_runs (k : ℕ) (p : σ → Bool) (h : (iterate f k s).any p = true) : ∃ t, Runs f s t ∧ p t = true := by
  induction k generalizing s with
  | zero => exact ⟨s, .refl, h⟩
  | succ k ih =>
    cases hs : f s with
    | none => simp [iterate, hs] at h
    | some u =>
      obtain ⟨t, ht, hp⟩ := ih (s := u) (by simpa [iterate, hs] using h)
      exact ⟨t, .step hs ht, hp⟩

/-- All states of a run that stops within `k` steps have the property `p`. -/
def checks (f : σ → Option σ) (p : σ → Bool) : ℕ → σ → Bool
  | 0, _ => false
  | k + 1, s => p s && (f s).all (checks f p k)

theorem forall_runs (k : ℕ) (p : σ → Bool) (h : checks f p k s = true) (ht : Runs f s t) : p t = true := by
  induction k generalizing s with
  | zero => cases h
  | succ k ih =>
    obtain ⟨hp, hrest⟩ := Bool.and_eq_true_iff.mp h
    rcases Relation.ReflTransGen.cases_head ht with rfl | ⟨u, hu, hr⟩
    · exact hp
    · rw [hu] at hrest
      exact ih hrest hr

end DistributedLock.Lib
