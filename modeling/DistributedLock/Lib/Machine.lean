import Mathlib.Data.Option.Basic

/-!
# Machines, runs and invariants

A machine is a set of initial states and a partial step function: `next s l` is the state the label `l`
leads to from `s`, `none` if `l` is not enabled there.  Everything that is chosen outside the machine
(who moves, what a peer answers, what a clock reads) is part of the label, so a run is a list of labels.

* `Reach ok s`: some run ends in `s`, every step of which meets the condition `ok` on the state before the
  step and its label;
* `Reach.invariant`: an invariant may use, at each step, that the state before it is reachable;
* `runWith`, `exists_reach`: a run computed from its labels;
* `startingAt`: the machine that goes on from a given state;
* `withHistory`: the machine with a history variable that its steps never read.
-/

namespace DistributedLock.Lib

/-- Initial states, and the state a label leads to. -/
structure Machine (σ ℓ : Type*) where
  init : σ → Prop
  next : σ → ℓ → Option σ

namespace Machine

variable {σ ℓ γ : Type*} {M : Machine σ ℓ} {ok ok' : σ → ℓ → Prop}

/-- The states reached by the runs whose steps all meet `ok`. -/
inductive Reach (M : Machine σ ℓ) (ok : σ → ℓ → Prop) : σ → Prop
  | init {s : σ} : M.init s → Reach M ok s
  | step {s s' : σ} {l : ℓ} : Reach M ok s → ok s l → M.next s l = some s' → Reach M ok s'

/-- **The invariant rule.** -/
theorem Reach.invariant {I : σ → Prop} (h₀ : ∀ s, M.init s → I s)
    (hs : ∀ s l s', M.Reach ok s → I s → ok s l → M.next s l = some s' → I s') {s : σ}
    (h : M.Reach ok s) : I s := by
  induction h with
  | init h => exact h₀ _ h
  | step hr ho hn ih => exact hs _ _ _ hr ih ho hn

theorem Reach.mono (h : ∀ s l, ok s l → ok' s l) {s : σ} (hr : M.Reach ok s) : M.Reach ok' s := by
  induction hr with
  | init h₀ => exact .init h₀
  | step _ ho hn ih => exact .step ih (h _ _ ho) hn

/-- The machine that goes on from the state `s`. -/
def startingAt (M : Machine σ ℓ) (s : σ) : Machine σ ℓ := { M with init := fun t => t = s }

theorem Reach.of_startingAt {s t : σ} (hs : M.Reach ok s) (hok : ∀ s l, ok' s l → ok s l)
    (ht : (M.startingAt s).Reach ok' t) : M.Reach ok t := by
  induction ht with
  | init h => exact h ▸ hs
  | step _ ho hn ih => exact ih.step (hok _ _ ho) hn

/-! ## Runs computed from their labels -/

/-- The state the labels `ls` lead to from `s`, if each is enabled and passes the test `okB`. -/
def runWith (M : Machine σ ℓ) (okB : σ → ℓ → Bool) : σ → List ℓ → Option σ
  | s, [] => some s
  | s, l :: ls => if okB s l then (M.next s l).bind fun s' => runWith M okB s' ls else none

theorem Reach.runWith {okB : σ → ℓ → Bool} (hok : ∀ s l, okB s l = true → ok s l) :
    ∀ {ls : List ℓ} {s s' : σ}, M.Reach ok s → M.runWith okB s ls = some s' → M.Reach ok s' := by
  intro ls
  induction ls with
  | nil =>
    intro s s' hr h
    obtain rfl : s = s' := by simpa [Machine.runWith] using h
    exact hr
  | cons l ls ih =>
    intro s s' hr h
    rw [Machine.runWith] at h
    split at h
    · rename_i ho
      obtain ⟨t, ht, h⟩ := Option.bind_eq_some_iff.mp h
      exact ih (hr.step (hok _ _ ho) ht) h
    · cases h

theorem exists_reach (M : Machine σ ℓ) (ls : List ℓ) (p : σ → Bool) {okB : σ → ℓ → Bool}
    (hok : ∀ s l, okB s l = true → ok s l) {s : σ} (h₀ : M.init s) (h : (M.runWith okB s ls).any p = true) :
    ∃ s', M.Reach ok s' ∧ p s' = true := by
  cases hr : M.runWith okB s ls with
  | none => simp [hr] at h
  | some s' => exact ⟨s', (Reach.init h₀).runWith hok hr, by simpa [hr] using h⟩

theorem exists_reach_of_decidable (M : Machine σ ℓ) (ok : σ → ℓ → Prop) [∀ s l, Decidable (ok s l)]
    (ls : List ℓ) (p : σ → Bool) {s : σ} (h₀ : M.init s)
    (h : (M.runWith (fun s l => decide (ok s l)) s ls).any p = true) :
    ∃ s', M.Reach ok s' ∧ p s' = true :=
  M.exists_reach ls p (fun _ _ => of_decide_eq_true) h₀ h

/-! ## History variables -/

/-- The machine with a history variable, updated at each step and read by none. -/
def withHistory (M : Machine σ ℓ) (g₀ : γ) (upd : σ → ℓ → σ → γ → γ) : Machine (σ × γ) ℓ where
  init p := M.init p.1 ∧ p.2 = g₀
  next p l := (M.next p.1 l).map fun s' => (s', upd p.1 l s' p.2)

theorem withHistory_next {g₀ : γ} {upd : σ → ℓ → σ → γ → γ} {p p' : σ × γ} {l : ℓ} :
    (M.withHistory g₀ upd).next p l = some p' ↔ M.next p.1 l = some p'.1 ∧ p'.2 = upd p.1 l p'.1 p.2 := by
  simp only [withHistory, Option.map_eq_some_iff, Prod.ext_iff]
  constructor
  · rintro ⟨s', hs, rfl, hg⟩
    exact ⟨hs, hg.symm⟩
  · rintro ⟨hs, hg⟩
    exact ⟨p'.1, hs, rfl, hg.symm⟩

theorem Reach.fst {g₀ : γ} {upd : σ → ℓ → σ → γ → γ} {okH : σ × γ → ℓ → Prop}
    (hok : ∀ p l, okH p l → ok p.1 l) {p : σ × γ} (h : (M.withHistory g₀ upd).Reach okH p) :
    M.Reach ok p.1 := by
  induction h with
  | init h => exact .init h.1
  | step _ ho hn ih => exact ih.step (hok _ _ ho) (withHistory_next.mp hn).1

end Machine

end DistributedLock.Lib
