import DistributedLock.TimeoutQueue.Basic

/-!
# `Quit` and the idle wait

`Quit` stores `quit_` and notifies without `mtx_`.  A worker that has evaluated the predicate of the idle wait, but has
not parked yet, misses both: it parks behind the notification, and no deadline wakes it (`quit_strands`).  If no worker
stands there when `Quit` notifies, then nobody is parked in the idle wait from then on (`quit_strands_nobody`).
-/

set_option linter.unusedSectionVars false

namespace DistributedLock.TimeoutQueue

open Lib

variable {φ : Type} {n : ℕ} {ψ : Type} [DecidableEq ψ] {s s' : State φ n ψ} {w : Fin n} {inp : Input n}

/-! ## After `Quit` -/

/-- The worker is parked in the idle wait, or on the way from the predicate to parking. -/
def Point.idles : Point φ → Bool
  | .idlePark | .idleParked => true
  | _ => false

theorem code_idles {sh : Shared φ} (hquit : sh.quit = true) {p : Point φ} (hp : p.idles = false) :
    (code sh p).Leads fun q => q.idles = false := by
  cases p with
  | loop | testEmpty | untilTest nd => simp only [code]; split <;> rfl
  | testAllDone => simp only [code]; split <;> rfl
  | testQuit | testDue nd => simp only [code]; split <;> rfl
  | idleTest =>
    have hpred : sh.idlePred = true := by simp [Shared.idlePred, hquit]
    simp only [code, hpred]
    rfl
  | run nd => intro b; beta_reduce; split <;> rfl
  | idlePark => cases hp
  | idleParked => cases hp
  | _ => simp [code, Instr.Leads, Point.idles]

theorem wake_idles (p : Point φ) (hp : p.idles = false) : p.wake.idles = false := by cases p <;> first | exact hp | rfl

theorem quit_step {l : Label φ n ψ} (hs : next s l = some s') (hquit : s.sh.quit = true) : s'.sh.quit = true := by
  have hnot : ∀ {t t' : State φ n ψ} {o : Option (Fin n)}, t.notifyOne o = some t' → t'.sh = t.sh := by
    intro t t' o hn
    rcases notifyOne_cases hn with ⟨w, -, -, rfl⟩ | ⟨-, -, rfl⟩ <;> rfl
  rcases next_cases hs with ⟨t, -, -, rfl⟩ | ⟨f, period, t, -, -, hn⟩ | ⟨-, rfl⟩ | ⟨-, -, rfl⟩ | ⟨w, inp, -, ha⟩ |
    ⟨a, -, hw⟩
  · exact hquit
  · rw [hnot hn]
    exact hquit
  · rfl
  · exact hquit
  · cases ha with
    | insertNotify hc hn =>
      rw [hnot hn]
      exact hquit
    | _ => exact hquit
  · rcases stepWaiter_cases hw with ⟨p, -, rfl⟩ | ⟨p, -, -, rfl⟩ | ⟨p, -, rfl⟩ <;> exact hquit

/-- The queue, with the mark that some call of `Quit` has completed. -/
def quitting (φ : Type) (n : ℕ) (ψ : Type) [DecidableEq ψ] : Machine (State φ n ψ × Bool) (Label φ n ψ) :=
  (system φ n ψ).withHistory false fun _ l _ done =>
    match l with
    | .quitNotify => true
    | _ => done

/-- The worker has found the predicate of the idle wait false, and has not parked yet. -/
def Point.parking : Point φ → Bool
  | .idlePark => true
  | _ => false

/-- When `Quit` notifies, no worker stands between the predicate of the idle wait and parking. -/
def NoneParking (y : State φ n ψ × Bool) (l : Label φ n ψ) : Prop :=
  l = .quitNotify → ∀ w, (y.1.worker w).parking = false

/-- After `Quit`, nobody is parked in the idle wait. -/
def Woken (y : State φ n ψ × Bool) : Prop := y.2 = true → y.1.sh.quit = true ∧ ∀ w, (y.1.worker w).idles = false

theorem idles_of_wake {p : Point φ} (hp : p.parking = false) : p.wake.idles = false := by
  cases p with
  | idlePark => cases hp
  | _ => rfl

theorem woken_step {y y' : State φ n ψ × Bool} {l : Label φ n ψ} (hi : Woken y) (hok : NoneParking y l)
    (hs : (quitting φ n ψ).next y l = some y') : Woken y' := by
  obtain ⟨hn, hdone⟩ := Machine.withHistory_next.mp hs
  have hn : next y.1 l = some y'.1 := hn
  intro hdone'
  by_cases hl : l = .quitNotify
  · subst hl
    rcases next_cases hn with ⟨_, hl, -⟩ | ⟨_, _, _, hl, -⟩ | ⟨hl, -⟩ | ⟨-, hquit, hy'⟩ | ⟨_, _, hl, -⟩ | ⟨_, hl, -⟩
    case inr.inr.inr.inl =>
      rw [hy']
      exact ⟨hquit, fun w => idles_of_wake (hok rfl w)⟩
    all_goals cases hl
  · have hy : y.2 = true := by
      rw [hdone'] at hdone
      cases l with
      | quitNotify => exact absurd rfl hl
      | tick t | pushEvent f period t | quitStore | worker w inp | waiter a => exact hdone.symm
    obtain ⟨hquit, hidle⟩ := hi hy
    exact ⟨quit_step hn hquit, all_next (P := fun p => p.idles = false) hn (fun w => code_idles hquit (hidle w))
      wake_idles hidle⟩

/-- **If no worker is about to park in the idle wait when `Quit` notifies, no worker is parked there afterwards.** -/
theorem quit_strands_nobody {y : State φ n ψ × Bool} (h : (quitting φ n ψ).Reach NoneParking y) (hdone : y.2 = true)
    (w : Fin n) : y.1.worker w ≠ .idleParked := by
  have hinv : Woken y := by
    refine h.invariant (I := Woken) (fun y hinit => ?_) fun _ _ _ _ hi hok hn => woken_step hi hok hn
    intro hd
    rw [And.right hinit] at hd
    cases hd
  intro hw
  have hidle := (hinv hdone).2 w
  rw [hw] at hidle
  cases hidle

/-- A worker that is about to park when `Quit` notifies parks, and nobody has notified it. -/
theorem quit_strands {y : State φ n ψ × Bool} (h : (quitting φ n ψ).Reach (fun _ _ => True) y)
    (hquit : y.1.sh.quit = true) (hw : y.1.worker w = .idlePark) :
    ∃ y', (quitting φ n ψ).Reach (fun _ _ => True) y' ∧ y'.2 = true ∧ y'.1.worker w = .idleParked := by
  let s₁ : State φ n ψ := { y.1 with worker := fun w => (y.1.worker w).wake }
  have hn₁ : next y.1 .quitNotify = some s₁ := if_pos hquit
  have hcode : code s₁.sh (s₁.worker w) = .unlock .idleParked := by
    simp only [s₁, hw]
    rfl
  have hn₂ : next s₁ (.worker w .none) = some ((s₁.setMtx none).goto w .idleParked) := by
    simp only [next, stepWorker, hcode]
  have h₁ : (quitting φ n ψ).Reach (fun _ _ => True) (s₁, true) :=
    h.step (l := .quitNotify) trivial (Machine.withHistory_next.mpr ⟨hn₁, rfl⟩)
  exact ⟨((s₁.setMtx none).goto w .idleParked, true),
    h₁.step (l := .worker w .none) trivial (Machine.withHistory_next.mpr ⟨hn₂, rfl⟩), rfl, Function.update_self ..⟩

def noneParking (y : State φ n ψ × Bool) : Label φ n ψ → Bool
  | .quitNotify => decide (∀ w, (y.1.worker w).parking = false)
  | _ => true

theorem noneParking_of_test (y : State φ n ψ × Bool) (l : Label φ n ψ) (h : noneParking y l = true) :
    NoneParking y l := by
  rintro rfl w
  exact of_decide_eq_true h w

/-- The only worker parks, and `Quit` wakes it. -/
theorem quit_strands_nobody_one : ∃ y : State Unit 1 Empty × Bool,
    (quitting Unit 1 Empty).Reach NoneParking y ∧ y.2 = true ∧ y.1.worker 0 ≠ .idleParked := by
  obtain ⟨y, hr, hp⟩ := (quitting Unit 1 Empty).exists_reach
    (List.replicate 6 (.worker 0 .none) ++ [.quitStore, .quitNotify]) (fun y => y.2)
    noneParking_of_test (s := (State.blank, false)) ⟨State.blank_initial, rfl⟩ (by decide)
  exact ⟨y, hr, hp, quit_strands_nobody hr hp 0⟩

/-- The only worker finds the queue empty and `quit_` unset; `Quit` stores and notifies; the worker parks. -/
theorem worker_stranded : ¬ ∀ (φ : Type) (n : ℕ) (ψ : Type) (_ : DecidableEq ψ) (y : State φ n ψ × Bool),
    (quitting φ n ψ).Reach (fun _ _ => True) y → y.2 = true → ∀ w, y.1.worker w ≠ .idleParked := by
  intro hall
  obtain ⟨y, hr, hp⟩ := (quitting Unit 1 Empty).exists_reach_of_decidable (fun _ _ => True)
    (List.replicate 5 (.worker 0 .none) ++ [.quitStore])
    (fun y => y.1.sh.quit && (y.1.worker 0).parking) (s := (State.blank, false)) ⟨State.blank_initial, rfl⟩ (by decide)
  simp only [Bool.and_eq_true] at hp
  have hw : y.1.worker 0 = .idlePark := by
    have hpark := hp.2
    cases hpt : y.1.worker 0 with
    | idlePark => rfl
    | _ => rw [hpt] at hpark; cases hpark
  obtain ⟨y', hr', hdone, hw'⟩ := quit_strands hr hp.1 hw
  exact hall Unit 1 Empty _ y' hr' hdone 0 hw'

end DistributedLock.TimeoutQueue
