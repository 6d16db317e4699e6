import DistributedLock.TimeoutQueue.Basic

/-!
# Missed wake-ups

Idle workers and workers that wait for a deadline are parked on the same condition variable, with different
predicates, and a node that is put back before its time is inserted without a notification.  A state is `Missed` if
a parked worker's predicate is true and yet nobody will look at the queue: every worker is parked and not notified, or
inside an event function.

With one worker that does not happen: whoever changes the queue is the worker itself, or wakes it (`Ready`).  With more
than one it does: `notify_one` wakes the worker that waits for a deadline, whose predicate is false, and the idle ones
sleep on (`missed_of_two`).  So the queue misses no wake-up if and only if it has at most one worker
(`no_missed_wakeup_iff`).
-/

set_option linter.unusedSectionVars false

namespace DistributedLock.TimeoutQueue

open Lib

variable {φ : Type} {n : ℕ} {ψ : Type} [DecidableEq ψ] {s s' : State φ n ψ} {w : Fin n} {inp : Input n}

/-- The wait predicate of a worker that is parked or about to park. -/
def Point.waitPred (sh : Shared φ) : Point φ → Bool
  | .idlePark | .idleParked => sh.idlePred
  | .untilPark nd | .untilParked nd => sh.untilPred nd
  | _ => false

/-- A parked worker has a true predicate, and nobody is on the way to the queue. -/
structure Missed (s : State φ n ψ) : Prop where
  quit : s.sh.quit = false
  mtx : s.mtx = none
  stuck : ∃ w, (s.worker w).parked = true ∧ (s.worker w).waitPred s.sh = true
  asleep : ∀ w, (s.worker w).parked = true ∨ (s.worker w).running = true

/-! ## One worker -/

/-- No worker is parked, or about to park, while its predicate is true. -/
def Ready (s : State φ n ψ) : Prop := s.sh.quit = false → ∀ w, (s.worker w).waitPred s.sh = false

theorem Point.waitPred_wake (sh : Shared φ) {p : Point φ} (hp : p.parked = true) : p.wake.waitPred sh = false := by
  cases p <;> first | rfl | cases hp

theorem Point.waitPred_eq_false (sh : Shared φ) {p : Point φ} (hp : p.parked = false) (ho : p.owns = false) :
    p.waitPred sh = false := by
  cases p with
  | idleParked | untilParked nd => cases hp
  | idlePark | untilPark nd => cases ho
  | _ => rfl

/-- An instruction leads to parking only if the predicate is false. -/
def Watches (sh : Shared φ) (p : Point φ) : Instr φ → Prop
  | .tau p' | .lock p' | .notifyAllDone p' | .leave _ p' => p'.waitPred sh = false
  | .unlock p' => p'.waitPred sh = true → p.waitPred sh = true
  | .extract k => ∀ nd sh', (k nd).waitPred sh' = false
  | .insert _ _ p' => p'.parked = false ∧ ∀ sh', p'.waitPred sh' = false
  | .parked p' d => p'.waitPred sh = false ∧ ∀ x ∈ d, x.2.waitPred sh = false
  | .call _ k => ∀ b, (k b).waitPred sh = false
  | .ret => True

theorem code_watches (sh : Shared φ) (p : Point φ) : Watches sh p (code sh p) := by
  cases p with
  | loop | testEmpty => simp only [code]; split <;> rfl
  | testAllDone => simp only [code]; split <;> rfl
  | idleTest | untilTest nd =>
    simp only [code]
    split
    · rfl
    · rename_i hp
      simpa [Watches, Point.waitPred] using hp
  | testQuit | testDue nd =>
    simp only [code]
    split
    · intro h; cases h
    · rfl
  | run nd => intro b; beta_reduce; split <;> rfl
  | idlePark | untilPark nd => exact id
  | _ => simp [code, Watches, Point.waitPred, Point.parked]

namespace Ready

theorem init (h : Initial s) : Ready s := by
  intro _ w
  rw [h.worker]
  rfl

theorem goto (hn : n ≤ 1) {p : Point φ} (hw : s'.worker = Function.update s.worker w p)
    (hp : s'.sh.quit = false → p.waitPred s'.sh = false) : Ready s' := by
  intro hq w'
  obtain rfl : w' = w := Fin.ext (by omega)
  rw [hw, Function.update_self]
  exact hp hq

theorem notifyOne (hn : n ≤ 1) {t : Option (Fin n)} (hs : s.notifyOne t = some s')
    (h : ∀ w, (s.worker w).parked = false → (s.worker w).waitPred s.sh = false) : Ready s' := by
  rcases notifyOne_cases hs with ⟨w, -, hp, rfl⟩ | ⟨-, hp, rfl⟩
  · exact goto hn (w := w) rfl fun _ => Point.waitPred_wake _ hp
  · exact fun _ w => h w (hp w)

theorem acts (hn : n ≤ 1) (h : Ready s) (ha : Acts s w inp s') : Ready s' := by
  have hk := code_watches s.sh (s.worker w)
  cases ha with
  | tau hc => rw [hc] at hk; exact goto hn (w := w) rfl fun _ => hk
  | lock hc hfree => rw [hc] at hk; exact goto hn (w := w) rfl fun _ => hk
  | @unlock p hc =>
    rw [hc] at hk
    refine goto hn (w := w) rfl fun hq => ?_
    by_contra hp
    have := hk (by simpa using hp)
    rw [h hq w] at this
    cases this
  | notifyAllDone hc => rw [hc] at hk; exact goto hn (w := w) rfl fun _ => hk
  | extract hc hq => rw [hc] at hk; exact goto hn (w := w) rfl fun _ => hk _ _
  | insert hc => rw [hc] at hk; exact goto hn (w := w) rfl fun _ => hk.2 _
  | insertNotify hc hs =>
    rw [hc] at hk
    refine notifyOne hn hs fun w' _ => ?_
    obtain rfl : w' = w := Fin.ext (by omega)
    simpa using hk.2 _
  | spurious hc => rw [hc] at hk; exact goto hn (w := w) rfl fun _ => hk.1
  | timeout hc hd => rw [hc] at hk; exact goto hn (w := w) rfl fun _ => hk.2 _ rfl
  | call hc => rw [hc] at hk; exact goto hn (w := w) rfl fun _ => hk _
  | leave hc => rw [hc] at hk; exact goto hn (w := w) rfl fun _ => hk

theorem step (hn : n ≤ 1) (h : Ready s) (ho : Owners s) {l : Label φ n ψ} (hs : next s l = some s') : Ready s' := by
  rcases next_cases hs with ⟨t, -, -, rfl⟩ | ⟨f, period, t, -, hm, hs⟩ | ⟨-, rfl⟩ | ⟨-, hq, rfl⟩ | ⟨w, inp, -, ha⟩ |
    ⟨a, -, hw⟩
  · exact h
  · refine notifyOne hn hs fun w hp => Point.waitPred_eq_false _ hp ?_
    -- with the mutex free, nobody is between a test and the parking
    by_contra hown
    have := ho.worker w (by simpa using hown)
    rw [hm] at this
    cases this
  · intro hq
    cases hq
  · intro hq'
    rw [hq] at hq'
    cases hq'
  · exact h.acts hn ha
  · rcases stepWaiter_cases hw with ⟨p, -, rfl⟩ | ⟨p, -, -, rfl⟩ | ⟨p, -, rfl⟩ <;> exact h

theorem of_reach (hn : n ≤ 1) {ok : State φ n ψ → Label φ n ψ → Prop} (h : (system φ n ψ).Reach ok s) : Ready s :=
  h.invariant (I := Ready) (fun _ h₀ => init h₀) fun _ _ _ hr hi _ hs => hi.step hn (.of_reach hr) hs

end Ready

/-! ## Two workers -/

/-- At the time 0 some run reaches a state with this queue, this owner of `mtx_`, and the workers at these points. -/
def Visits (ψ : Type) [DecidableEq ψ] (queue : List (Node φ)) (mtx : Option (Owner n ψ)) (worker : Fin n → Point φ) :
    Prop :=
  ∃ s : State φ n ψ, (system φ n ψ).Reach (fun _ _ => True) s ∧ s.sh.now = 0 ∧ s.sh.queue = queue ∧
    s.sh.quit = false ∧ s.mtx = mtx ∧ s.worker = worker

namespace Visits

variable {queue : List (Node φ)} {mtx : Option (Owner n ψ)} {f : Fin n → Point φ} {p q : Point φ} {nd : Node φ}

theorem init : Visits (φ := φ) (n := n) ψ [] none fun _ => .loop :=
  ⟨State.blank, .init State.blank_initial, rfl, rfl, rfl, rfl, rfl⟩

theorem update_worker (hw : s.worker = Function.update f w p) :
    Function.update s.worker w q = Function.update f w q := by
  rw [hw, Function.update_idem]

theorem tau (h : Visits ψ queue mtx (Function.update f w p))
    (hc : ∀ sh : Shared φ, sh.now = 0 → sh.queue = queue → sh.quit = false → code sh p = .tau q) :
    Visits ψ queue mtx (Function.update f w q) := by
  obtain ⟨s, hr, hnow, hq, hquit, hm, hw⟩ := h
  have hcode : code s.sh (s.worker w) = .tau q := by
    rw [hw, Function.update_self]
    exact hc s.sh hnow hq hquit
  refine ⟨s.goto w q, hr.step (l := .worker w .none) trivial ?_, hnow, hq, hquit, hm, ?_⟩
  · simp [system, next, stepWorker, hcode]
  · exact update_worker hw

theorem lock (h : Visits ψ queue none (Function.update f w p)) (hc : ∀ sh : Shared φ, code sh p = .lock q) :
    Visits ψ queue (some (.worker w)) (Function.update f w q) := by
  obtain ⟨s, hr, hnow, hq, hquit, hm, hw⟩ := h
  have hcode : code s.sh (s.worker w) = .lock q := by
    rw [hw, Function.update_self]
    exact hc s.sh
  refine ⟨(s.setMtx (some (.worker w))).goto w q, hr.step (l := .worker w .none) trivial ?_, hnow, hq, hquit, rfl, ?_⟩
  · simp [system, next, stepWorker, hcode, hm]
  · exact update_worker hw

theorem unlock (h : Visits ψ queue mtx (Function.update f w p)) (hc : ∀ sh : Shared φ, code sh p = .unlock q) :
    Visits ψ queue none (Function.update f w q) := by
  obtain ⟨s, hr, hnow, hq, hquit, hm, hw⟩ := h
  have hcode : code s.sh (s.worker w) = .unlock q := by
    rw [hw, Function.update_self]
    exact hc s.sh
  refine ⟨(s.setMtx none).goto w q, hr.step (l := .worker w .none) trivial ?_, hnow, hq, hquit, rfl, ?_⟩
  · simp [system, next, stepWorker, hcode]
  · exact update_worker hw

theorem allDone (h : Visits ψ queue mtx (Function.update f w .testAllDone)) :
    Visits ψ queue mtx (Function.update f w .idleTest) := by
  by_cases hout : ∃ s : State φ n ψ, (system φ n ψ).Reach (fun _ _ => True) s ∧ s.sh.now = 0 ∧ s.sh.queue = queue ∧
      s.sh.quit = false ∧ s.mtx = mtx ∧ s.worker = Function.update f w .testAllDone ∧ s.sh.eventsOutOfQueue = 0
  · obtain ⟨s, hr, hnow, hq, hquit, hm, hw, hout⟩ := hout
    refine ⟨s.notifyAllDone.goto w .idleTest, hr.step (l := .worker w .none) trivial ?_, hnow, hq, hquit, hm, ?_⟩
    · simp [system, next, stepWorker, hw, code, hout]
    · exact update_worker hw
  · push Not at hout
    obtain ⟨s, hr, hnow, hq, hquit, hm, hw⟩ := h
    refine ⟨s.goto w .idleTest, hr.step (l := .worker w .none) trivial ?_, hnow, hq, hquit, hm, ?_⟩
    · simp [system, next, stepWorker, hw, code, hout s hr hnow hq hquit hm hw]
    · exact update_worker hw

theorem extract (h : Visits ψ (nd :: queue) mtx (Function.update f w .extract)) :
    Visits ψ queue mtx (Function.update f w (.untilTest nd)) := by
  obtain ⟨s, hr, hnow, hq, hquit, hm, hw⟩ := h
  refine ⟨((s.setQueue queue).addOut 1).goto w (.untilTest nd), hr.step (l := .worker w .none) trivial ?_, hnow, rfl,
    hquit, hm, ?_⟩
  · simp [system, next, stepWorker, hw, code, hq]
  · exact update_worker hw

theorem push (h : Visits ψ queue none (Function.update f w p)) (hp : p.parked = true) (e : φ) (period : ℤ) :
    Visits ψ (insertNode ⟨period, e, period⟩ queue) none (Function.update f w p.wake) := by
  obtain ⟨s, hr, hnow, hq, hquit, hm, hw⟩ := h
  refine ⟨(s.setQueue (insertNode ⟨period, e, period⟩ queue)).goto w p.wake,
    hr.step (l := .pushEvent e period (some w)) trivial ?_, hnow, rfl, hquit, hm, ?_⟩
  · simp [system, next, pushEvent, hm, State.notifyOne, hw, hp, hnow, hq]
  · exact update_worker hw

theorem parks (h : Visits ψ [] none (Function.update f w .loop)) :
    Visits ψ [] none (Function.update f w .idleParked) := by
  have h1 := h.tau (q := .lock) fun sh _ _ hquit => by simp [code, hquit]
  have h2 := (h1.lock fun _ => rfl).tau (q := .testAllDone) fun sh _ hq _ => by simp [code, hq]
  have h3 := h2.allDone.tau (q := .idlePark) fun sh _ hq hquit => by simp [code, Shared.idlePred, hq, hquit]
  exact h3.unlock fun _ => rfl

theorem all_park : Visits (φ := φ) (n := n) ψ [] none fun _ => .idleParked := by
  have hall : ∀ k ≤ n, Visits (φ := φ) (n := n) ψ [] none fun w => if w.val < k then .idleParked else .loop := by
    intro k hk
    induction k with
    | zero => exact init
    | succ k ih =>
      let w : Fin n := ⟨k, hk⟩
      let f : Fin n → Point φ := fun w => if w.val < k then .idleParked else .loop
      have hf : Function.update f w .loop = f := by
        rw [Function.update_eq_self_iff]
        simp [f, w]
      have hf' : Function.update f w .idleParked = fun w => if w.val < k + 1 then .idleParked else .loop := by
        funext w'
        by_cases hww : w' = w
        · subst hww
          simp [w]
        · have hne : w'.val ≠ k := fun he => hww (Fin.ext he)
          rw [Function.update_of_ne hww]
          by_cases hlt : w'.val < k
          · simp [f, hlt, Nat.lt_succ_of_lt hlt]
          · have : ¬ w'.val < k + 1 := by omega
            simp [f, hlt, this]
      rw [← hf']
      exact parks (by rw [hf]; exact ih (by omega))
  have h := hall n le_rfl
  simpa using h

theorem takes (h : Visits ψ [nd] none (Function.update f w .idleWoken)) :
    Visits ψ [] none (Function.update f w (.untilParked nd)) := by
  have h1 := (h.lock fun _ => rfl).tau (q := .testQuit) fun sh _ hq _ => by simp [code, Shared.idlePred, hq]
  have h2 := (h1.tau (q := .extract) fun sh _ _ hquit => by simp [code, hquit]).extract
  have h3 := h2.tau (q := .untilPark nd) fun sh _ hq hquit => by simp [code, Shared.untilPred, hq, hquit]
  exact h3.unlock fun _ => rfl

/-- A worker that has been woken for a node not due before its own parks again. -/
theorem reparks {nd' : Node φ} (hle : nd.key ≤ nd'.key)
    (h : Visits ψ [nd'] none (Function.update f w (.untilWoken nd))) :
    Visits ψ [nd'] none (Function.update f w (.untilParked nd)) := by
  have h1 := (h.lock fun _ => rfl).tau (q := .untilPark nd) fun sh _ hq hquit => by
    simp [code, Shared.untilPred, hq, hquit, hle]
  exact h1.unlock fun _ => rfl

end Visits

/-- **Two workers miss a wake-up.**  All park; one is woken for the first event and waits for its deadline; the
notification of the second event goes to the same worker, and parks it again. -/
theorem missed_of_two (e : φ) (hn : 2 ≤ n) :
    ∃ s : State φ n ψ, (system φ n ψ).Reach (fun _ _ => True) s ∧ Missed s := by
  let w₀ : Fin n := ⟨0, by omega⟩
  let w₁ : Fin n := ⟨1, by omega⟩
  let f : Fin n → Point φ := fun _ => .idleParked
  let nd : Node φ := ⟨10, e, 10⟩
  have h0 : Visits ψ [] none (Function.update f w₀ .idleParked) := by
    rw [Function.update_eq_self_iff.mpr rfl]
    exact Visits.all_park
  have h1 : Visits ψ [] none (Function.update f w₀ (.untilParked nd)) := (h0.push rfl e 10).takes
  have h2 : Visits ψ [nd] none (Function.update f w₀ (.untilParked nd)) :=
    Visits.reparks le_rfl (h1.push rfl e 10)
  obtain ⟨s, hr, -, hq, hquit, hm, hw⟩ := h2
  refine ⟨s, hr, hquit, hm, ⟨w₁, ?_⟩, fun w => .inl ?_⟩
  · have hne : w₁ ≠ w₀ := by simp [w₀, w₁]
    rw [hw, Function.update_of_ne hne]
    exact ⟨rfl, by simp [f, Point.waitPred, Shared.idlePred, hq]⟩
  · rw [hw]
    by_cases hww : w = w₀
    · rw [hww, Function.update_self]
      rfl
    · rw [Function.update_of_ne hww]
      rfl

/-- **The queue misses no wake-up if and only if it has at most one worker.** -/
theorem no_missed_wakeup_iff (φ : Type) [Inhabited φ] (n : ℕ) (ψ : Type) [DecidableEq ψ] :
    (∀ s : State φ n ψ, (system φ n ψ).Reach (fun _ _ => True) s → ¬ Missed s) ↔ n ≤ 1 := by
  constructor
  · intro hall
    by_contra hn
    obtain ⟨s, hr, hmiss⟩ := missed_of_two (ψ := ψ) (default : φ) (n := n) (by omega)
    exact hall s hr hmiss
  · intro hn s hr hmiss
    obtain ⟨w, -, hpred⟩ := hmiss.stuck
    rw [Ready.of_reach hn hr hmiss.quit w] at hpred
    cases hpred

/-- The queue of the lock manager, with its eight workers. -/
theorem eight_workers_miss : ¬ ∀ s : State Unit 8 Empty, (system Unit 8 Empty).Reach (fun _ _ => True) s →
    ¬ Missed s := by
  intro hall
  obtain ⟨s, hr, hmiss⟩ := missed_of_two (ψ := Empty) () (n := 8) (by decide)
  exact hall s hr hmiss

end DistributedLock.TimeoutQueue
