import DistributedLock.TimeoutQueue.Code

/-!
# What a step of the queue can do

* `Acts`, `stepWorker_cases`: the cases of a worker's step, with everything each of them changes; `next_cases` for the
  whole system;
* `Instr.Leads`, `all_next`: what the instructions of all workers lead to;
* `Point.owns`, `Owners`: where a thread owns `mtx_`, and so nobody else does.
-/

set_option linter.unusedSectionVars false

namespace DistributedLock.TimeoutQueue

open Lib

variable {φ : Type} {n : ℕ} {ψ : Type} [DecidableEq ψ] {s s' : State φ n ψ} {w : Fin n} {inp : Input n}

/-! ## Inversion -/

theorem notifyOne_cases {t : Option (Fin n)} (h : s.notifyOne t = some s') :
    (∃ w, t = some w ∧ (s.worker w).parked = true ∧ s' = s.goto w (s.worker w).wake) ∨
    (t = none ∧ (∀ w, (s.worker w).parked = false) ∧ s' = s) := by
  cases t with
  | some w =>
    simp only [State.notifyOne] at h
    split at h
    · rename_i hp; cases h; exact .inl ⟨w, rfl, hp, rfl⟩
    · cases h
  | none =>
    simp only [State.notifyOne] at h
    split at h
    · rename_i hp; cases h; exact .inr ⟨rfl, hp, rfl⟩
    · cases h

/-- The steps of the worker `w`. -/
inductive Acts (s : State φ n ψ) (w : Fin n) : Input n → State φ n ψ → Prop
  | tau {p : Point φ} (hc : code s.sh (s.worker w) = .tau p) : Acts s w .none (s.goto w p)
  | lock {p : Point φ} (hc : code s.sh (s.worker w) = .lock p) (hfree : s.mtx = none) :
      Acts s w .none ((s.setMtx (some (.worker w))).goto w p)
  | unlock {p : Point φ} (hc : code s.sh (s.worker w) = .unlock p) : Acts s w .none ((s.setMtx none).goto w p)
  | notifyAllDone {p : Point φ} (hc : code s.sh (s.worker w) = .notifyAllDone p) :
      Acts s w .none (s.notifyAllDone.goto w p)
  | extract {k : Node φ → Point φ} {nd : Node φ} {rest : List (Node φ)}
      (hc : code s.sh (s.worker w) = .extract k) (hq : s.sh.queue = nd :: rest) :
      Acts s w .none (((s.setQueue rest).addOut 1).goto w (k nd))
  | insert {nd : Node φ} {p : Point φ} (hc : code s.sh (s.worker w) = .insert nd false p) :
      Acts s w .none ((s.setQueue (insertNode nd s.sh.queue)).goto w p)
  | insertNotify {nd : Node φ} {p : Point φ} {t : Option (Fin n)} {s' : State φ n ψ}
      (hc : code s.sh (s.worker w) = .insert nd true p)
      (hn : ((s.setQueue (insertNode nd s.sh.queue)).goto w p).notifyOne t = some s') : Acts s w (.wake t) s'
  | spurious {p : Point φ} {d : Option (ℤ × Point φ)} (hc : code s.sh (s.worker w) = .parked p d) :
      Acts s w .spurious (s.goto w p)
  | timeout {p p' : Point φ} {deadline : ℤ} (hc : code s.sh (s.worker w) = .parked p (some (deadline, p')))
      (hd : deadline ≤ s.sh.now) : Acts s w .timeout (s.goto w p')
  | call {f : φ} {k : Bool → Point φ} {isRepeat : Bool} (hc : code s.sh (s.worker w) = .call f k) :
      Acts s w (.result isRepeat) (s.goto w (k isRepeat))
  | leave {owns : Bool} {p : Point φ} (hc : code s.sh (s.worker w) = .leave owns p) :
      Acts s w .none (((s.addOut (-1)).setMtx (if owns then none else s.mtx)).goto w p)

/-- **Inversion of a worker's step.** -/
theorem stepWorker_cases (h : stepWorker s w inp = some s') : Acts s w inp s' := by
  unfold stepWorker at h
  split at h
  · cases h; exact .tau ‹_›
  · rename_i hc
    split at h
    · cases h; exact .lock hc ‹_›
    · cases h
  · cases h; exact .unlock ‹_›
  · cases h; exact .notifyAllDone ‹_›
  · rename_i hc
    split at h
    · cases h
    · cases h; exact .extract hc ‹_›
  · cases h; exact .insert ‹_›
  · exact .insertNotify ‹_› h
  · cases h; exact .spurious ‹_›
  · rename_i hc
    split at h
    · cases h; exact .timeout hc ‹_›
    · cases h
  · cases h; exact .call ‹_›
  · cases h; exact .leave ‹_›
  · cases h

theorem stepWaiter_cases {a : ψ} (h : stepWaiter s a = some s') :
    (∃ p, allDoneCode s.sh (s.waiter a) = .tau p ∧ s' = s.gotoWaiter a p) ∨
    (∃ p, allDoneCode s.sh (s.waiter a) = .lock p ∧ s.mtx = none ∧
      s' = (s.setMtx (some (.waiter a))).gotoWaiter a p) ∨
    ∃ p, allDoneCode s.sh (s.waiter a) = .unlock p ∧ s' = (s.setMtx none).gotoWaiter a p := by
  unfold stepWaiter at h
  split at h
  · cases h; exact .inl ⟨_, ‹_›, rfl⟩
  · rename_i p hc
    split at h
    · cases h; exact .inr (.inl ⟨p, hc, ‹_›, rfl⟩)
    · cases h
  · cases h; exact .inr (.inr ⟨_, ‹_›, rfl⟩)

/-- **Inversion of a step.** -/
theorem next_cases {l : Label φ n ψ} (h : next s l = some s') :
    (∃ t, l = .tick t ∧ s.sh.now ≤ t ∧ s' = { s with sh := { s.sh with now := t } }) ∨
    (∃ f period t, l = .pushEvent f period t ∧ s.mtx = none ∧
      (s.setQueue (insertNode ⟨s.sh.now + period, f, period⟩ s.sh.queue)).notifyOne t = some s') ∨
    (l = .quitStore ∧ s' = { s with sh := { s.sh with quit := true } }) ∨
    (l = .quitNotify ∧ s.sh.quit = true ∧ s' = { s with worker := fun w => (s.worker w).wake }) ∨
    (∃ w inp, l = .worker w inp ∧ Acts s w inp s') ∨
    ∃ a, l = .waiter a ∧ stepWaiter s a = some s' := by
  cases l with
  | tick t =>
    simp only [next] at h
    split at h
    · rename_i ht; cases h; exact .inl ⟨t, rfl, ht, rfl⟩
    · cases h
  | pushEvent f period t =>
    simp only [next, pushEvent] at h
    split at h
    · rename_i hm; exact .inr (.inl ⟨f, period, t, rfl, hm, h⟩)
    · cases h
  | quitStore => cases h; exact .inr (.inr (.inl ⟨rfl, rfl⟩))
  | quitNotify =>
    simp only [next] at h
    split at h
    · rename_i hq; cases h; exact .inr (.inr (.inr (.inl ⟨rfl, hq, rfl⟩)))
    · cases h
  | worker w inp => exact .inr (.inr (.inr (.inr (.inl ⟨w, inp, rfl, stepWorker_cases h⟩))))
  | waiter a => exact .inr (.inr (.inr (.inr (.inr ⟨a, rfl, h⟩))))

/-! ## Where the instructions lead to -/

/-- The points that an instruction leads to meet `P`. -/
def Instr.Leads (P : Point φ → Prop) : Instr φ → Prop
  | .tau p | .lock p | .unlock p | .notifyAllDone p | .insert _ _ p | .leave _ p => P p
  | .extract k => ∀ nd, P (k nd)
  | .parked p d => P p ∧ ∀ x ∈ d, P x.2
  | .call _ k => ∀ b, P (k b)
  | .ret => True

section Leads

variable {P : Point φ → Prop}

theorem all_update {p : Point φ} (h : ∀ w, P (s.worker w)) (hp : P p)
    (hw : s'.worker = Function.update s.worker w p) : ∀ w, P (s'.worker w) := by
  intro w'
  rw [hw]
  by_cases hww : w' = w
  · rw [hww, Function.update_self]
    exact hp
  · rw [Function.update_of_ne hww]
    exact h w'

theorem all_notifyOne {t : Option (Fin n)} (hs : s.notifyOne t = some s') (hwake : ∀ p, P p → P p.wake)
    (h : ∀ w, P (s.worker w)) : ∀ w, P (s'.worker w) := by
  rcases notifyOne_cases hs with ⟨w, -, -, rfl⟩ | ⟨-, -, rfl⟩
  · exact all_update h (hwake _ (h w)) rfl
  · exact h

theorem all_acts (ha : Acts s w inp s') (hlead : (code s.sh (s.worker w)).Leads P) (hwake : ∀ p, P p → P p.wake)
    (h : ∀ w, P (s.worker w)) : ∀ w, P (s'.worker w) := by
  cases ha with
  | tau hc => rw [hc] at hlead; exact all_update h hlead rfl
  | lock hc hfree => rw [hc] at hlead; exact all_update h hlead rfl
  | unlock hc => rw [hc] at hlead; exact all_update h hlead rfl
  | notifyAllDone hc => rw [hc] at hlead; exact all_update h hlead rfl
  | extract hc hq => rw [hc] at hlead; exact all_update h (hlead _) rfl
  | insert hc => rw [hc] at hlead; exact all_update h hlead rfl
  | @insertNotify nd p t s' hc hn =>
    rw [hc] at hlead
    have hgo : ∀ w', P (((s.setQueue (insertNode nd s.sh.queue)).goto w p).worker w') := all_update h hlead rfl
    exact all_notifyOne hn hwake hgo
  | spurious hc => rw [hc] at hlead; exact all_update h hlead.1 rfl
  | timeout hc hd => rw [hc] at hlead; exact all_update h (hlead.2 _ rfl) rfl
  | call hc => rw [hc] at hlead; exact all_update h (hlead _) rfl
  | leave hc => rw [hc] at hlead; exact all_update h hlead rfl

/-- **What the code leads to, all workers meet.** -/
theorem all_next {l : Label φ n ψ} (hs : next s l = some s') (hlead : ∀ w, (code s.sh (s.worker w)).Leads P)
    (hwake : ∀ p, P p → P p.wake) (h : ∀ w, P (s.worker w)) : ∀ w, P (s'.worker w) := by
  rcases next_cases hs with ⟨t, -, -, rfl⟩ | ⟨f, period, t, -, -, hn⟩ | ⟨-, rfl⟩ | ⟨-, -, rfl⟩ | ⟨w, inp, -, ha⟩ |
    ⟨a, -, hw⟩
  · exact h
  · exact all_notifyOne hn hwake h
  · exact h
  · exact fun w => hwake _ (h w)
  · exact all_acts ha (hlead w) hwake h
  · rcases stepWaiter_cases hw with ⟨p, -, rfl⟩ | ⟨p, -, -, rfl⟩ | ⟨p, -, rfl⟩ <;> exact h

end Leads

/-! ## Who owns `mtx_` -/

/-- The worker owns `mtx_` at this program point. -/
def Point.owns : Point φ → Bool
  | .testEmpty | .testAllDone | .idleTest | .idlePark | .testQuit | .extract | .untilTest _ | .untilPark _
  | .testDue _ | .reinsert _ | .putBack _ => true
  | .leave owns => owns
  | _ => false

def AllDonePoint.owns : AllDonePoint → Bool
  | .test | .park | .returned => true
  | _ => false

@[simp] theorem Point.wake_owns (p : Point φ) : p.wake.owns = p.owns := by cases p <;> rfl

@[simp] theorem AllDonePoint.wake_owns (p : AllDonePoint) : p.wake.owns = p.owns := by cases p <;> rfl

/-- What each instruction does to the ownership of `mtx_`. -/
def Keeps (owns : Bool) : Instr φ → Prop
  | .tau p | .notifyAllDone p => p.owns = owns
  | .lock p => owns = false ∧ p.owns = true
  | .unlock p => owns = true ∧ p.owns = false
  | .extract k => owns = true ∧ ∀ nd, (k nd).owns = true
  | .insert _ _ p => owns = true ∧ p.owns = true
  | .parked p d => owns = false ∧ p.owns = false ∧ ∀ x ∈ d, x.2.owns = false
  | .call _ k => owns = false ∧ ∀ b, (k b).owns = false
  | .leave b p => owns = b ∧ p.owns = false
  | .ret => owns = false

theorem code_keeps (sh : Shared φ) (p : Point φ) : Keeps p.owns (code sh p) := by
  cases p with
  | loop | testEmpty | idleTest | untilTest _ => simp only [code]; split <;> rfl
  | testAllDone => simp only [code]; split <;> rfl
  | testQuit | testDue _ =>
    simp only [code]
    split
    · exact ⟨rfl, rfl⟩
    · rfl
  | run nd => refine ⟨rfl, fun b => ?_⟩; beta_reduce; split <;> rfl
  | _ => simp [code, Keeps, Point.owns]

/-- What `WaitUntilAllDone` does to it. -/
def AllDoneKeeps (owns : Bool) : AllDoneInstr → Prop
  | .tau p => p.owns = owns
  | .lock p => owns = false ∧ p.owns = true
  | .unlock p => owns = true ∧ p.owns = false

theorem allDoneCode_keeps (sh : Shared φ) (p : AllDonePoint) : AllDoneKeeps p.owns (allDoneCode sh p) := by
  cases p with
  | test => simp only [allDoneCode]; split <;> rfl
  | _ => simp [allDoneCode, AllDoneKeeps, AllDonePoint.owns]

/-- Who stands at a point of the critical sections is the owner of `mtx_`. -/
structure Owners (s : State φ n ψ) : Prop where
  worker : ∀ w, (s.worker w).owns = true → s.mtx = some (.worker w)
  waiter : ∀ a, (s.waiter a).owns = true → s.mtx = some (.waiter a)

namespace Owners

theorem init (h : Initial s) : Owners s := by
  refine ⟨fun w hown => ?_, fun a hown => ?_⟩
  · rw [h.worker] at hown
    cases hown
  · rw [h.waiter] at hown
    cases hown

/-- A step that neither moves the mutex nor lets anybody into a critical section or out of one. -/
theorem quiet (h : Owners s) (hm : s'.mtx = s.mtx) (hw : ∀ w, (s'.worker w).owns = (s.worker w).owns)
    (ha : ∀ a, (s'.waiter a).owns = (s.waiter a).owns) : Owners s' := by
  refine ⟨fun w hown => ?_, fun a hown => ?_⟩
  · rw [hm]; exact h.worker w (hw w ▸ hown)
  · rw [hm]; exact h.waiter a (ha a ▸ hown)

theorem goto (h : Owners s) {p : Point φ} (hm : s'.mtx = s.mtx) (hw : s'.worker = Function.update s.worker w p)
    (ha : ∀ a, (s'.waiter a).owns = (s.waiter a).owns) (hp : p.owns = (s.worker w).owns) : Owners s' := by
  refine h.quiet hm (fun w' => ?_) ha
  rw [hw]
  by_cases hww : w' = w
  · rw [hww, Function.update_self]
    exact hp
  · rw [Function.update_of_ne hww]

theorem lock (h : Owners s) (hfree : s.mtx = none) {p : Point φ} :
    Owners ((s.setMtx (some (.worker w))).goto w p) := by
  refine ⟨fun w' hown => ?_, fun a hown => ?_⟩
  · by_cases hww : w' = w
    · rw [hww]; rfl
    · simp only [State.goto_worker, State.setMtx_worker, Function.update_of_ne hww] at hown
      have := h.worker w' hown
      rw [hfree] at this
      cases this
  · have := h.waiter a hown
    rw [hfree] at this
    cases this

theorem unlock (h : Owners s) (hown : (s.worker w).owns = true) {p : Point φ}
    (hw : s'.worker = Function.update s.worker w p) (ha : s'.waiter = s.waiter) (hp : p.owns = false) :
    Owners s' := by
  have hm := h.worker w hown
  refine ⟨fun w' hown' => ?_, fun a hown' => ?_⟩
  · rw [hw] at hown'
    by_cases hww : w' = w
    · rw [hww, Function.update_self, hp] at hown'
      cases hown'
    · rw [Function.update_of_ne hww] at hown'
      have := h.worker w' hown'
      rw [hm] at this
      cases this
      exact absurd rfl hww
  · rw [ha] at hown'
    have := h.waiter a hown'
    rw [hm] at this
    cases this

theorem notifyOne (h : Owners s) {t : Option (Fin n)} (hs : s.notifyOne t = some s') : Owners s' := by
  rcases notifyOne_cases hs with ⟨w, -, -, rfl⟩ | ⟨-, -, rfl⟩
  · exact h.goto rfl rfl (fun _ => rfl) (Point.wake_owns _)
  · exact h

theorem acts (h : Owners s) (ha : Acts s w inp s') : Owners s' := by
  have hk := code_keeps s.sh (s.worker w)
  cases ha with
  | tau hc => rw [hc] at hk; exact h.goto rfl rfl (fun _ => rfl) hk
  | lock hc hfree => exact h.lock hfree
  | unlock hc => rw [hc] at hk; exact h.unlock hk.1 rfl rfl hk.2
  | notifyAllDone hc => rw [hc] at hk; exact h.goto rfl rfl (fun a => AllDonePoint.wake_owns _) hk
  | extract hc hq => rw [hc] at hk; exact h.goto rfl rfl (fun _ => rfl) ((hk.2 _).trans hk.1.symm)
  | insert hc => rw [hc] at hk; exact h.goto rfl rfl (fun _ => rfl) (hk.2.trans hk.1.symm)
  | @insertNotify nd p t s' hc hn =>
    rw [hc] at hk
    have hgo : Owners ((s.setQueue (insertNode nd s.sh.queue)).goto w p) :=
      h.goto rfl rfl (fun _ => rfl) (hk.2.trans hk.1.symm)
    exact hgo.notifyOne hn
  | spurious hc => rw [hc] at hk; exact h.goto rfl rfl (fun _ => rfl) (hk.2.1.trans hk.1.symm)
  | timeout hc hd => rw [hc] at hk; exact h.goto rfl rfl (fun _ => rfl) ((hk.2.2 _ rfl).trans hk.1.symm)
  | call hc => rw [hc] at hk; exact h.goto rfl rfl (fun _ => rfl) ((hk.2 _).trans hk.1.symm)
  | @leave owns p hc =>
    rw [hc] at hk
    cases owns with
    | true => exact h.unlock hk.1 rfl rfl hk.2
    | false => exact h.goto rfl rfl (fun _ => rfl) (hk.2.trans hk.1.symm)

theorem waits (h : Owners s) {a : ψ} (hs : stepWaiter s a = some s') : Owners s' := by
  have hk := allDoneCode_keeps s.sh (s.waiter a)
  rcases stepWaiter_cases hs with ⟨p, hc, rfl⟩ | ⟨p, hc, hfree, rfl⟩ | ⟨p, hc, rfl⟩
  · rw [hc] at hk
    refine h.quiet rfl (fun _ => rfl) fun a' => ?_
    by_cases haa : a' = a
    · subst haa; simpa using show p.owns = _ from hk
    · simp [Function.update_of_ne haa]
  · refine ⟨fun w hown => ?_, fun a' hown => ?_⟩
    · have := h.worker w hown
      rw [hfree] at this
      cases this
    · by_cases haa : a' = a
      · rw [haa]; rfl
      · simp only [State.gotoWaiter_waiter, State.setMtx_waiter, Function.update_of_ne haa] at hown
        have := h.waiter a' hown
        rw [hfree] at this
        cases this
  · rw [hc] at hk
    have hm := h.waiter a hk.1
    refine ⟨fun w hown => ?_, fun a' hown => ?_⟩
    · have := h.worker w hown
      rw [hm] at this
      cases this
    · by_cases haa : a' = a
      · subst haa
        simp [hk.2] at hown
      · simp only [State.gotoWaiter_waiter, State.setMtx_waiter, Function.update_of_ne haa] at hown
        have := h.waiter a' hown
        rw [hm] at this
        cases this
        exact absurd rfl haa

theorem step (h : Owners s) {l : Label φ n ψ} (hs : next s l = some s') : Owners s' := by
  rcases next_cases hs with ⟨t, -, -, rfl⟩ | ⟨f, period, t, -, -, hn⟩ | ⟨-, rfl⟩ | ⟨-, -, rfl⟩ | ⟨w, inp, -, ha⟩ |
    ⟨a, -, hw⟩
  · exact ⟨h.worker, h.waiter⟩
  · have hq : Owners (s.setQueue (insertNode ⟨s.sh.now + period, f, period⟩ s.sh.queue)) := ⟨h.worker, h.waiter⟩
    exact hq.notifyOne hn
  · exact ⟨h.worker, h.waiter⟩
  · exact h.quiet rfl (fun w => Point.wake_owns _) fun _ => rfl
  · exact h.acts ha
  · exact h.waits hw

/-- **The discipline of `mtx_`**, in every reachable state. -/
theorem of_reach {ok : State φ n ψ → Label φ n ψ → Prop} (h : (system φ n ψ).Reach ok s) : Owners s :=
  h.invariant (I := Owners) (fun _ h₀ => init h₀) fun _ _ _ _ hi _ hn => hi.step hn

end Owners

end DistributedLock.TimeoutQueue
