import DistributedLock.Lib.Counting
import DistributedLock.TimeoutQueue.Events

/-!
# What `WaitUntilAllDone` waits for

`events_out_of_queue_` is raised with `mtx_` owned, before a node is extracted, and lowered by the destructor of
`at_exit`, which runs after the node has been put back or destroyed.  So it is the number of the workers in the scope
of `at_exit` (`Tallied`), and a worker that has a node in hand is one of them.

* `Idle`: nothing is queued, in hand, or running; only `PushEvent` ends it (`idle_step`);
* `all_done_sound`: the system is idle when `WaitUntilAllDone` returns, and until the next `PushEvent`.
-/

set_option linter.unusedSectionVars false

namespace DistributedLock.TimeoutQueue

open Lib

variable {φ : Type} {n : ℕ} {ψ : Type} [DecidableEq ψ] {s s' : State φ n ψ} {w : Fin n} {inp : Input n}

/-! ## The counter -/

/-- The worker is in the scope of `at_exit`. -/
def Point.counted : Point φ → Bool
  | .untilTest _ | .untilPark _ | .untilParked _ | .untilWoken _ | .untilTimedOut _ | .testDue _ | .run _
  | .relock _ | .reinsert _ | .putBack _ | .leave _ => true
  | _ => false

@[simp] theorem Point.wake_counted (p : Point φ) : p.wake.counted = p.counted := by cases p <;> rfl

theorem Point.node_of_counted {p : Point φ} (h : p.counted = false) : p.node = none := by
  cases p <;> first | rfl | cases h

def Counts (counted : Bool) : Instr φ → Prop
  | .tau p | .lock p | .unlock p | .notifyAllDone p | .insert _ _ p => p.counted = counted
  | .extract k => counted = false ∧ ∀ nd, (k nd).counted = true
  | .parked p d => p.counted = counted ∧ ∀ x ∈ d, x.2.counted = counted
  | .call _ k => ∀ b, (k b).counted = counted
  | .leave _ p => counted = true ∧ p.counted = false
  | .ret => True

theorem code_counts (sh : Shared φ) (p : Point φ) : Counts p.counted (code sh p) := by
  cases p with
  | loop | testEmpty | idleTest | untilTest _ => simp only [code]; split <;> rfl
  | testAllDone | testQuit | testDue _ => simp only [code]; split <;> rfl
  | run nd => intro b; beta_reduce; split <;> rfl
  | _ => simp [code, Counts, Point.counted]

/-- The number of the workers in the scope of `at_exit`. -/
def State.counted (s : State φ n ψ) : ℕ := ∑ w, (s.worker w).counted.toNat

/-- `events_out_of_queue_` is their number. -/
def Tallied (s : State φ n ψ) : Prop := s.sh.eventsOutOfQueue = s.counted

namespace Tallied

theorem init (h : Initial s) : Tallied s := by
  have hnone : s.counted = 0 := by
    refine Finset.sum_eq_zero fun w _ => ?_
    rw [h.worker w]
    rfl
  rw [Tallied, h.eventsOutOfQueue, hnone]
  rfl

theorem update (h : Tallied s) {p : Point φ} (hw : s'.worker = Function.update s.worker w p)
    (hout : s'.sh.eventsOutOfQueue + (s.worker w).counted.toNat = s.sh.eventsOutOfQueue + p.counted.toNat) :
    Tallied s' := by
  have hsum := sum_update_add (fun p : Point φ => p.counted.toNat) s.worker w p
  unfold Tallied State.counted at h ⊢
  rw [hw]
  omega

theorem goto (h : Tallied s) {p : Point φ} (hout : s'.sh.eventsOutOfQueue = s.sh.eventsOutOfQueue)
    (hw : s'.worker = Function.update s.worker w p) (hp : p.counted = (s.worker w).counted) : Tallied s' :=
  h.update hw (by rw [hout, hp])

theorem notifyOne (h : Tallied s) {t : Option (Fin n)} (hs : s.notifyOne t = some s') : Tallied s' := by
  rcases notifyOne_cases hs with ⟨w, -, -, rfl⟩ | ⟨-, -, rfl⟩
  · exact h.goto (w := w) rfl rfl (Point.wake_counted _)
  · exact h

theorem acts (h : Tallied s) (ha : Acts s w inp s') : Tallied s' := by
  have hk := code_counts s.sh (s.worker w)
  cases ha with
  | tau hc => rw [hc] at hk; exact h.goto rfl rfl hk
  | lock hc hfree => rw [hc] at hk; exact h.goto rfl rfl hk
  | unlock hc => rw [hc] at hk; exact h.goto rfl rfl hk
  | notifyAllDone hc => rw [hc] at hk; exact h.goto rfl rfl hk
  | @extract k nd rest hc hq =>
    rw [hc] at hk
    refine h.update rfl ?_
    rw [hk.1, hk.2 nd]
    show s.sh.eventsOutOfQueue + 1 + 0 = s.sh.eventsOutOfQueue + 1
    omega
  | insert hc => rw [hc] at hk; exact h.goto rfl rfl hk
  | @insertNotify nd p t s' hc hn =>
    rw [hc] at hk
    have hgo : Tallied ((s.setQueue (insertNode nd s.sh.queue)).goto w p) := h.goto rfl rfl hk
    exact hgo.notifyOne hn
  | spurious hc => rw [hc] at hk; exact h.goto rfl rfl hk.1
  | timeout hc hd => rw [hc] at hk; exact h.goto rfl rfl (hk.2 _ rfl)
  | call hc => rw [hc] at hk; exact h.goto rfl rfl (hk _)
  | @leave owns p hc =>
    rw [hc] at hk
    refine h.update rfl ?_
    rw [hk.1, hk.2]
    show s.sh.eventsOutOfQueue + -1 + 1 = s.sh.eventsOutOfQueue + 0
    omega

theorem step (h : Tallied s) {l : Label φ n ψ} (hs : next s l = some s') : Tallied s' := by
  rcases next_cases hs with ⟨t, -, -, rfl⟩ | ⟨f, period, t, -, -, hn⟩ | ⟨-, rfl⟩ | ⟨-, -, rfl⟩ | ⟨w, inp, -, ha⟩ |
    ⟨a, -, hw⟩
  · exact h
  · have hq : Tallied (s.setQueue (insertNode ⟨s.sh.now + period, f, period⟩ s.sh.queue)) := h
    exact hq.notifyOne hn
  · exact h
  · unfold Tallied State.counted at h ⊢
    simpa only [Point.wake_counted] using h
  · exact h.acts ha
  · rcases stepWaiter_cases hw with ⟨p, -, rfl⟩ | ⟨p, -, -, rfl⟩ | ⟨p, -, rfl⟩ <;> exact h

end Tallied

/-! ## Nothing is left -/

/-- No event is in the queue or in the hands of a worker, and no event function is running. -/
structure Idle (s : State φ n ψ) : Prop where
  queue : s.sh.queue = []
  hands : ∀ w, (s.worker w).node = none
  running : ∀ w, (s.worker w).running = false

theorem Point.running_of_node {p : Point φ} (h : p.node = none) : p.running = false := by
  cases p <;> first | rfl | cases h

theorem Idle.of_hands (hq : s.sh.queue = []) (h : ∀ w, (s.worker w).node = none) : Idle s :=
  ⟨hq, h, fun w => Point.running_of_node (h w)⟩

theorem Tallied.idle (h : Tallied s) (hq : s.sh.queue = []) (hout : s.sh.eventsOutOfQueue = 0) : Idle s := by
  have hzero : s.counted = 0 := by
    unfold Tallied at h
    omega
  refine .of_hands hq fun w => Point.node_of_counted ?_
  have hw := Finset.sum_eq_zero_iff.mp hzero w (Finset.mem_univ w)
  simpa using hw

/-- The step is no `PushEvent`. -/
def NoPush (_ : State φ n ψ) (l : Label φ n ψ) : Prop := ∀ f period t, l ≠ .pushEvent f period t

/-- A worker without a node gets one from the queue only. -/
theorem leads_of_hands {i : Instr φ} (h : Hands none i) (hne : ∀ k, i ≠ .extract k) :
    i.Leads fun p => p.node = none := by
  cases i with
  | extract k => exact absurd rfl (hne k)
  | call f k =>
    obtain ⟨nd, hnd, -⟩ := h
    cases hnd
  | insert nd b p => exact h.2
  | leave b p => exact h.2
  | ret => trivial
  | _ => exact h

/-- **Only `PushEvent` brings an event.** -/
theorem idle_step {l : Label φ n ψ} (h : Idle s) (hl : NoPush s l) (hs : next s l = some s') : Idle s' := by
  rcases next_cases hs with ⟨t, -, -, rfl⟩ | ⟨f, period, t, rfl, -, -⟩ | ⟨-, rfl⟩ | ⟨-, -, rfl⟩ | ⟨w, inp, -, ha⟩ |
    ⟨a, -, hw⟩
  · exact ⟨h.queue, h.hands, h.running⟩
  · exact absurd rfl (hl f period t)
  · exact ⟨h.queue, h.hands, h.running⟩
  · exact .of_hands h.queue fun w => (Point.wake_node _).trans (h.hands w)
  · have hhands := code_hands s.sh (s.worker w)
    rw [h.hands w] at hhands
    have hne : ∀ k, code s.sh (s.worker w) ≠ .extract k := by
      intro k hk
      cases ha with
      | extract hc hq =>
        rw [h.queue] at hq
        cases hq
      | tau hc | lock hc | unlock hc | notifyAllDone hc | insert hc | insertNotify hc | spurious hc | timeout hc
      | call hc | leave hc =>
        rw [hk] at hc
        cases hc
    refine .of_hands ?_ (all_acts ha (leads_of_hands hhands hne) (fun p hp => (Point.wake_node p).trans hp) h.hands)
    cases ha with
    | extract hc hq => exact absurd hc (hne _)
    | insert hc | insertNotify hc hn =>
      rw [hc] at hhands
      cases hhands.1
    | _ => exact h.queue
  · rcases stepWaiter_cases hw with ⟨p, -, rfl⟩ | ⟨p, -, -, rfl⟩ | ⟨p, -, rfl⟩ <;>
      exact ⟨h.queue, h.hands, h.running⟩

/-! ## The return of `WaitUntilAllDone` -/

/-- While a caller of `WaitUntilAllDone` has its lock, the system is idle. -/
def Sound (s : State φ n ψ) : Prop := ∀ a, s.waiter a = .returned → Idle s

/-- A caller that has just returned has found the queue empty and the counter at zero. -/
theorem returns_of_waiter {a a' : ψ} (hs : stepWaiter s a = some s') (hbefore : s.waiter a' ≠ .returned)
    (hafter : s'.waiter a' = .returned) :
    s.sh.queue = [] ∧ s.sh.eventsOutOfQueue = 0 ∧ s'.sh = s.sh ∧ s'.worker = s.worker := by
  have hself : ∀ {p : AllDonePoint}, Function.update s.waiter a p a' = .returned → a' = a ∧ p = .returned := by
    intro p hp
    by_cases haa : a' = a
    · subst haa
      exact ⟨rfl, by rwa [Function.update_self] at hp⟩
    · rw [Function.update_of_ne haa] at hp
      exact absurd hp hbefore
  rcases stepWaiter_cases hs with ⟨p, hc, rfl⟩ | ⟨p, hc, -, rfl⟩ | ⟨p, hc, rfl⟩
  · obtain ⟨rfl, rfl⟩ := hself hafter
    cases hp : s.waiter a' with
    | test =>
      rw [hp] at hc
      simp only [allDoneCode, AllDoneInstr.tau.injEq] at hc
      split at hc
      · rename_i hpred
        simp only [Bool.and_eq_true, List.isEmpty_iff, decide_eq_true_eq] at hpred
        exact ⟨hpred.1, hpred.2, rfl, rfl⟩
      · cases hc
    | _ => rw [hp] at hc; cases hc
  · obtain ⟨rfl, rfl⟩ := hself hafter
    cases hp : s.waiter a' <;> rw [hp] at hc <;> cases hc
  · obtain ⟨rfl, rfl⟩ := hself hafter
    cases hp : s.waiter a' <;> rw [hp] at hc <;> cases hc

theorem waiter_of_next {l : Label φ n ψ} (hl : ∀ a, l ≠ .waiter a) (hs : next s l = some s') {a : ψ}
    (hafter : s'.waiter a = .returned) : s.waiter a = .returned := by
  have hnot : ∀ {t t' : State φ n ψ} {o : Option (Fin n)}, t.notifyOne o = some t' → t'.waiter = t.waiter := by
    intro t t' o hn
    rcases notifyOne_cases hn with ⟨w, -, -, rfl⟩ | ⟨-, -, rfl⟩ <;> rfl
  have hwake : ∀ p : AllDonePoint, p.wake = .returned → p = .returned := by
    intro p hp
    cases p <;> first | rfl | cases hp
  rcases next_cases hs with ⟨t, -, -, rfl⟩ | ⟨f, period, t, -, -, hn⟩ | ⟨-, rfl⟩ | ⟨-, -, rfl⟩ | ⟨w, inp, -, ha⟩ |
    ⟨a, rfl, hw⟩
  · exact hafter
  · rw [hnot hn] at hafter
    exact hafter
  · exact hafter
  · exact hafter
  · cases ha with
    | notifyAllDone hc => exact hwake _ hafter
    | insertNotify hc hn =>
      rw [hnot hn] at hafter
      exact hafter
    | _ => exact hafter
  · exact absurd rfl (hl a)

theorem sound_step {l : Label φ n ψ} (hi : Sound s) (ho : Owners s) (ht : Tallied s) (hs : next s l = some s') :
    Sound s' := by
  intro a hafter
  by_cases hbefore : s.waiter a = .returned
  · -- the caller owns `mtx_`, so nobody pushes
    refine idle_step (hi a hbefore) ?_ hs
    rintro f period t rfl
    rcases next_cases hs with ⟨t, hl, -⟩ | ⟨f, period, t, -, hfree, -⟩ | ⟨hl, -⟩ | ⟨hl, -⟩ | ⟨w, inp, hl, -⟩ |
      ⟨a, hl, -⟩
    · cases hl
    · have hown := ho.waiter a (by rw [hbefore]; rfl)
      rw [hfree] at hown
      cases hown
    all_goals cases hl
  · by_cases hl : ∃ b, l = .waiter b
    · obtain ⟨b, rfl⟩ := hl
      obtain ⟨hq, hout, hsh, hw⟩ := returns_of_waiter hs hbefore hafter
      have hidle := ht.idle hq hout
      exact ⟨by rw [hsh]; exact hidle.queue, by rw [hw]; exact hidle.hands, by rw [hw]; exact hidle.running⟩
    · exact absurd (waiter_of_next (fun b hb => hl ⟨b, hb⟩) hs hafter) hbefore

/-- **`WaitUntilAllDone` is sound.**  When it returns, with `mtx_`, no event is in the queue or in the hands of a
worker, and no event function is running; and so it stays until the next `PushEvent`. -/
theorem all_done_sound (h : (system φ n ψ).Reach (fun _ _ => True) s) {a : ψ} (ha : s.waiter a = .returned) :
    s.mtx = some (.waiter a) ∧ Idle s ∧ ∀ s', ((system φ n ψ).startingAt s).Reach NoPush s' → Idle s' := by
  have hinv : Owners s ∧ Tallied s ∧ Sound s := by
    refine h.invariant (I := fun s => Owners s ∧ Tallied s ∧ Sound s) (fun s h₀ => ?_) ?_
    · refine ⟨.init h₀, .init h₀, fun a ha => ?_⟩
      rw [h₀.waiter a] at ha
      cases ha
    · rintro s l s' - ⟨ho, ht, hi⟩ - hn
      exact ⟨ho.step hn, ht.step hn, sound_step hi ho ht hn⟩
  obtain ⟨ho, -, hi⟩ := hinv
  refine ⟨ho.waiter a (by rw [ha]; rfl), hi a ha, fun s' hs' => ?_⟩
  refine hs'.invariant (I := Idle) (fun t ht => ?_) fun t l t' _ hidle hl hn => idle_step hidle hl hn
  rw [show t = s from ht]
  exact hi a ha

/-- The only worker has run an event and dropped it, and the caller returns. -/
theorem all_done_sound_one : ∃ s : State Unit 1 Unit, (system Unit 1 Unit).Reach (fun _ _ => True) s ∧
    s.waiter () = .returned ∧ Idle s := by
  have hrun := (system Unit 1 Unit).exists_reach_of_decidable (fun _ _ => True)
    [[.pushEvent () 0 none], List.replicate 7 (.worker 0 .none),
      [.worker 0 .timeout, .worker 0 .none, .worker 0 .none, .worker 0 (.result false), .worker 0 .none],
      List.replicate 3 (.waiter ())].flatten
    (fun s => s.waiter () == .returned) State.blank_initial (by decide)
  obtain ⟨s, hr, hp⟩ := hrun
  have hret : s.waiter () = .returned := beq_iff_eq.mp hp
  exact ⟨s, hr, hret, (all_done_sound hr hret).2.1⟩

end DistributedLock.TimeoutQueue
