import DistributedLock.TimeoutQueue.Basic

/-!
# Where the events are

`Point.node` is the node a worker has in hand.  `Holds P s f`: an event with the function `f` is in the queue, or in
the hands of a worker that meets `P`.  A step of the queue keeps that (`Holds.step`), unless it is the return of the
function itself.
-/

set_option linter.unusedSectionVars false

namespace DistributedLock.TimeoutQueue

open Lib

variable {φ : Type} {n : ℕ} {ψ : Type} [DecidableEq ψ] {s s' : State φ n ψ} {w : Fin n} {inp : Input n}

def Point.node : Point φ → Option (Node φ)
  | .untilTest nd | .untilPark nd | .untilParked nd | .untilWoken nd | .untilTimedOut nd | .testDue nd | .run nd
  | .relock nd | .reinsert nd | .putBack nd => some nd
  | _ => none

@[simp] theorem Point.wake_node (p : Point φ) : p.wake.node = p.node := by cases p <;> rfl

@[simp] theorem mem_insertNode {nd nd' : Node φ} {queue : List (Node φ)} :
    nd' ∈ insertNode nd queue ↔ nd' = nd ∨ nd' ∈ queue := List.mem_orderedInsert _

/-- What each instruction does with the node in hand. -/
def Hands (node : Option (Node φ)) : Instr φ → Prop
  | .tau p | .lock p | .unlock p | .notifyAllDone p => p.node = node
  | .extract k => node = none ∧ ∀ nd, (k nd).node = some nd
  | .insert nd _ p => node = some nd ∧ p.node = none
  | .parked p d => p.node = node ∧ ∀ x ∈ d, x.2.node = node
  | .call f k => ∃ nd, node = some nd ∧ nd.event.function = f ∧ (k true).node = some nd.later ∧ (k false).node = none
  | .leave _ p => node = none ∧ p.node = none
  | .ret => node = none

theorem code_hands (sh : Shared φ) (p : Point φ) : Hands p.node (code sh p) := by
  cases p with
  | loop | testEmpty | idleTest | untilTest _ => simp only [code]; split <;> rfl
  | testAllDone | testQuit | testDue _ => simp only [code]; split <;> rfl
  | run nd => exact ⟨nd, rfl, rfl, rfl, rfl⟩
  | _ => simp [code, Hands, Point.node]

/-- An event with the function `f` is in the queue, or in the hands of a worker that meets `P`. -/
def Holds (P : Fin n → Prop) (s : State φ n ψ) (f : φ) : Prop :=
  (∃ nd ∈ s.sh.queue, nd.event.function = f) ∨
  ∃ w nd, (s.worker w).node = some nd ∧ nd.event.function = f ∧ P w

namespace Holds

variable {P Q : Fin n → Prop} {f : φ}

theorem mono (h : Holds P s f) (hPQ : ∀ w nd, (s.worker w).node = some nd → nd.event.function = f → P w → Q w) :
    Holds Q s f := by
  rcases h with h | ⟨w, nd, hnd, hf, hP⟩
  · exact .inl h
  · exact .inr ⟨w, nd, hnd, hf, hPQ w nd hnd hf hP⟩

/-- A step that takes no node from the queue and changes at most the node of `w`. -/
theorem frame (h : Holds P s f) (hq : ∀ nd ∈ s.sh.queue, nd ∈ s'.sh.queue)
    (hother : ∀ w', w' ≠ w → (s'.worker w').node = (s.worker w').node)
    (hself : ∀ nd, (s.worker w).node = some nd → nd.event.function = f → P w →
      nd ∈ s'.sh.queue ∨ ∃ nd', (s'.worker w).node = some nd' ∧ nd'.event.function = f) : Holds P s' f := by
  rcases h with ⟨nd, hmem, hf⟩ | ⟨w', nd, hnd, hf, hP⟩
  · exact .inl ⟨nd, hq nd hmem, hf⟩
  · by_cases hww : w' = w
    · subst hww
      rcases hself nd hnd hf hP with hmem | ⟨nd', hnd', hf'⟩
      · exact .inl ⟨nd, hmem, hf⟩
      · exact .inr ⟨w', nd', hnd', hf', hP⟩
    · exact .inr ⟨w', nd, (hother w' hww).trans hnd, hf, hP⟩

theorem goto (h : Holds P s f) {p : Point φ} (hq : s'.sh.queue = s.sh.queue)
    (hw : s'.worker = Function.update s.worker w p) (hp : p.node = (s.worker w).node) : Holds P s' f := by
  refine h.frame (w := w) (fun nd hmem => hq ▸ hmem) (fun w' hww => ?_) fun nd hnd hf _ => .inr ⟨nd, ?_, hf⟩
  · rw [hw, Function.update_of_ne hww]
  · rw [hw, Function.update_self, hp, hnd]

theorem notifyOne (h : Holds P s f) {t : Option (Fin n)} (hs : s.notifyOne t = some s') : Holds P s' f := by
  rcases notifyOne_cases hs with ⟨w, -, -, rfl⟩ | ⟨-, -, rfl⟩
  · exact h.goto (w := w) rfl rfl (Point.wake_node _)
  · exact h

theorem insert (h : Holds P s f) {nd : Node φ} {p : Point φ} (hnd : (s.worker w).node = some nd) :
    Holds P ((s.setQueue (insertNode nd s.sh.queue)).goto w p) f := by
  refine h.frame (w := w) (fun nd' hmem => ?_) (fun w' hww => ?_) fun nd' hnd' _ _ => .inl ?_
  · exact mem_insertNode.mpr (.inr hmem)
  · exact congrArg Point.node (Function.update_of_ne hww _ _)
  · rw [hnd] at hnd'
    cases hnd'
    exact mem_insertNode.mpr (.inl rfl)

/-- **The steps of a worker keep the events**: one that is extracted is in its hands, and the return of the function
with `false` alone drops one. -/
theorem acts (h : Holds P s f) (ha : Acts s w inp s') (hP : (s.worker w).running = false → P w)
    (hret : inp = .result false → ∀ nd, (s.worker w).node = some nd → nd.event.function = f → ¬ P w) :
    Holds P s' f := by
  have hk := code_hands s.sh (s.worker w)
  cases ha with
  | tau hc => rw [hc] at hk; exact h.goto (w := w) rfl rfl hk
  | lock hc hfree => rw [hc] at hk; exact h.goto (w := w) rfl rfl hk
  | unlock hc => rw [hc] at hk; exact h.goto (w := w) rfl rfl hk
  | notifyAllDone hc => rw [hc] at hk; exact h.goto (w := w) rfl rfl hk
  | @extract k nd rest hc hq =>
    have hPw : P w := by
      refine hP ?_
      cases hp : s.worker w with
      | run nd => rw [hp] at hc; cases hc
      | _ => rfl
    rw [hc] at hk
    rcases h with ⟨nd', hmem, hf⟩ | ⟨w', nd', hnd', hf, hP'⟩
    · rw [hq] at hmem
      rcases List.mem_cons.mp hmem with rfl | hmem
      · exact .inr ⟨w, nd', by simpa using hk.2 nd', hf, hPw⟩
      · exact .inl ⟨nd', hmem, hf⟩
    · have hww : w' ≠ w := by
        rintro rfl
        rw [hk.1] at hnd'
        cases hnd'
      exact .inr ⟨w', nd', (congrArg Point.node (Function.update_of_ne hww _ _)).trans hnd', hf, hP'⟩
  | insert hc => rw [hc] at hk; exact h.insert hk.1
  | @insertNotify nd p t s' hc hn =>
    rw [hc] at hk
    have hins : Holds P ((s.setQueue (insertNode nd s.sh.queue)).goto w p) f := h.insert hk.1
    exact hins.notifyOne hn
  | spurious hc => rw [hc] at hk; exact h.goto (w := w) rfl rfl hk.1
  | timeout hc hd => rw [hc] at hk; exact h.goto (w := w) rfl rfl (hk.2 _ rfl)
  | @call g k isRepeat hc =>
    rw [hc] at hk
    obtain ⟨nd, hnd, -, htrue, hfalse⟩ := hk
    refine h.frame (w := w) (fun _ hmem => hmem) (fun w' hww => congrArg Point.node (Function.update_of_ne hww _ _)) ?_
    intro nd' hnd' hf hPw
    rw [hnd] at hnd'
    cases hnd'
    cases isRepeat with
    | true => exact .inr ⟨nd.later, by simpa using htrue, hf⟩
    | false => exact absurd hPw (hret rfl nd hnd hf)
  | @leave owns p hc => rw [hc] at hk; exact h.goto (w := w) rfl rfl (hk.2.trans hk.1.symm)

/-- **The steps of the queue keep the events.** -/
theorem step (h : Holds P s f) {l : Label φ n ψ} (hs : next s l = some s')
    (hP : ∀ w, (s.worker w).running = false → P w)
    (hret : ∀ w, l = .worker w (.result false) → ∀ nd, (s.worker w).node = some nd → nd.event.function = f → ¬ P w) :
    Holds P s' f := by
  rcases next_cases hs with ⟨t, -, -, rfl⟩ | ⟨g, period, t, -, -, hn⟩ | ⟨-, rfl⟩ | ⟨-, -, rfl⟩ | ⟨w, inp, rfl, ha⟩ |
    ⟨a, -, hw⟩
  · exact h
  · have hq : Holds P (s.setQueue (insertNode ⟨s.sh.now + period, g, period⟩ s.sh.queue)) f := by
      rcases h with ⟨nd, hmem, hf⟩ | h
      · exact .inl ⟨nd, mem_insertNode.mpr (.inr hmem), hf⟩
      · exact .inr h
    exact hq.notifyOne hn
  · exact h
  · rcases h with h | ⟨w, nd, hnd, hf, hPw⟩
    · exact .inl h
    · exact .inr ⟨w, nd, (Point.wake_node _).trans hnd, hf, hPw⟩
  · exact h.acts ha (hP w) fun hl => hret w (by rw [hl])
  · rcases stepWaiter_cases hw with ⟨p, -, rfl⟩ | ⟨p, -, -, rfl⟩ | ⟨p, -, rfl⟩ <;> exact h

end Holds

theorem holds_of_pushEvent {f : φ} {period : ℤ} {t : Option (Fin n)} (hs : next s (.pushEvent f period t) = some s')
    (P : Fin n → Prop) : Holds P s' f := by
  rcases next_cases hs with ⟨_, hl, -⟩ | ⟨g, period', t', hl, -, hn⟩ | ⟨hl, -⟩ | ⟨hl, -⟩ | ⟨_, _, hl, -⟩ | ⟨_, hl, -⟩ <;>
    cases hl
  have hq : Holds P (s.setQueue (insertNode ⟨s.sh.now + period, f, period⟩ s.sh.queue)) f :=
    .inl ⟨_, mem_insertNode.mpr (.inl rfl), rfl⟩
  exact hq.notifyOne hn

/-- A notification moves parked workers only. -/
theorem notifyOne_other {t : Option (Fin n)} (hs : s.notifyOne t = some s') (hp : (s.worker w).parked = false) :
    s'.worker w = s.worker w := by
  rcases notifyOne_cases hs with ⟨w', -, hp', rfl⟩ | ⟨-, -, rfl⟩
  · have hww : w ≠ w' := by
      rintro rfl
      rw [hp] at hp'
      cases hp'
    exact Function.update_of_ne hww _ _
  · rfl

/-- A worker that is inside an event function does nothing but return from it. -/
theorem not_acts_of_run (ha : Acts s w inp s') (hinp : ∀ isRepeat, inp ≠ .result isRepeat) (nd : Node φ) :
    s.worker w ≠ .run nd := by
  intro hw
  have hcode : code s.sh (s.worker w) = .call nd.event.function fun isRepeat =>
      if isRepeat then .relock nd.later else .leave false := by rw [hw]; rfl
  cases ha with
  | call hc => exact hinp _ rfl
  | tau hc | lock hc | unlock hc | notifyAllDone hc | extract hc | insert hc | insertNotify hc | spurious hc
  | timeout hc | leave hc => rw [hcode] at hc; cases hc

/-- A worker inside an event function stays there until the function returns. -/
theorem running_step {l : Label φ n ψ} (hs : next s l = some s') {nd : Node φ} (hw : s.worker w = .run nd)
    (hl : ∀ isRepeat, l ≠ .worker w (.result isRepeat)) : s'.worker w = .run nd := by
  have hparked : (s.worker w).parked = false := by rw [hw]; rfl
  rcases next_cases hs with ⟨t, -, -, rfl⟩ | ⟨g, period, t, -, -, hn⟩ | ⟨-, rfl⟩ | ⟨-, -, rfl⟩ | ⟨w', inp, rfl, ha⟩ |
    ⟨a, -, hwait⟩
  · exact hw
  · exact (notifyOne_other hn hparked).trans hw
  · exact hw
  · simp only [hw]
    rfl
  · by_cases hww : w = w'
    · subst hww
      refine absurd hw (not_acts_of_run ha (fun isRepeat hinp => hl isRepeat ?_) nd)
      rw [hinp]
    · cases ha with
      | @insertNotify nd' p t s' hc hn =>
        have hgoto : ((s.setQueue (insertNode nd' s.sh.queue)).goto w' p).worker w = s.worker w :=
          Function.update_of_ne hww _ _
        rw [notifyOne_other hn (by rw [hgoto]; exact hparked), hgoto, hw]
      | _ => exact (Function.update_of_ne hww _ _).trans hw
  · rcases stepWaiter_cases hwait with ⟨p, -, rfl⟩ | ⟨p, -, -, rfl⟩ | ⟨p, -, rfl⟩ <;> exact hw

end DistributedLock.TimeoutQueue
