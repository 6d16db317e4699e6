import DistributedLock.Renewal.Registered
import DistributedLock.TimeoutQueue.Conservation

/-!
# How many renewals an object has

Every acceptance pushes an event of the object, and an event goes away when its `KeepLock` returns false.  So the events
of an object that are in the queue or in the hands of a worker are as many as its acceptances, less the calls of
`KeepLock` that have returned false (`Balanced`).

`unlock()` lowers `lock_continue_`, but an event sees that only when it fires.  If the object is locked again before,
the old event finds the flag up, and goes on next to the new one (`renewals_accumulate`).  An object that is accepted
only after its earlier events are gone has at most one (`at_most_one_renewal`).
-/

set_option linter.unusedSectionVars false

namespace DistributedLock.Renewal

open Lib Redis DMutex Cluster

variable {D : DBInterface} {ι : Type} {n : ℕ} {ψ : Type} [DecidableEq ι] [DecidableEq ψ] {O : Objects ι Unit}

/-! ## The balance -/

/-- The number of renewal events of the object that are in the queue or in the hands of a worker. -/
def renewals (q : TimeoutQueue.State ι n ψ) (i : ι) : ℕ :=
  (q.sh.queue.countP fun nd => nd.event.function = i) +
    ∑ w, ((q.worker w).node.any fun nd => nd.event.function = i).toNat

structure Count where
  /-- The acquisitions that have been accepted. -/
  accepts : ℕ := 0
  /-- The calls of `KeepLock` that have returned false. -/
  falses : ℕ := 0

/-- The object whose `KeepLock` returns false to the worker `w`. -/
def retires (O : Objects ι Unit) (x : State D ι n ψ) (w : Fin n) : Option ι :=
  match x.2.worker w with
  | .run nd =>
    match instrAt O x.1 (.worker nd.event.function w) with
    | some (.ret false) => some nd.event.function
    | _ => none
  | _ => none

def count (O : Objects ι Unit) (x : State D ι n ψ) (l : Label ι n ψ) (_ : State D ι n ψ) (g : ι → Count) (i : ι) :
    Count :=
  match l with
  | .accept j _ => if j = i then { g i with accepts := (g i).accepts + 1 } else g i
  | .finish w => if retires O x w = some i then { g i with falses := (g i).falses + 1 } else g i
  | _ => g i

def counted (O : Objects ι Unit) (D : DBInterface) (n : ℕ) (ψ : Type) [DecidableEq ψ] :
    Machine (State D ι n ψ × (ι → Count)) (Label ι n ψ) :=
  (system O D n ψ).withHistory (fun _ => {}) (count O)

def eventOf (i : ι) : TimeoutQueue.Event ι → ℕ := TimeoutQueue.pick fun e => e.function = i

theorem eventOf_apply (i : ι) (e : TimeoutQueue.Event ι) : eventOf i e = if e.function = i then 1 else 0 := by
  unfold eventOf TimeoutQueue.pick
  by_cases hi : e.function = i <;> simp [hi]

theorem weight_eventOf (q : TimeoutQueue.State ι n ψ) (i : ι) : TimeoutQueue.weight (eventOf i) q = renewals q i := by
  unfold TimeoutQueue.weight renewals eventOf
  rw [TimeoutQueue.queued_pick]
  congr 1
  exact Finset.sum_congr rfl fun w _ => TimeoutQueue.weight_pick _ _

/-- The events of an object, and the calls that have dropped one, are as many as the acceptances. -/
def Balanced (y : State D ι n ψ × (ι → Count)) : Prop :=
  ∀ i, renewals y.1.2 i + (y.2 i).falses = (y.2 i).accepts

theorem renewals_queue {q q' : TimeoutQueue.State ι n ψ} {l : TimeoutQueue.Label ι n ψ} (i : ι)
    (hq : TimeoutQueue.next q l = some q') (hpush : ∀ f period t, l ≠ .pushEvent f period t)
    (hres : ∀ w, l ≠ .worker w (.result false)) : renewals q' i = renewals q i := by
  have hstep := TimeoutQueue.weight_step (v := eventOf i) hq
  have hpushed : TimeoutQueue.pushed (eventOf i) l = 0 := by
    unfold TimeoutQueue.pushed
    split
    · exact absurd rfl (hpush _ _ _)
    · rfl
  have hretired : TimeoutQueue.retired (eventOf i) q l = 0 := by
    unfold TimeoutQueue.retired
    split
    · exact absurd rfl (hres _)
    · rfl
  rw [weight_eventOf, weight_eventOf] at hstep
  omega

theorem balanced_step {x x' : State D ι n ψ} {l : Label ι n ψ} {g : ι → Count} (h : Balanced (x, g))
    (hs : (system O D n ψ).next x l = some x') : Balanced (x', count O x l x' g) := by
  intro i
  have hi : renewals x.2 i + (g i).falses = (g i).accepts := h i
  cases system_next hs with
  | locks hfree hc => exact hi
  | @queue l q hfree hq =>
    have hsame : renewals q i = renewals x.2 i := by
      refine renewals_queue i hq ?_ ?_
      · rintro f period t rfl
        cases hfree
      · rintro w rfl
        cases hfree
    simp only [count, hsame]
    exact hi
  | @accept j wake fr f period pc c q hfr hcode hc hq =>
    have hstep := TimeoutQueue.weight_step (v := eventOf i) hq
    simp only [weight_eventOf, TimeoutQueue.pushed, TimeoutQueue.retired, eventOf_apply] at hstep
    by_cases hij : j = i
    · simp only [count, hij, if_true] at hstep ⊢
      omega
    · simp only [count, hij, if_false] at hstep ⊢
      omega
  | @fire w nd c q hdue hc hq =>
    have hsame : renewals q i = renewals x.2 i := by
      refine renewals_queue i hq ?_ ?_
      · rintro f period t ⟨⟩
      · rintro w ⟨⟩
    simp only [count, hsame]
    exact hi
  | @finish w nd fr res c q hw hfr hcode hc hq =>
    have hin : instrAt O x.1 (.worker nd.event.function w) = some (.ret res) := instrAt_eq_some.mpr ⟨fr, hfr, hcode⟩
    cases res with
    | true =>
      have hsame : renewals q i = renewals x.2 i := by
        refine renewals_queue i hq ?_ ?_
        · rintro f period t ⟨⟩
        · rintro w ⟨⟩
      simp [count, retires, hw, hin, hsame, hi]
    | false =>
      have hnode : (x.2.worker w).node = some nd := by rw [hw]; rfl
      have hstep := TimeoutQueue.weight_step (v := eventOf i) hq
      simp only [weight_eventOf, TimeoutQueue.pushed, TimeoutQueue.retired, TimeoutQueue.weight_of_some hnode,
        eventOf_apply] at hstep
      have hret : retires O x w = some nd.event.function := by simp only [retires, hw, hin]
      by_cases hij : nd.event.function = i
      · simp only [count, hret, hij, if_true] at hstep ⊢
        omega
      · simp only [count, hret, hij, if_false, Option.some.injEq] at hstep ⊢
        omega

theorem balanced_of_reach {ok : State D ι n ψ × (ι → Count) → Label ι n ψ → Prop}
    {y : State D ι n ψ × (ι → Count)} (h : (counted O D n ψ).Reach ok y) : Balanced y := by
  refine h.invariant (I := Balanced) (fun y h₀ i => ?_) fun y l y' _ hi _ hn => ?_
  · obtain ⟨⟨-, hq⟩, hg⟩ := h₀
    have hq : TimeoutQueue.Initial y.1.2 := hq
    rw [hg, ← weight_eventOf, TimeoutQueue.weight_initial hq]
    rfl
  · obtain ⟨hn, hg⟩ := Machine.withHistory_next.mp hn
    have hbal := balanced_step hi hn
    rw [← hg] at hbal
    exact hbal

/-! ## At most one -/

/-- An acquisition is accepted only when, for every earlier one of the object, a call of `KeepLock` has returned false. -/
def AcceptsRetired (y : State D ι n ψ × (ι → Count)) (l : Label ι n ψ) : Prop :=
  ∀ i wake, l = .accept i wake → (y.2 i).falses = (y.2 i).accepts

/-- **At most one renewal**, of an object that is accepted only after its earlier renewals have ended. -/
theorem at_most_one_renewal {y : State D ι n ψ × (ι → Count)} (h : (counted O D n ψ).Reach AcceptsRetired y) (i : ι) :
    renewals y.1.2 i ≤ 1 := by
  have hcount : (y.2 i).accepts ≤ (y.2 i).falses + 1 := by
    refine h.invariant (I := fun y => (y.2 i).accepts ≤ (y.2 i).falses + 1) (fun y h₀ => ?_)
      fun y l y' _ hi hok hn => ?_
    · rw [And.right h₀]
      exact Nat.zero_le _
    · rw [(Machine.withHistory_next.mp hn).2]
      unfold count
      split
      · rename_i j wake
        by_cases hij : j = i
        · subst hij
          have heq := hok j wake rfl
          simp only [if_true]
          omega
        · simp only [hij, if_false]
          exact hi
      · split_ifs
        · simp only
          omega
        · exact hi
      · exact hi
  have hbal := balanced_of_reach h i
  omega

/-- An acceptance while an earlier event is left gives the object one event more. -/
theorem renewals_of_accept {y y' : State D ι n ψ × (ι → Count)} {i : ι} {wake : Option (Fin n)}
    (h : (counted O D n ψ).Reach (fun _ _ => True) y) (hn : (counted O D n ψ).next y (.accept i wake) = some y')
    (hleft : (y.2 i).falses ≠ (y.2 i).accepts) : 2 ≤ renewals y'.1.2 i := by
  have hbal := balanced_of_reach h i
  have hbal' := balanced_of_reach (h.step trivial hn) i
  rw [(Machine.withHistory_next.mp hn).2] at hbal'
  simp only [count, if_true] at hbal'
  omega

def acceptsRetired (y : State D ι n ψ × (ι → Count)) : Label ι n ψ → Bool
  | .accept i _ => (y.2 i).falses == (y.2 i).accepts
  | _ => true

theorem acceptsRetired_of_test (y : State D ι n ψ × (ι → Count)) (l : Label ι n ψ) (h : acceptsRetired y l = true) :
    AcceptsRetired y l := by
  rintro i wake rfl
  simpa [acceptsRetired] using h

/-- An object that is held, with one event. -/
theorem at_most_one_renewal_one : ∃ y : State (dbRedis 16) Bool 1 Empty × (Bool → Count),
    (counted (twoObjects [0]) (dbRedis 16) 1 Empty).Reach AcceptsRetired y ∧
      y.1.1.held false = true ∧ renewals y.1.2 false ≤ 1 := by
  obtain ⟨y, hr, hs⟩ := Machine.exists_reach (counted (twoObjects [0]) (dbRedis 16) 1 Empty)
    (holdLabels false ++ takeLabels) (fun y => y.1.1.held false) acceptsRetired_of_test
    (s := ((State.blank, TimeoutQueue.State.blank), fun _ => {}))
    ⟨⟨State.blank_initial, TimeoutQueue.State.blank_initial⟩, rfl⟩ (by decide)
  exact ⟨y, hr, hs, at_most_one_renewal hr false⟩

/-- Every object is used alternately, as a test on the states of the lock manager. -/
def alternatesNow (x : State (dbRedis 16) Bool 1 Empty) (l : Label Bool 1 Empty) : Bool :=
  alternates (x, fun _ _ => {}) l

theorem alternately_of_alternatesNow (x : State (dbRedis 16) Bool 1 Empty) (l : Label Bool 1 Empty)
    (h : alternatesNow x l = true) : Alternately x l :=
  alternately_of_alternates (x, fun _ _ => {}) l h

/-- `lock()`, `unlock()` and `lock()` again, before the event of the first is due: the object has two. -/
theorem renewals_accumulate : ¬ ∀ x : State (dbRedis 16) Bool 1 Empty,
    (system (twoObjects [0]) (dbRedis 16) 1 Empty).Reach Alternately x → ∀ i, renewals x.2 i ≤ 1 := by
  intro hall
  obtain ⟨x, hr, hs⟩ := Machine.exists_reach (system (twoObjects [0]) (dbRedis 16) 1 Empty)
    (holdLabels false ++ (unlockAll false [0]).map .locks ++ holdLabels false)
    (fun x => decide (renewals x.2 false = 2)) alternately_of_alternatesNow
    (s := (State.blank, TimeoutQueue.State.blank))
    ⟨State.blank_initial, TimeoutQueue.State.blank_initial⟩ (by decide)
  have htwo : renewals x.2 false = 2 := of_decide_eq_true hs
  have hle := hall x hr false
  omega

end DistributedLock.Renewal
