import DistributedLock.Renewal.Pending

/-!
# The lifetime of the objects

An event captures `this`.  The destructor of `DMutex` neither retires the events of the object nor waits for them, so
an event may be left when the object is destroyed: after `lock()`, `unlock()` and the destruction, the event is still in
the queue, and `KeepLock` will be called on an object that is gone (`renewal_outlives`).  If every object is destroyed
only after the `KeepLock` of each of its acquisitions has returned false, no event outlives its object
(`renewal_captures_alive`).
-/

set_option linter.unusedSectionVars false

namespace DistributedLock.Renewal

open Lib Redis DMutex Cluster

inductive Life where
  | unborn
  | alive
  | destroyed
  deriving DecidableEq

inductive LifeLabel (ι : Type) (n : ℕ) (ψ : Type) where
  | construct (i : ι)
  | destroy (i : ι)
  | step (l : Label ι n ψ)

section Lifetimes

variable {D : DBInterface} {ι : Type} {n : ℕ} {ψ : Type} [DecidableEq ι] [DecidableEq ψ] {O : Objects ι Unit}

/-- The lock manager with the counts, and the lifetimes of the objects. -/
abbrev LifeState (D : DBInterface) (ι : Type) (n : ℕ) (ψ : Type) : Type :=
  (State D ι n ψ × (ι → Count)) × (ι → Life)

/-- The methods of `DMutex` are called on objects that are alive. -/
def callsAlive (life : ι → Life) : Label ι n ψ → Bool
  | .locks (.call i _) => life i = .alive
  | _ => true

/-- **Objects are constructed, used and destroyed**; none is destroyed inside a call of one of its methods.  The workers
of the queue know nothing of it. -/
def lifetimes (O : Objects ι Unit) (D : DBInterface) (n : ℕ) (ψ : Type) [DecidableEq ψ] :
    Machine (LifeState D ι n ψ) (LifeLabel ι n ψ) where
  init z := (counted O D n ψ).init z.1 ∧ z.2 = fun _ => .unborn
  next z
    | .construct i => if z.2 i = .unborn then some (z.1, Function.update z.2 i .alive) else none
    | .destroy i =>
      if z.2 i = .alive ∧ (z.1.1.1.thr (.caller i)).isNone then some (z.1, Function.update z.2 i .destroyed) else none
    | .step l => if callsAlive z.2 l then ((counted O D n ψ).next z.1 l).map fun y => (y, z.2) else none

/-- An object is destroyed only when, for every acquisition of it, a call of `KeepLock` has returned false. -/
def DestroysRetired (z : LifeState D ι n ψ) (l : LifeLabel ι n ψ) : Prop :=
  ∀ i, l = .destroy i → (z.1.2 i).falses = (z.1.2 i).accepts

/-- **Inversion of a step.** -/
theorem lifetimes_next {z z' : LifeState D ι n ψ} {l : LifeLabel ι n ψ} (h : (lifetimes O D n ψ).next z l = some z') :
    (∃ i, l = .construct i ∧ z.2 i = .unborn ∧ z' = (z.1, Function.update z.2 i .alive)) ∨
    (∃ i, l = .destroy i ∧ z.2 i = .alive ∧ z.1.1.1.thr (.caller i) = none ∧
      z' = (z.1, Function.update z.2 i .destroyed)) ∨
    ∃ l' y, l = .step l' ∧ callsAlive z.2 l' = true ∧ (counted O D n ψ).next z.1 l' = some y ∧ z' = (y, z.2) := by
  cases l with
  | construct i =>
    simp only [lifetimes] at h
    split at h
    · rename_i hu
      cases h
      exact .inl ⟨i, rfl, hu, rfl⟩
    · cases h
  | destroy i =>
    simp only [lifetimes] at h
    split at h
    · rename_i hd
      cases h
      exact .inr (.inl ⟨i, rfl, hd.1, Option.isNone_iff_eq_none.mp hd.2, rfl⟩)
    · cases h
  | step l' =>
    simp only [lifetimes] at h
    split at h
    · rename_i ha
      obtain ⟨y, hy, rfl⟩ := Option.map_eq_some_iff.mp h
      exact .inr (.inr ⟨l', y, rfl, ha, hy, rfl⟩)
    · cases h

theorem counted_of_lifetimes {ok : LifeState D ι n ψ → LifeLabel ι n ψ → Prop} {z : LifeState D ι n ψ}
    (h : (lifetimes O D n ψ).Reach ok z) : (counted O D n ψ).Reach (fun _ _ => True) z.1 := by
  refine h.invariant (I := fun z => (counted O D n ψ).Reach (fun _ _ => True) z.1) (fun z h₀ => .init (And.left h₀))
    fun z l z' _ hi _ hn => ?_
  rcases lifetimes_next hn with ⟨i, -, -, rfl⟩ | ⟨i, -, -, -, rfl⟩ | ⟨l', y, -, -, hy, rfl⟩
  · exact hi
  · exact hi
  · exact hi.step trivial hy

theorem system_of_counted {ok : State D ι n ψ × (ι → Count) → Label ι n ψ → Prop} {y : State D ι n ψ × (ι → Count)}
    (h : (counted O D n ψ).Reach ok y) : (system O D n ψ).Reach (fun _ _ => True) y.1 := by
  unfold counted at h
  exact h.fst fun _ _ _ => trivial

/-! ## The invariant -/

/-- An object that is not alive has its caller in no method, and no events. -/
def Buried (z : LifeState D ι n ψ) : Prop :=
  ∀ i, z.2 i ≠ .alive → z.1.1.1.thr (.caller i) = none ∧ renewals z.1.1.2 i = 0

/-- A caller outside of all methods stays there, until it enters one. -/
theorem idle_step {x x' : State D ι n ψ} {l : Label ι n ψ} {i : ι} (hkind : KindInv x.1)
    (hs : (system O D n ψ).next x l = some x') (hnone : x.1.thr (.caller i) = none)
    (hcall : ∀ c, l ≠ .locks (.call i c)) : x'.1.thr (.caller i) = none := by
  cases system_next hs with
  | @locks l c hfree hc => exact (next_idle hkind hc hnone fun c hl => hcall c (by rw [hl])).1
  | queue hfree hq => exact hnone
  | @accept j wake fr f period pc c q hfr hcode hc hq =>
    exact (next_idle (l := .act (.caller j) .none) hkind hc hnone (by rintro c ⟨⟩)).1
  | fire hdue hc hq => exact (next_idle hkind hc hnone (by rintro c ⟨⟩)).1
  | @finish w nd fr res c q hw hfr hcode hc hq =>
    exact (next_idle (l := .act (.worker nd.event.function w) .none) hkind hc hnone (by rintro c ⟨⟩)).1

theorem accepts_of_idle {y y' : State D ι n ψ × (ι → Count)} {l : Label ι n ψ} {i : ι}
    (hs : (counted O D n ψ).next y l = some y') (hnone : y.1.1.thr (.caller i) = none) :
    (y'.2 i).accepts = (y.2 i).accepts ∧ (y.2 i).falses ≤ (y'.2 i).falses := by
  obtain ⟨hn, hg⟩ := Machine.withHistory_next.mp hs
  rw [hg]
  unfold count
  split
  · rename_i j wake
    have hij : j ≠ i := by
      rintro rfl
      generalize y'.1 = x' at hn
      cases system_next hn with
      | accept hfr hcode hc hq =>
        rw [hnone] at hfr
        cases hfr
    simp [hij]
  · split_ifs <;> simp
  · simp

theorem buried_step {z z' : LifeState D ι n ψ} {l : LifeLabel ι n ψ} (h : Buried z)
    (hr : (counted O D n ψ).Reach (fun _ _ => True) z.1) (hok : DestroysRetired z l)
    (hs : (lifetimes O D n ψ).next z l = some z') : Buried z' := by
  intro i hi
  rcases lifetimes_next hs with ⟨j, -, -, rfl⟩ | ⟨j, rfl, hj, hnone, rfl⟩ | ⟨l', y, rfl, hcall, hy, rfl⟩
  · have hij : i ≠ j := by
      rintro rfl
      exact hi (Function.update_self ..)
    simp only [Function.update_of_ne hij] at hi
    exact h i hi
  · by_cases hij : i = j
    · subst hij
      have hbal := balanced_of_reach hr i
      have heq := hok i rfl
      have hzero : renewals z.1.1.2 i = 0 := by omega
      exact ⟨hnone, hzero⟩
    · simp only [Function.update_of_ne hij] at hi
      exact h i hi
  · obtain ⟨hnone, hzero⟩ := h i hi
    have hkind : KindInv z.1.1.1 := .of_reach (cluster_of_reach (system_of_counted hr))
    have hcall' : ∀ c, l' ≠ .locks (.call i c) := by
      rintro c rfl
      exact hi (of_decide_eq_true hcall)
    refine ⟨idle_step hkind (Machine.withHistory_next.mp hy).1 hnone hcall', ?_⟩
    have hbal := balanced_of_reach hr i
    have hbal' := balanced_of_reach (hr.step trivial hy) i
    have hcount := accepts_of_idle hy hnone
    simp only
    omega

theorem buried_of_reach {z : LifeState D ι n ψ} (h : (lifetimes O D n ψ).Reach DestroysRetired z) : Buried z := by
  refine h.invariant (I := Buried) (fun z h₀ i _ => ?_) fun z l z' hr hi hok hn =>
    buried_step hi (counted_of_lifetimes hr) hok hn
  obtain ⟨⟨⟨hc, hq⟩, -⟩, -⟩ := h₀
  have hc : Cluster.Initial z.1.1.1 := hc
  have hq : TimeoutQueue.Initial z.1.1.2 := hq
  refine ⟨hc.thr _, ?_⟩
  rw [← weight_eventOf]
  exact TimeoutQueue.weight_initial hq

/-- An object without renewals has none in the queue and none in the hands of a worker. -/
theorem function_ne_of_renewals {q : TimeoutQueue.State ι n ψ} {i : ι} (h : renewals q i = 0) :
    (∀ nd ∈ q.sh.queue, nd.event.function ≠ i) ∧
    ∀ w nd, (q.worker w).node = some nd → nd.event.function ≠ i := by
  unfold renewals at h
  refine ⟨fun nd hmem hf => ?_, fun w nd hnd hf => ?_⟩
  · have hzero : (q.sh.queue.countP fun nd => nd.event.function = i) = 0 := by omega
    exact List.countP_eq_zero.mp hzero nd hmem (decide_eq_true hf)
  · have hzero : (∑ w, ((q.worker w).node.any fun nd => nd.event.function = i).toNat) = 0 := by omega
    have hw := Finset.sum_eq_zero_iff.mp hzero w (Finset.mem_univ w)
    simp [hnd, hf] at hw

/-- **No renewal outlives its object**, if every object is destroyed only after the `KeepLock` of each of its
acquisitions has returned false: what is in the queue and in the hands of a worker captures an object that is alive,
and `KeepLock` runs on such objects only. -/
theorem renewal_captures_alive {z : LifeState D ι n ψ} (h : (lifetimes O D n ψ).Reach DestroysRetired z) :
    (∀ nd ∈ z.1.1.2.sh.queue, z.2 nd.event.function = .alive) ∧
    (∀ w nd, (z.1.1.2.worker w).node = some nd → z.2 nd.event.function = .alive) ∧
    ∀ i w fr, z.1.1.1.thr (.worker i w) = some fr → z.2 i = .alive := by
  have hbur := buried_of_reach h
  have hhand : ∀ w nd, (z.1.1.2.worker w).node = some nd → z.2 nd.event.function = .alive := by
    intro w nd hnd
    by_contra hdead
    exact (function_ne_of_renewals (hbur _ hdead).2).2 w nd hnd rfl
  refine ⟨fun nd hmem => ?_, hhand, fun i w fr hfr => ?_⟩
  · by_contra hdead
    exact (function_ne_of_renewals (hbur _ hdead).2).1 nd hmem rfl
  · have hbusy : BusyInv z.1.1 := .of_reach (system_of_counted (counted_of_lifetimes h))
    obtain ⟨nd, hw, rfl⟩ := hbusy i w fr hfr
    exact hhand w nd (by rw [hw]; rfl)

/-- An object that is destroyed with an acquisition whose event is left leaves the event behind. -/
theorem renewals_of_destroy {z z' : LifeState D ι n ψ} {i : ι} (h : (lifetimes O D n ψ).Reach (fun _ _ => True) z)
    (hn : (lifetimes O D n ψ).next z (.destroy i) = some z') (hleft : (z.1.2 i).falses ≠ (z.1.2 i).accepts) :
    z'.2 i = .destroyed ∧ 0 < renewals z'.1.1.2 i := by
  have hbal := balanced_of_reach (counted_of_lifetimes h) i
  rcases lifetimes_next hn with ⟨j, hl, -⟩ | ⟨j, hl, -, -, rfl⟩ | ⟨l', y, hl, -⟩ <;> cases hl
  have hpos : 0 < renewals z.1.1.2 i := by omega
  exact ⟨Function.update_self .., hpos⟩

end Lifetimes

/-! ## Two runs -/

def destroysRetired (z : LifeState (dbRedis 16) Bool 1 Empty) : LifeLabel Bool 1 Empty → Bool
  | .destroy i => (z.1.2 i).falses == (z.1.2 i).accepts
  | _ => true

theorem destroysRetired_of_test (z : LifeState (dbRedis 16) Bool 1 Empty) (l : LifeLabel Bool 1 Empty)
    (h : destroysRetired z l = true) : DestroysRetired z l := by
  rintro i rfl
  simpa [destroysRetired] using h

/-- `lock()` and `unlock()` of the first object. -/
def useLabels : List (Label Bool 1 Empty) := holdLabels false ++ (unlockAll false [0]).map .locks

/-- The worker `w` calls `KeepLock` of it, which returns false. -/
def retireLabels (w : Fin 1) : List (Label Bool 1 Empty) :=
  takeLabels ++ [.queue (.tick 13332), .queue (.worker w .timeout), .queue (.worker w .none), .fire w,
    .locks (.act (.worker false w) .none), .locks (.act (.worker false w) .none), .finish w]

/-- The first object is used, its event is retired, and the object is destroyed; the second is used after it. -/
theorem renewal_captures_alive_two : ∃ z : LifeState (dbRedis 16) Bool 1 Empty,
    (lifetimes (twoObjects [0]) (dbRedis 16) 1 Empty).Reach DestroysRetired z ∧
      (z.2 false = .destroyed ∧ z.1.1.2.sh.queue.length = 1) ∧
      ∀ nd ∈ z.1.1.2.sh.queue, z.2 nd.event.function = .alive := by
  obtain ⟨z, hr, hs⟩ := Machine.exists_reach (lifetimes (twoObjects [0]) (dbRedis 16) 1 Empty)
    (.construct false :: (useLabels ++ retireLabels 0).map .step ++
      .destroy false :: .construct true :: (holdLabels true).map .step)
    (fun z => z.2 false == .destroyed && z.1.1.2.sh.queue.length == 1) destroysRetired_of_test
    (s := (((State.blank, TimeoutQueue.State.blank), fun _ => {}), fun _ => .unborn))
    ⟨⟨⟨State.blank_initial, TimeoutQueue.State.blank_initial⟩, rfl⟩, rfl⟩ (by decide)
  simp only [Bool.and_eq_true, beq_iff_eq] at hs
  exact ⟨z, hr, hs, (renewal_captures_alive hr).1⟩

/-- The object is destroyed after `unlock()`, with its event in the queue. -/
theorem renewal_outlives : ¬ ∀ z : LifeState (dbRedis 16) Bool 1 Empty,
    (lifetimes (twoObjects [0]) (dbRedis 16) 1 Empty).Reach (fun _ _ => True) z →
      ∀ nd ∈ z.1.1.2.sh.queue, z.2 nd.event.function ≠ .destroyed := by
  intro hall
  obtain ⟨z, hr, hs⟩ := (lifetimes (twoObjects [0]) (dbRedis 16) 1 Empty).exists_reach_of_decidable (fun _ _ => True)
    (.construct false :: useLabels.map .step ++ [.destroy false])
    (fun z => z.1.1.2.sh.queue.any fun nd => z.2 nd.event.function == .destroyed)
    (s := (((State.blank, TimeoutQueue.State.blank), fun _ => {}), fun _ => .unborn))
    ⟨⟨⟨State.blank_initial, TimeoutQueue.State.blank_initial⟩, rfl⟩, rfl⟩ (by decide)
  obtain ⟨nd, hmem, hdead⟩ := List.any_eq_true.mp hs
  exact hall z hr nd hmem (beq_iff_eq.mp hdead)

end DistributedLock.Renewal
