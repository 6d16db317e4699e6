import DistributedLock.Renewal.Defs

/-!
# A held object has a renewal registered

While `lock_status_` is up, an event of the object is in the queue, or in the hands of a worker that is not about to
drop it (`Registered`): the acceptance puts one into the queue, the queue keeps its events, and `KeepLock` returns
false only if it has found `lock_continue_` down, which is up together with `lock_status_`.  An object that is held has
its flags up.
-/

set_option linter.unusedSectionVars false

namespace DistributedLock.Renewal

open Lib Redis DMutex Cluster

variable {D : DBInterface} {ι : Type} {n : ℕ} {ψ : Type} [DecidableEq ι] [DecidableEq ψ] {O : Objects ι Unit}
  {x x' : State D ι n ψ} {l : Label ι n ψ} {i : ι}

/-! ## Who is inside `KeepLock` -/

/-- A worker inside `KeepLock` of an object has an event of it in hand, and is inside the event function. -/
def BusyInv (x : State D ι n ψ) : Prop :=
  ∀ i w fr, x.1.thr (.worker i w) = some fr → ∃ nd, x.2.worker w = .run nd ∧ nd.event.function = i

namespace BusyInv

theorem step (h : BusyInv x) (hs : (system O D n ψ).next x l = some x') : BusyInv x' := by
  intro i w fr' hfr'
  cases system_next hs with
  | @locks l c hfree hc =>
    have hold : ∃ fr, x.1.thr (.worker i w) = some fr := by
      by_cases hact : ∃ inp, l = .act (.worker i w) inp
      · obtain ⟨inp, rfl⟩ := hact
        obtain ⟨fr, hfr, -⟩ := act_cases hc
        exact ⟨fr, hfr⟩
      · push Not at hact
        refine ⟨fr', ?_⟩
        rw [← next_worker hc (by rintro rfl; cases hfree) hact]
        exact hfr'
    obtain ⟨fr, hfr⟩ := hold
    exact h i w fr hfr
  | @queue l q hfree hq =>
    obtain ⟨nd, hw, hf⟩ := h i w fr' hfr'
    refine ⟨nd, TimeoutQueue.running_step hq hw ?_, hf⟩
    rintro isRepeat rfl
    cases hfree
  | @accept j wake fr f period pc c q hfr hcode hc hq =>
    have hne : Thread.worker i w ≠ .caller j := by rintro ⟨⟩
    have hfr₀ : x.1.thr (.worker i w) = some fr' := (act_thr hc hne).symm.trans hfr'
    obtain ⟨nd, hw, hf⟩ := h i w fr' hfr₀
    exact ⟨nd, TimeoutQueue.running_step hq hw (by rintro isRepeat ⟨⟩), hf⟩
  | @fire w₀ nd c q hdue hc hq =>
    obtain ⟨hw₀, hcode⟩ := due_eq_some hdue
    by_cases hiw : i = nd.event.function ∧ w = w₀
    · obtain ⟨rfl, rfl⟩ := hiw
      refine ⟨nd, ?_, rfl⟩
      have hq' : TimeoutQueue.stepWorker x.2 w .none = some q := hq
      simp only [TimeoutQueue.stepWorker, hcode, Option.some.injEq] at hq'
      subst hq'
      simp
    · have hfr₀ : x.1.thr (.worker i w) = some fr' := by
        rw [← next_worker hc (by rintro ⟨⟩; exact hiw ⟨rfl, rfl⟩) (by rintro inp ⟨⟩)]
        exact hfr'
      obtain ⟨nd', hw, hf⟩ := h i w fr' hfr₀
      exact ⟨nd', TimeoutQueue.running_step hq hw (by rintro isRepeat ⟨⟩), hf⟩
  | @finish w₀ nd fr res c q hw₀ hfr hcode hc hq =>
    have hne : ¬ (i = nd.event.function ∧ w = w₀) := by
      rintro ⟨rfl, rfl⟩
      rw [act_ret hc hfr hcode] at hfr'
      simp at hfr'
    have hθ : Thread.worker i w ≠ .worker nd.event.function w₀ := by
      rintro ⟨⟩
      exact hne ⟨rfl, rfl⟩
    have hfr₀ : x.1.thr (.worker i w) = some fr' := (act_thr hc hθ).symm.trans hfr'
    obtain ⟨nd', hw, hf⟩ := h i w fr' hfr₀
    have hww : w ≠ w₀ := by
      rintro rfl
      rw [hw₀] at hw
      cases hw
      exact hne ⟨hf.symm, rfl⟩
    exact ⟨nd', TimeoutQueue.running_step hq hw (by rintro isRepeat ⟨⟩; exact hww rfl), hf⟩

theorem of_reach {ok : State D ι n ψ → Label ι n ψ → Prop} (h : (system O D n ψ).Reach ok x) : BusyInv x := by
  refine h.invariant (I := BusyInv) (fun y h₀ i w fr hfr => ?_) fun _ _ _ _ hi _ hn => hi.step hn
  rw [(And.left h₀).thr] at hfr
  cases hfr

end BusyInv

/-! ## The invariant -/

/-- `KeepLock` of the object `i` in the worker `w`, if it runs, is not about to return false. -/
def Unspoiled (c : Cluster.State D ι Unit (Fin n)) (i : ι) (w : Fin n) : Prop :=
  ∀ fr, c.thr (.worker i w) = some fr → fr.pc ≠ .kept false

theorem BusyInv.unspoiled (h : BusyInv x) {w : Fin n} (hw : (x.2.worker w).running = false) : Unspoiled x.1 i w := by
  intro fr hfr
  obtain ⟨nd, hrun, -⟩ := h i w fr hfr
  rw [hrun] at hw
  cases hw

/-- While `lock_status_` is up, there is an event of the object that is not about to be dropped. -/
def Registered (x : State D ι n ψ) : Prop :=
  ∀ i, (x.1.fields i).lockStatus = true → TimeoutQueue.Holds (Unspoiled x.1 i) x.2 i

namespace Registered

theorem unspoiled_step {l : Cluster.Label ι (Fin n)} {c : Cluster.State D ι Unit (Fin n)} {w : Fin n}
    (hfree : locksShared O x.1 l = false) (hc : next O x.1 l = some c)
    (hcont : (x.1.fields i).lockContinue = true) (h : Unspoiled x.1 i w) : Unspoiled c i w := by
  intro fr' hfr' hpc'
  by_cases hact : ∃ inp, l = .act (.worker i w) inp
  · obtain ⟨inp, rfl⟩ := hact
    obtain ⟨fr, hfr, -⟩ := act_cases hc
    rcases leadsTo_of_act hc hfr hfr' with hpc | hlead
    · exact h fr hfr (hpc.symm.trans hpc')
    · rw [hpc'] at hlead
      have hdown : (x.1.fields i).lockContinue = false := (keepCheck_of_leadsTo hlead).2
      rw [hcont] at hdown
      cases hdown
  · push Not at hact
    rw [next_worker hc (by rintro rfl; cases hfree) hact] at hfr'
    exact h fr' hfr' hpc'

theorem step (h : Registered x) (hbusy : BusyInv x) (hkind : KindInv x.1) (hflags : ∀ i, FlagsInv i x.1)
    (hs : (system O D n ψ).next x l = some x') : Registered x' := by
  intro i hst
  cases system_next hs with
  | @locks l c hfree hc =>
    have hst₀ : (x.1.fields i).lockStatus = true := by
      rcases status_step hkind hc hst with hst₀ | ⟨inp, fr, f, period, pc, rfl, hfr, hcode⟩
      · exact hst₀
      · -- an acceptance is a step of the queue too
        simp [locksShared, instrAt, hfr, hcode, Thread.obj] at hfree
    exact (h i hst₀).mono fun w _ _ _ hw => unspoiled_step hfree hc ((hflags i).flags hst₀) hw
  | @queue l q hfree hq =>
    refine (h i hst).step hq (fun w hw => hbusy.unspoiled hw) ?_
    rintro w rfl
    cases hfree
  | @accept j wake fr f period pc c q hfr hcode hc hq =>
    by_cases hij : i = j
    · subst hij
      exact TimeoutQueue.holds_of_pushEvent hq _
    · have hother := next_other (i := i) (l := .act (.caller j) .none) hkind hc (by rintro c ⟨⟩)
        (by rintro inp ⟨⟩; exact hij rfl)
      have hst₀ : (x.1.fields i).lockStatus = true := by
        rw [← hother.2]
        exact hst
      have hold := (h i hst₀).step hq (fun w hw => hbusy.unspoiled hw) (by rintro w ⟨⟩)
      refine hold.mono fun w _ _ _ hw fr' hfr' => hw fr' ?_
      have hne : Thread.worker i w ≠ .caller j := by rintro ⟨⟩
      exact (act_thr hc hne).symm.trans hfr'
  | @fire w₀ nd c q hdue hc hq =>
    have hf : (x.1.fields i).lockStatus = true := by
      rcases next_cases hc with ⟨_, hl, -⟩ | ⟨_, _, hl, -⟩ | ⟨_, _, hl, -, rfl⟩ | ⟨_, _, hl, -⟩ <;> cases hl
      exact hst
    have hold := (h i hf).step hq (fun w hw => hbusy.unspoiled hw) (by rintro w ⟨⟩)
    refine hold.mono fun w _ _ _ hw fr' hfr' hpc' => ?_
    by_cases hiw : i = nd.event.function ∧ w = w₀
    · obtain ⟨rfl, rfl⟩ := hiw
      rcases next_cases hc with ⟨_, hl, -⟩ | ⟨_, _, hl, -⟩ | ⟨_, _, hl, -, rfl⟩ | ⟨_, _, hl, -⟩ <;> cases hl
      simp only [State.goto_thr, Function.update_self, Option.some.injEq] at hfr'
      rw [← hfr'] at hpc'
      cases hpc'
    · rw [next_worker hc (by rintro ⟨⟩; exact hiw ⟨rfl, rfl⟩) (by rintro inp ⟨⟩)] at hfr'
      exact hw fr' hfr' hpc'
  | @finish w₀ nd fr res c q hw₀ hfr hcode hc hq =>
    have hret := act_ret hc hfr hcode
    have hf : (x.1.fields i).lockStatus = true := by
      rw [hret] at hst
      exact hst
    have hold : TimeoutQueue.Holds (Unspoiled x.1 i) q i := by
      refine (h i hf).step hq (fun w hw => hbusy.unspoiled hw) ?_
      rintro w ⟨⟩ nd' hnd' rfl hw
      -- `KeepLock` is about to return false
      rw [hw₀] at hnd'
      cases hnd'
      refine hw fr hfr ?_
      have hkeep := hkind _ fr hfr
      rcases code_ret hcode with hpc | hpc | hpc
      · rw [hpc] at hkeep
        cases hkeep
      · rw [hpc] at hkeep
        cases hkeep
      · exact hpc
    refine hold.mono fun w _ _ _ hw fr' hfr' => ?_
    by_cases hiw : i = nd.event.function ∧ w = w₀
    · obtain ⟨rfl, rfl⟩ := hiw
      rw [hret] at hfr'
      simp at hfr'
    · have hθ : Thread.worker i w ≠ .worker nd.event.function w₀ := by
        rintro ⟨⟩
        exact hiw ⟨rfl, rfl⟩
      exact hw fr' ((act_thr hc hθ).symm.trans hfr')

theorem of_reach {ok : State D ι n ψ → Label ι n ψ → Prop} (hok : ∀ x l, ok x l → Alternately x l)
    (h : (system O D n ψ).Reach ok x) : Registered x := by
  refine h.invariant (I := Registered) (fun y h₀ i hst => ?_) fun y l y' hr hi _ hn => ?_
  · rw [(And.left h₀).fields] at hst
    cases hst
  · exact hi.step (.of_reach hr) (.of_reach (cluster_of_reach hr))
      (fun i => .of_reach (alternating_of_reach hok hr)) hn

end Registered

/-! ## The calls of `KeepLock` -/

/-- Whether the object was held when the last call of `KeepLock` started, and when it tested `lock_continue_`. -/
structure Watch where
  started : Bool := false
  tested : Bool := false

/-- The worker `w` is at the test of `lock_continue_` in `KeepLock` of `i`. -/
def testing (c : Cluster.State D ι Unit (Fin n)) (i : ι) (w : Fin n) : Bool :=
  match c.thr (.worker i w) with
  | some ⟨.keepCheck, _⟩ => true
  | _ => false

def watch (x : State D ι n ψ) (l : Label ι n ψ) (_ : State D ι n ψ) (g : ι → Fin n → Watch) (i : ι) (w : Fin n) :
    Watch :=
  match l with
  | .fire w' =>
    if w' = w ∧ (due x.2 w).map (fun nd => nd.event.function) = some i then { g i w with started := x.1.held i }
    else g i w
  | .locks (.act θ _) =>
    if θ = .worker i w ∧ testing x.1 i w = true then { g i w with tested := x.1.held i } else g i w
  | _ => g i w

def watched (O : Objects ι Unit) (D : DBInterface) (n : ℕ) (ψ : Type) [DecidableEq ψ] :
    Machine (State D ι n ψ × (ι → Fin n → Watch)) (Label ι n ψ) :=
  (system O D n ψ).withHistory (fun _ _ => {}) watch

theorem reach_of_watched {y : State D ι n ψ × (ι → Fin n → Watch)}
    (h : (watched O D n ψ).Reach (fun x l => Alternately x.1 l) y) : (system O D n ψ).Reach Alternately y.1 := by
  unfold watched at h
  exact h.fst fun _ _ hok => hok

/-- A call of `KeepLock` that is about to return false has made its test while the object was not held. -/
def TestedInv (x : State D ι n ψ) (g : ι → Fin n → Watch) : Prop :=
  ∀ i w fr, x.1.thr (.worker i w) = some fr → fr.pc = .kept false → (g i w).tested = false

theorem testedInv_step {g : ι → Fin n → Watch} (h : TestedInv x g) (hflags : ∀ i, FlagsInv i x.1)
    (hs : (system O D n ψ).next x l = some x') : TestedInv x' (watch x l x' g) := by
  intro i w fr' hfr' hpc'
  cases system_next hs with
  | @locks l c hfree hc =>
    by_cases hact : ∃ inp, l = .act (.worker i w) inp
    · obtain ⟨inp, rfl⟩ := hact
      obtain ⟨fr, hfr, -⟩ := act_cases hc
      rcases leadsTo_of_act hc hfr hfr' with hpc | hlead
      · -- inside a call of the database
        have htest : testing x.1 i w = false := by
          obtain ⟨pc, q⟩ := fr
          have hkept : pc = .kept false := hpc.symm.trans hpc'
          simp [testing, hfr, hkept]
        simp only [watch, htest, Bool.false_eq_true, and_false, if_false]
        exact h i w fr hfr (hpc.symm.trans hpc')
      · rw [hpc'] at hlead
        obtain ⟨hcheck, hdown⟩ := keepCheck_of_leadsTo hlead
        have htest : testing x.1 i w = true := by
          obtain ⟨pc, q⟩ := fr
          obtain rfl : pc = .keepCheck := hcheck
          simp [testing, hfr]
        simp only [watch, htest, and_self, if_true]
        by_contra hheld
        have hup := (hflags i).flags ((hflags i).held (by simpa using hheld)).2
        rw [show (x.1.fields i).lockContinue = false from hdown] at hup
        cases hup
    · push Not at hact
      have hg : watch x (.locks l) (c, x.2) g i w = g i w := by
        unfold watch
        split
        · rename_i heq
          cases heq
        · rename_i θ inp heq
          cases heq
          rw [if_neg]
          rintro ⟨rfl, -⟩
          exact hact inp rfl
        · rfl
      rw [hg]
      rw [next_worker hc (by rintro rfl; cases hfree) hact] at hfr'
      exact h i w fr' hfr' hpc'
  | queue hfree hq => exact h i w fr' hfr' hpc'
  | @accept j wake fr f period pc c q hfr hcode hc hq =>
    have hne : Thread.worker i w ≠ .caller j := by rintro ⟨⟩
    exact h i w fr' ((act_thr hc hne).symm.trans hfr') hpc'
  | @fire w₀ nd c q hdue hc hq =>
    have hg : (watch x (.fire w₀) (c, q) g i w).tested = (g i w).tested := by
      simp only [watch]
      split <;> rfl
    rw [hg]
    by_cases hiw : i = nd.event.function ∧ w = w₀
    · obtain ⟨rfl, rfl⟩ := hiw
      rcases next_cases hc with ⟨_, hl, -⟩ | ⟨_, _, hl, -⟩ | ⟨_, _, hl, -, rfl⟩ | ⟨_, _, hl, -⟩ <;> cases hl
      simp only [State.goto_thr, Function.update_self, Option.some.injEq] at hfr'
      rw [← hfr'] at hpc'
      cases hpc'
    · rw [next_worker hc (by rintro ⟨⟩; exact hiw ⟨rfl, rfl⟩) (by rintro inp ⟨⟩)] at hfr'
      exact h i w fr' hfr' hpc'
  | @finish w₀ nd fr res c q hw₀ hfr hcode hc hq =>
    by_cases hiw : i = nd.event.function ∧ w = w₀
    · obtain ⟨rfl, rfl⟩ := hiw
      rw [act_ret hc hfr hcode] at hfr'
      simp at hfr'
    · have hθ : Thread.worker i w ≠ .worker nd.event.function w₀ := by
        rintro ⟨⟩
        exact hiw ⟨rfl, rfl⟩
      exact h i w fr' ((act_thr hc hθ).symm.trans hfr') hpc'

/-- **A held object has a renewal registered**: an event of it is in the queue or in the hands of a worker; and a call
of `KeepLock` that tests `lock_continue_` while the object is held does not return false. -/
theorem held_has_renewal {g : ι → Fin n → Watch}
    (h : (watched O D n ψ).Reach (fun x l => Alternately x.1 l) (x, g)) (i : ι) :
    (x.1.held i = true → (∃ nd ∈ x.2.sh.queue, nd.event.function = i) ∨
      ∃ w nd, (x.2.worker w).node = some nd ∧ nd.event.function = i) ∧
    ∀ w fr, x.1.thr (.worker i w) = some fr → fr.pc = .kept false → (g i w).tested = false := by
  have hr : (system O D n ψ).Reach Alternately x := reach_of_watched h
  refine ⟨fun hheld => ?_, ?_⟩
  · have hflags : FlagsInv i x.1 := .of_reach (alternating_of_reach (fun _ _ hok => hok) hr)
    rcases Registered.of_reach (fun _ _ hok => hok) hr i (hflags.held hheld).2 with hq | ⟨w, nd, hnd, hf, -⟩
    · exact .inl hq
    · exact .inr ⟨w, nd, hnd, hf⟩
  · have hinv : TestedInv x g := by
      refine h.invariant (I := fun y => TestedInv y.1 y.2) (fun y h₀ i w fr hfr => ?_) fun y l y' hr' hi _ hn => ?_
      · rw [(And.left (And.left h₀)).thr] at hfr
        cases hfr
      · obtain ⟨hn, hg⟩ := Machine.withHistory_next.mp hn
        rw [hg]
        have halt := alternating_of_reach (fun _ _ hok => hok) (reach_of_watched hr')
        exact testedInv_step hi (fun i => .of_reach halt) hn
    exact hinv i

/-- The labels of a `lock()` on the host 0 that succeeds at once. -/
def holdLabels (i : Bool) : List (Label Bool 1 Empty) :=
  (lockPass i [0] 0 ++ (Cluster.accept i 0).take 2).map .locks ++ .accept i none ::
    [.locks (.act (.caller i) .none), .locks (.act (.caller i) .none)]

/-- The only worker, from the beginning, takes the first node and parks with it. -/
def takeLabels : List (Label Bool 1 Empty) := List.replicate 7 (.queue (.worker 0 .none))

def alternates (y : State (dbRedis 16) Bool 1 Empty × (Bool → Fin 1 → Watch)) : Label Bool 1 Empty → Bool
  | .locks (.call i c) => decide (Alternates (y.1.1.held i) c)
  | _ => true

theorem alternately_of_alternates (y : State (dbRedis 16) Bool 1 Empty × (Bool → Fin 1 → Watch))
    (l : Label Bool 1 Empty) (h : alternates y l = true) : Alternately y.1 l := by
  rintro i c rfl
  exact of_decide_eq_true h

/-- An object that is held, its event in the hands of the worker. -/
theorem held_has_renewal_one : ∃ y : State (dbRedis 16) Bool 1 Empty × (Bool → Fin 1 → Watch),
    (watched (twoObjects [0]) (dbRedis 16) 1 Empty).Reach (fun y l => Alternately y.1 l) y ∧
      y.1.1.held false = true ∧ ((∃ nd ∈ y.1.2.sh.queue, nd.event.function = false) ∨
        ∃ w nd, (y.1.2.worker w).node = some nd ∧ nd.event.function = false) := by
  obtain ⟨⟨x, g⟩, hr, hs⟩ := Machine.exists_reach (watched (twoObjects [0]) (dbRedis 16) 1 Empty)
    (holdLabels false ++ takeLabels) (fun y => y.1.1.held false && y.1.2.sh.queue.isEmpty) alternately_of_alternates
    (s := ((State.blank, TimeoutQueue.State.blank), fun _ _ => {}))
    ⟨⟨State.blank_initial, TimeoutQueue.State.blank_initial⟩, rfl⟩ (by decide)
  simp only [Bool.and_eq_true] at hs
  exact ⟨(x, g), hr, hs.1, (held_has_renewal hr false).1 hs.1⟩

/-- The worker has called `KeepLock` of the first object while it was held, and the call is about to return false. -/
def returnsFalse (y : State (dbRedis 16) Bool 1 Empty × (Bool → Fin 1 → Watch)) : Bool :=
  match y.1.1.thr (.worker false 0) with
  | some ⟨.kept false, _⟩ => (y.2 false 0).started
  | _ => false

/-- `KeepLock` is called while the object is held, `unlock()` takes `mtx_` first, and the call returns false. -/
theorem keepLock_started_held_returns_false :
    ¬ ∀ y : State (dbRedis 16) Bool 1 Empty × (Bool → Fin 1 → Watch),
      (watched (twoObjects [0]) (dbRedis 16) 1 Empty).Reach (fun y l => Alternately y.1 l) y →
        ∀ i w fr, y.1.1.thr (.worker i w) = some fr → fr.pc = .kept false → (y.2 i w).started = false := by
  intro hall
  obtain ⟨y, hr, hs⟩ := Machine.exists_reach (watched (twoObjects [0]) (dbRedis 16) 1 Empty)
    [holdLabels false, takeLabels,
      [.queue (.tick 13332), .queue (.worker 0 .timeout), .queue (.worker 0 .none), .fire 0],
      (unlockAll false [0]).map .locks, List.replicate 2 (.locks (.act (.worker false 0) .none))].flatten
    returnsFalse alternately_of_alternates
    (s := ((State.blank, TimeoutQueue.State.blank), fun _ _ => {}))
    ⟨⟨State.blank_initial, TimeoutQueue.State.blank_initial⟩, rfl⟩ (by decide)
  unfold returnsFalse at hs
  split at hs
  · rename_i hfr
    rw [hall y hr false 0 _ hfr rfl] at hs
    cases hs
  · cases hs

end DistributedLock.Renewal
