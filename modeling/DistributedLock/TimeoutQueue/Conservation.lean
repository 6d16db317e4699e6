import DistributedLock.Lib.Counting
import DistributedLock.TimeoutQueue.Numbered
import Mathlib.Algebra.GroupWithZero.Nat

/-!
# The events are conserved

Give every event a weight.  `weight v s` is the weight of what is in the queue and in the hands of the workers.  A step
of the queue adds the weight of the event it pushes, and takes away the weight of the event whose function has returned
`false`; nothing else changes it (`weight_step`).

With the events numbered and the weight 1 for the event `k`, this says that every event that has been pushed is in one
place: in the queue, in the hands of one worker, or retired (`event_in_one_place`).
-/

set_option linter.unusedSectionVars false

namespace DistributedLock.TimeoutQueue

open Lib

variable {φ : Type} {n : ℕ} {ψ : Type} [DecidableEq ψ] {s s' : State φ n ψ} {w : Fin n} {inp : Input n}

/-! ## Weights -/

def queued (v : Event φ → ℕ) (queue : List (Node φ)) : ℕ := (queue.map fun nd => v nd.event).sum

/-- The weight of the event in the hands of a worker. -/
def Point.weight (v : Event φ → ℕ) (p : Point φ) : ℕ := p.node.elim 0 fun nd => v nd.event

/-- The weight of all events in the queue and in the hands of the workers. -/
def weight (v : Event φ → ℕ) (s : State φ n ψ) : ℕ := queued v s.sh.queue + ∑ w, (s.worker w).weight v

def pushed (v : Event φ → ℕ) : Label φ n ψ → ℕ
  | .pushEvent f period _ => v ⟨f, period⟩
  | _ => 0

def retired (v : Event φ → ℕ) (s : State φ n ψ) : Label φ n ψ → ℕ
  | .worker w (.result false) => (s.worker w).weight v
  | _ => 0

variable {v : Event φ → ℕ}

theorem queued_insertNode (nd : Node φ) (queue : List (Node φ)) :
    queued v (insertNode nd queue) = queued v queue + v nd.event := by
  have hperm := (List.perm_orderedInsert (fun a b : Node φ => a.key < b.key) nd queue).map fun nd => v nd.event
  unfold queued insertNode
  rw [hperm.sum_eq, List.map_cons, List.sum_cons]
  omega

theorem weight_of_node {p q : Point φ} (h : p.node = q.node) : p.weight v = q.weight v := by
  unfold Point.weight
  rw [h]

theorem weight_of_none {p : Point φ} (h : p.node = none) : p.weight v = 0 := by
  unfold Point.weight
  rw [h]
  rfl

theorem weight_of_some {p : Point φ} {nd : Node φ} (h : p.node = some nd) : p.weight v = v nd.event := by
  unfold Point.weight
  rw [h]
  rfl

/-- The weight 1 for the events that meet `p`. -/
def pick (p : Event φ → Bool) (e : Event φ) : ℕ := (p e).toNat

theorem queued_pick (p : Event φ → Bool) (queue : List (Node φ)) :
    queued (pick p) queue = queue.countP fun nd => p nd.event := by
  unfold queued
  induction queue with
  | nil => rfl
  | cons nd queue ih =>
    rw [List.map_cons, List.sum_cons, ih, List.countP_cons, add_comm]
    cases hp : p nd.event <;> simp [pick, hp]

theorem weight_pick (p : Event φ → Bool) (pt : Point φ) :
    pt.weight (pick p) = (pt.node.any fun nd => p nd.event).toNat := by
  unfold Point.weight
  cases pt.node <;> rfl

theorem hand_le (v : Event φ → ℕ) (s : State φ n ψ) (w : Fin n) :
    (s.worker w).weight v ≤ ∑ w, (s.worker w).weight v :=
  Finset.single_le_sum (f := fun w => (s.worker w).weight v) (fun _ _ => Nat.zero_le _) (Finset.mem_univ w)

/-! ## What the steps do to them -/

theorem weight_update {p : Point φ} (hw : s'.worker = Function.update s.worker w p) :
    weight v s' + queued v s.sh.queue + (s.worker w).weight v =
      weight v s + queued v s'.sh.queue + p.weight v := by
  have hsum := sum_update_add (Point.weight v) s.worker w p
  unfold weight
  rw [hw]
  omega

theorem weight_goto {p : Point φ} (hq : s'.sh.queue = s.sh.queue) (hw : s'.worker = Function.update s.worker w p)
    (hp : p.node = (s.worker w).node) : weight v s' = weight v s := by
  have hupd := weight_update (v := v) hw
  rw [hq, weight_of_node hp] at hupd
  omega

theorem weight_notifyOne {t : Option (Fin n)} (hs : s.notifyOne t = some s') : weight v s' = weight v s := by
  rcases notifyOne_cases hs with ⟨w, -, -, rfl⟩ | ⟨-, -, rfl⟩
  · exact weight_goto (w := w) rfl rfl (Point.wake_node _)
  · rfl

theorem weight_insert {nd : Node φ} {p : Point φ} (hnd : (s.worker w).node = some nd) (hp : p.node = none) :
    weight v ((s.setQueue (insertNode nd s.sh.queue)).goto w p) = weight v s := by
  have hw : ((s.setQueue (insertNode nd s.sh.queue)).goto w p).worker = Function.update s.worker w p := rfl
  have hupd := weight_update (v := v) hw
  have hq : queued v ((s.setQueue (insertNode nd s.sh.queue)).goto w p).sh.queue =
      queued v s.sh.queue + v nd.event := queued_insertNode nd _
  rw [hq, weight_of_some hnd, weight_of_none hp] at hupd
  omega

/-- **The steps of a worker.** -/
theorem weight_acts (ha : Acts s w inp s') :
    weight v s' + retired v s (.worker w inp : Label φ n ψ) = weight v s := by
  have hk := code_hands s.sh (s.worker w)
  cases ha with
  | tau hc => rw [hc] at hk; exact weight_goto rfl rfl hk
  | lock hc hfree => rw [hc] at hk; exact weight_goto rfl rfl hk
  | unlock hc => rw [hc] at hk; exact weight_goto rfl rfl hk
  | notifyAllDone hc => rw [hc] at hk; exact weight_goto rfl rfl hk
  | @extract k nd rest hc hq =>
    rw [hc] at hk
    have hw : (((s.setQueue rest).addOut 1).goto w (k nd)).worker = Function.update s.worker w (k nd) := rfl
    have hupd := weight_update (v := v) hw
    have hrest : queued v s.sh.queue = v nd.event + queued v rest := by
      rw [hq]
      exact List.sum_cons
    rw [hrest, weight_of_none hk.1, weight_of_some (hk.2 nd)] at hupd
    have hq' : queued v (((s.setQueue rest).addOut 1).goto w (k nd)).sh.queue = queued v rest := rfl
    simp only [retired]
    omega
  | insert hc => rw [hc] at hk; exact weight_insert hk.1 hk.2
  | insertNotify hc hn =>
    rw [hc] at hk
    exact (weight_notifyOne hn).trans (weight_insert hk.1 hk.2)
  | spurious hc => rw [hc] at hk; exact weight_goto rfl rfl hk.1
  | timeout hc hd => rw [hc] at hk; exact weight_goto rfl rfl (hk.2 _ rfl)
  | @call f k isRepeat hc =>
    rw [hc] at hk
    obtain ⟨nd, hnd, -, htrue, hfalse⟩ := hk
    have hw : (s.goto w (k isRepeat)).worker = Function.update s.worker w (k isRepeat) := rfl
    have hupd := weight_update (v := v) hw
    have hq : (s.goto w (k isRepeat)).sh.queue = s.sh.queue := rfl
    rw [hq] at hupd
    cases isRepeat with
    | true =>
      have hlater : (k true).weight v = v nd.later.event := weight_of_some htrue
      rw [hlater, weight_of_some hnd] at hupd
      simp only [retired, Node.later] at hupd ⊢
      omega
    | false =>
      rw [weight_of_none hfalse] at hupd
      simp only [retired]
      omega
  | leave hc => rw [hc] at hk; exact weight_goto rfl rfl (hk.2.trans hk.1.symm)

/-- **The law of conservation.** -/
theorem weight_step {l : Label φ n ψ} (hs : next s l = some s') :
    weight v s' + retired v s l = weight v s + pushed v l := by
  rcases next_cases hs with ⟨t, rfl, -, rfl⟩ | ⟨f, period, t, rfl, -, hn⟩ | ⟨rfl, rfl⟩ | ⟨rfl, -, rfl⟩ |
    ⟨w, inp, rfl, ha⟩ | ⟨a, rfl, hw⟩
  · rfl
  · rw [weight_notifyOne hn]
    unfold weight
    simp only [State.setQueue_sh_queue, State.setQueue_worker, queued_insertNode, retired, pushed]
    omega
  · rfl
  · have hwake : (∑ w, (s.worker w).wake.weight v) = ∑ w, (s.worker w).weight v :=
      Finset.sum_congr rfl fun w _ => weight_of_node (Point.wake_node _)
    unfold weight retired pushed
    rw [hwake]
  · rw [weight_acts ha]
    rfl
  · rcases stepWaiter_cases hw with ⟨p, -, rfl⟩ | ⟨p, -, -, rfl⟩ | ⟨p, -, rfl⟩ <;> rfl

theorem weight_initial (h : Initial s) : weight v s = 0 := by
  have hhands : ∀ w, (s.worker w).weight v = 0 := by
    intro w
    rw [h.worker]
    rfl
  unfold weight
  rw [h.queue]
  simp [hhands, queued]

/-! ## Nothing is extracted from an empty queue -/

/-- A worker on its way to `extract` has seen a node in the queue, or `quit_`. -/
def Point.StockedAt (sh : Shared φ) : Point φ → Prop
  | .testQuit => sh.quit = true ∨ sh.queue ≠ []
  | .extract => sh.queue ≠ []
  | _ => True

def Stocked (s : State φ n ψ) : Prop := ∀ w, (s.worker w).StockedAt s.sh

/-- Where each instruction leads to. -/
def Stocks (sh : Shared φ) : Instr φ → Prop
  | .tau p => p.StockedAt sh
  | .lock p | .unlock p | .notifyAllDone p | .insert _ _ p | .leave _ p => ∀ sh', p.StockedAt sh'
  | .extract k => ∀ nd sh', (k nd).StockedAt sh'
  | .parked p d => (∀ sh', p.StockedAt sh') ∧ ∀ x ∈ d, ∀ sh', x.2.StockedAt sh'
  | .call _ k => ∀ b sh', (k b).StockedAt sh'
  | .ret => True

theorem code_stocks {sh : Shared φ} {p : Point φ} (h : p.StockedAt sh) : Stocks sh (code sh p) := by
  cases p with
  | loop | untilTest nd => simp only [code]; split <;> trivial
  | testAllDone | testDue nd =>
    simp only [code]
    split
    · intro _; trivial
    · trivial
  | testEmpty =>
    simp only [code]
    split
    · trivial
    · rename_i hq
      exact .inr fun hnil => hq (by rw [hnil]; rfl)
  | idleTest =>
    simp only [code]
    split
    · rename_i hp
      simp only [Shared.idlePred, Bool.or_eq_true, Bool.not_eq_true', List.isEmpty_eq_false_iff] at hp
      exact hp
    · trivial
  | testQuit =>
    simp only [code]
    split
    · intro _; trivial
    · rename_i hq
      exact h.resolve_left hq
  | run nd => intro b _; beta_reduce; split <;> trivial
  | _ => simp [code, Stocks, Point.StockedAt]

namespace Stocked

theorem init (h : Initial s) : Stocked s := by
  intro w
  rw [h.worker]
  trivial

/-- The worker `w` goes on at `p`; if the queue has become empty, then with `mtx_` in the hands of `w`. -/
theorem goto (h : Stocked s) {p : Point φ} (hw : s'.worker = Function.update s.worker w p)
    (hquit : s'.sh.quit = s.sh.quit)
    (hq : ∀ w', w' ≠ w → (s.worker w').owns = true → s.sh.queue ≠ [] → s'.sh.queue ≠ [])
    (hp : p.StockedAt s'.sh) : Stocked s' := by
  intro w'
  rw [hw]
  by_cases hww : w' = w
  · rw [hww, Function.update_self]
    exact hp
  · rw [Function.update_of_ne hww]
    have hw' := h w'
    cases hpt : s.worker w' with
    | testQuit =>
      rw [hpt] at hw'
      exact hw'.imp (fun hquit' => hquit.trans hquit') (hq w' hww (by rw [hpt]; rfl))
    | extract =>
      rw [hpt] at hw'
      exact hq w' hww (by rw [hpt]; rfl) hw'
    | _ => trivial

theorem wake (p : Point φ) {sh : Shared φ} (h : p.StockedAt sh) : p.wake.StockedAt sh := by
  cases p <;> exact h

theorem notifyOne (h : Stocked s) {t : Option (Fin n)} (hs : s.notifyOne t = some s') : Stocked s' := by
  rcases notifyOne_cases hs with ⟨w, -, -, rfl⟩ | ⟨-, -, rfl⟩
  · exact h.goto (w := w) rfl rfl (fun _ _ _ hq => hq) (wake _ (h w))
  · exact h

theorem insertNode_ne_nil (nd : Node φ) (queue : List (Node φ)) : insertNode nd queue ≠ [] :=
  List.ne_nil_of_mem (mem_insertNode.mpr (.inl rfl))

theorem acts (h : Stocked s) (ho : Owners s) (ha : Acts s w inp s') : Stocked s' := by
  have hk := code_stocks (h w)
  cases ha with
  | tau hc => rw [hc] at hk; exact h.goto rfl rfl (fun _ _ _ hq => hq) hk
  | lock hc hfree => rw [hc] at hk; exact h.goto rfl rfl (fun _ _ _ hq => hq) (hk _)
  | unlock hc => rw [hc] at hk; exact h.goto rfl rfl (fun _ _ _ hq => hq) (hk _)
  | notifyAllDone hc => rw [hc] at hk; exact h.goto rfl rfl (fun _ _ _ hq => hq) (hk _)
  | extract hc hq =>
    have hown : (s.worker w).owns = true := by
      have := code_keeps s.sh (s.worker w)
      rw [hc] at this
      exact this.1
    rw [hc] at hk
    refine h.goto rfl rfl (fun w' hww hown' _ => ?_) (hk _ _)
    -- nobody else owns the mutex
    have hm := (ho.worker w hown).symm.trans (ho.worker w' hown')
    cases hm
    exact absurd rfl hww
  | insert hc => rw [hc] at hk; exact h.goto rfl rfl (fun _ _ _ _ => insertNode_ne_nil _ _) (hk _)
  | @insertNotify nd p t s' hc hn =>
    rw [hc] at hk
    have hgo : Stocked ((s.setQueue (insertNode nd s.sh.queue)).goto w p) :=
      h.goto rfl rfl (fun _ _ _ _ => insertNode_ne_nil _ _) (hk _)
    exact hgo.notifyOne hn
  | spurious hc => rw [hc] at hk; exact h.goto rfl rfl (fun _ _ _ hq => hq) (hk.1 _)
  | timeout hc hd => rw [hc] at hk; exact h.goto rfl rfl (fun _ _ _ hq => hq) (hk.2 _ rfl _)
  | call hc => rw [hc] at hk; exact h.goto rfl rfl (fun _ _ _ hq => hq) (hk _ _)
  | leave hc => rw [hc] at hk; exact h.goto rfl rfl (fun _ _ _ hq => hq) (hk _)

theorem step (h : Stocked s) (ho : Owners s) {l : Label φ n ψ} (hs : next s l = some s') : Stocked s' := by
  rcases next_cases hs with ⟨t, -, -, rfl⟩ | ⟨f, period, t, -, -, hn⟩ | ⟨-, rfl⟩ | ⟨-, -, rfl⟩ | ⟨w, inp, -, ha⟩ |
    ⟨a, -, hw⟩
  · exact h
  · have hq : Stocked (s.setQueue (insertNode ⟨s.sh.now + period, f, period⟩ s.sh.queue)) := by
      intro w
      have hw := h w
      simp only [State.setQueue_worker]
      cases hp : s.worker w with
      | testQuit => exact .inr (insertNode_ne_nil _ _)
      | extract => exact insertNode_ne_nil _ _
      | _ => trivial
    exact hq.notifyOne hn
  · intro w
    have hw := h w
    cases hp : s.worker w with
    | testQuit => exact .inl rfl
    | extract => rw [hp] at hw; exact hw
    | _ => trivial
  · exact fun w => wake _ (h w)
  · exact h.acts ho ha
  · rcases stepWaiter_cases hw with ⟨p, -, rfl⟩ | ⟨p, -, -, rfl⟩ | ⟨p, -, rfl⟩ <;> exact h

end Stocked

/-! ## Numbered events -/

section Numbered

variable {y y' : State (ℕ × φ) n ψ × List Record} {k : ℕ}

/-- The weight of the event `k`. -/
def mark (k : ℕ) : Event (ℕ × φ) → ℕ := pick fun e => e.function.1 = k

/-- The event `k` is in the hands of the worker. -/
def Point.has (k : ℕ) (p : Point (ℕ × φ)) : Bool := p.node.any fun nd => nd.number = k

/-- How often the event `k` is in the queue. -/
def State.inQueue (s : State (ℕ × φ) n ψ) (k : ℕ) : ℕ := s.sh.queue.countP fun nd => nd.number = k

/-- The event `k` has been retired. -/
def gone (k : ℕ) (log : List Record) : Bool := log[k]?.any Record.retired

theorem mark_apply (k : ℕ) (e : Event (ℕ × φ)) : mark k e = if e.function.1 = k then 1 else 0 := by
  unfold mark pick
  by_cases hk : e.function.1 = k <;> simp [hk]

theorem queued_mark (s : State (ℕ × φ) n ψ) (k : ℕ) : queued (mark k) s.sh.queue = s.inQueue k := queued_pick _ _

theorem weight_mark (p : Point (ℕ × φ)) (k : ℕ) : p.weight (mark k) = (p.has k).toNat := weight_pick _ _

theorem has_of_node {p : Point (ℕ × φ)} {nd : Node (ℕ × φ)} (h : p.node = some nd) : p.has nd.number = true := by
  unfold Point.has
  rw [h]
  exact decide_eq_true rfl

/-- **Every event is in one place.**  Before it is pushed it is nowhere. -/
def Accounted (y : State (ℕ × φ) n ψ × List Record) : Prop :=
  ∀ k, weight (mark k) y.1 + (gone k y.2).toNat = if k < y.2.length then 1 else 0

theorem weight_pos_of_node {s : State (ℕ × φ) n ψ} {nd : Node (ℕ × φ)} (h : (s.worker w).node = some nd) :
    0 < weight (mark nd.number) s := by
  have hle := hand_le (mark nd.number) s w
  rw [weight_mark, has_of_node h] at hle
  unfold weight
  simp only [Bool.toNat_true] at hle
  omega

namespace Accounted

theorem init (h : (numbered φ n ψ).init y) : Accounted y := by
  obtain ⟨h₀, hlog⟩ := h
  intro k
  rw [weight_initial h₀, hlog]
  rfl

theorem gone_append (k : ℕ) (log : List Record) (r : Record) (hr : r.retired = false) :
    gone k (log ++ [r]) = gone k log := by
  unfold gone
  by_cases hk : k < log.length
  · rw [List.getElem?_append_left hk]
  · by_cases hk' : k = log.length
    · subst hk'
      simp [hr]
    · have hlen : (log ++ [r]).length ≤ k := by simp only [List.length_append, List.length_singleton]; omega
      rw [List.getElem?_eq_none hlen, List.getElem?_eq_none (by omega)]

theorem gone_modify (k i : ℕ) (log : List Record) (g : Record → Record) (hg : ∀ r, (g r).retired = r.retired) :
    gone k (log.modify i g) = gone k log := by
  unfold gone
  rw [List.getElem?_modify]
  cases log[k]? with
  | none => rfl
  | some r =>
    by_cases hik : i = k <;> simp [hik, hg]

theorem gone_finish (k i : ℕ) (log : List Record) :
    gone k (log.modify i (Record.finish false)) = (gone k log || (decide (i = k) && decide (k < log.length))) := by
  unfold gone
  rw [List.getElem?_modify]
  by_cases hk : k < log.length
  · rw [List.getElem?_eq_getElem hk]
    by_cases hik : i = k <;> simp [hik, hk, Record.finish]
  · rw [List.getElem?_eq_none (by omega)]
    simp [hk]

theorem quiet (h : Accounted y) (hw : ∀ k, weight (mark k) y'.1 = weight (mark k) y.1)
    (hg : ∀ k, gone k y'.2 = gone k y.2) (hl : y'.2.length = y.2.length) : Accounted y' := by
  intro k
  rw [hw, hg, hl]
  exact h k

theorem happens (h : Accounted y) {l : Label φ n ψ} (hs : Happens y l y') : Accounted y' := by
  cases hs with
  | @push f period t s' hn =>
    intro k
    have hstep := weight_step (v := mark k) hn
    have hk := h k
    have hgone := gone_append k y.2 ⟨y.1.sh.now, period, [], 0, false⟩ rfl
    have hcount : (if k < y.2.length + 1 then 1 else 0) =
        (if k < y.2.length then 1 else 0) + if y.2.length = k then 1 else 0 := by
      split_ifs <;> omega
    simp only [retired, pushed, mark_apply] at hstep
    simp only [hgone, List.length_append, List.length_singleton, hcount]
    omega
  | @start w nd hw hdue hn =>
    refine h.quiet (fun k => ?_) (fun k => gone_modify k _ _ _ fun _ => rfl) (List.length_modify _ _ _)
    have hstep := weight_step (v := mark k) hn
    simpa [retired, pushed] using hstep
  | @finish w nd isRepeat hw hn =>
    cases isRepeat with
    | true =>
      refine h.quiet (fun k => ?_) (fun k => gone_modify k _ _ _ fun _ => rfl) (List.length_modify _ _ _)
      have hstep := weight_step (v := mark k) hn
      simpa [retired, pushed] using hstep
    | false =>
      have hnode : (y.1.worker w).node = some nd := by rw [hw]; rfl
      intro k
      have hstep := weight_step (v := mark k) hn
      have hk := h k
      simp only [retired, pushed, weight_of_some hnode, mark_apply] at hstep
      simp only [gone_finish, List.length_modify]
      by_cases hnd : nd.number = k
      · -- the event was in the hands of `w`, and so it has been pushed and not retired
        subst hnd
        have hpos := weight_pos_of_node hnode
        have hlt : nd.number < y.2.length := by
          by_contra hlt
          rw [if_neg hlt] at hk
          omega
        have hgone : gone nd.number y.2 = false := by
          cases hg : gone nd.number y.2 with
          | false => rfl
          | true =>
            rw [hg, if_pos hlt, Bool.toNat_true] at hk
            omega
        simp only [Node.number] at *
        simp only [hgone, hlt, if_true, decide_true, Bool.and_self, Bool.or_true, Bool.toNat_true,
          Bool.toNat_false] at hk hstep ⊢
        omega
      · have hnd' : ¬ nd.event.function.1 = k := hnd
        simp only [hnd, hnd', if_false, decide_false, Bool.false_and, Bool.or_false] at hstep ⊢
        omega
  | @other l s' hn hpush hres hrun =>
    refine h.quiet (fun k => ?_) (fun _ => rfl) rfl
    have hstep := weight_step (v := mark k) hn
    cases l with
    | pushEvent f period t => exact absurd rfl (hpush f period t)
    | worker w inp =>
      cases inp with
      | result b => exact absurd rfl (hres w b)
      | none | spurious | timeout | wake t => simpa [retired, pushed, Label.number, Label.map] using hstep
    | tick t | quitStore | quitNotify | waiter a =>
      simpa [retired, pushed, Label.number, Label.map] using hstep

theorem of_reach {ok : State (ℕ × φ) n ψ × List Record → Label φ n ψ → Prop}
    (h : (numbered φ n ψ).Reach ok y) : Accounted y :=
  h.invariant (I := Accounted) (fun _ h₀ => init h₀) fun _ _ _ _ hi _ hn => hi.happens (happens_of_next hn)

theorem weight_le_one (h : Accounted y) (k : ℕ) : weight (mark k) y.1 ≤ 1 := by
  have hk := h k
  split_ifs at hk <;> omega

theorem hand_unique (h : Accounted y) {w w' : Fin n} (hw : (y.1.worker w).has k = true)
    (hw' : (y.1.worker w').has k = true) : w = w' := by
  have hle := h.weight_le_one k
  unfold weight at hle
  have hsum : (∑ w, (y.1.worker w).weight (mark k)) ≤ 1 := by omega
  refine eq_of_sum_le_one hsum ?_ ?_
  · rw [weight_mark, hw]
    exact Nat.one_pos
  · rw [weight_mark, hw']
    exact Nat.one_pos

theorem inQueue_of_hand (h : Accounted y) (hw : (y.1.worker w).has k = true) : y.1.inQueue k = 0 := by
  have hle := h.weight_le_one k
  have hpos := hand_le (mark k) y.1 w
  rw [weight_mark, hw, Bool.toNat_true] at hpos
  rw [weight, queued_mark] at hle
  omega

end Accounted

/-- Where the event `k`, with the record `r`, is. -/
inductive Place (s : State (ℕ × φ) n ψ) (k : ℕ) (r : Record) : Prop
  | inQueue (hq : s.inQueue k = 1) (hw : ∀ w, (s.worker w).has k = false) (hr : r.retired = false)
  | inHands (hq : s.inQueue k = 0) (hw : ∃! w, (s.worker w).has k = true) (hr : r.retired = false)
  | retired (hq : s.inQueue k = 0) (hw : ∀ w, (s.worker w).has k = false) (hr : r.retired = true)

theorem Accounted.place (h : Accounted y) {r : Record} (hr : y.2[k]? = some r) : Place y.1 k r := by
  have hk := h k
  have hlt : k < y.2.length := (List.getElem?_eq_some_iff.mp hr).1
  have hgone : gone k y.2 = r.retired := by
    unfold gone
    rw [hr]
    rfl
  rw [if_pos hlt, hgone, weight, queued_mark] at hk
  by_cases hhand : ∃ w, (y.1.worker w).has k = true
  · obtain ⟨w, hw⟩ := hhand
    have hpos := hand_le (mark k) y.1 w
    rw [weight_mark, hw, Bool.toNat_true] at hpos
    have hq := h.inQueue_of_hand hw
    have hret : r.retired = false := by
      cases hb : r.retired with
      | false => rfl
      | true =>
        rw [hb, Bool.toNat_true] at hk
        omega
    exact .inHands hq ⟨w, hw, fun w' hw' => h.hand_unique hw' hw⟩ hret
  · have hnone : ∀ w, (y.1.worker w).has k = false := by
      intro w
      by_contra hw
      exact hhand ⟨w, by simpa using hw⟩
    have hsum : (∑ w, (y.1.worker w).weight (mark k)) = 0 := by
      refine Finset.sum_eq_zero fun w _ => ?_
      rw [weight_mark, hnone w]
      rfl
    cases hret : r.retired with
    | false =>
      rw [hret, Bool.toNat_false] at hk
      exact .inQueue (by omega) hnone hret
    | true =>
      rw [hret, Bool.toNat_true] at hk
      exact .retired (by omega) hnone hret

/-- **No event is lost, and none is duplicated.**  Every event that has been pushed is once in the queue, or in the
hands of one worker, or its function has returned `false`; its function never runs on two workers at once; and who is
about to extract a node finds one. -/
theorem event_in_one_place (h : (numbered φ n ψ).Reach (fun _ _ => True) y) :
    (∀ k r, y.2[k]? = some r → Place y.1 k r) ∧
    (∀ w w' nd nd', y.1.worker w = .run nd → y.1.worker w' = .run nd' → nd.number = nd'.number → w = w') ∧
    ∀ w, y.1.worker w = .extract → y.1.sh.queue ≠ [] := by
  have hacc := Accounted.of_reach h
  refine ⟨fun k r hr => hacc.place hr, fun w w' nd nd' hw hw' hnd => ?_, fun w hw => ?_⟩
  · have hnode : (y.1.worker w).node = some nd := by rw [hw]; rfl
    have hnode' : (y.1.worker w').node = some nd' := by rw [hw']; rfl
    exact hacc.hand_unique (has_of_node hnode) (hnd ▸ has_of_node hnode')
  · have hinv : Owners y.1 ∧ Stocked y.1 :=
      numbered_invariant (I := fun s => Owners s ∧ Stocked s) (fun _ h₀ => ⟨.init h₀, .init h₀⟩)
        (fun _ _ _ hi hn => ⟨hi.1.step hn, hi.2.step hi.1 hn⟩) h
    have hst := hinv.2 w
    rw [hw] at hst
    exact hst

/-- An event that the only worker has taken out of the queue while `quit_` was set. -/
theorem event_in_one_place_one : ∃ y : State (ℕ × Unit) 1 Empty × List Record,
    (numbered Unit 1 Empty).Reach (fun _ _ => True) y ∧
    (y.2.length = 1 ∧ y.1.sh.quit = true ∧ (y.1.worker 0).has 0 = true) ∧ ∀ k r, y.2[k]? = some r → Place y.1 k r := by
  have hrun := (numbered Unit 1 Empty).exists_reach_of_decidable (fun _ _ => True)
    [[.pushEvent () 10 none], List.replicate 5 (.worker 0 .none), [.quitStore]].flatten
    (fun y => y.2.length == 1 && y.1.sh.quit && (y.1.worker 0).has 0) (s := (State.blank, []))
    ⟨State.blank_initial, rfl⟩ (by decide)
  obtain ⟨y, hr, hp⟩ := hrun
  simp only [Bool.and_eq_true, beq_iff_eq] at hp
  exact ⟨y, hr, ⟨hp.1.1, hp.1.2, hp.2⟩, (event_in_one_place hr).1⟩

end Numbered

end DistributedLock.TimeoutQueue
