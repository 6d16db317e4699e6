import DistributedLock.Pipeline.Defs
import Mathlib.Algebra.Order.BigOperators.Group.List
import Mathlib.Algebra.Order.Group.Nat

/-!
# `sync_commit` returns with the reply

Whatever the network, the server and the other threads do, and wherever the connection is lost,

* a callback is called once, by the worker or by a thread of `clear_callbacks` (`called_once`): a promise is not
  kept twice, which would throw `future_error`;
* a thread that has come out of `sync_commit` finds its promise kept (`sync_commit_delivers`), so `get` of the
  future does not block, if no thread tests the condition of `sync_commit` while `clear_callbacks` of another one
  has emptied the queue and not counted its commands yet; otherwise it may block (`promise_missed`).

Every command is in the queue, with the worker, in the local queue of a thread whose commit has failed, with a
thread of `clear_callbacks`, or its promise is kept (`Conserved`); `m_callbacks_running` counts the callbacks of the
worker and of the threads of `clear_callbacks` that are not done (`running_step`).
-/

set_option linter.unusedSectionVars false

namespace DistributedLock.Pipeline

open Lib Resp

variable {τ : Type} [DecidableEq τ] {s s' : State τ} {l : Label τ} {a : τ} {k : ℕ}

/-! ## What does not change -/

theorem Call.wake_number (c : Call) : c.wake.number = c.number := by
  unfold wake
  split <;> rfl

theorem getElem?_split {α : Type*} {l : List α} {i : ℕ} {x : α} (h : l[i]? = some x) :
    ∃ pre post, l = pre ++ x :: post ∧ (∀ y, l.set i y = pre ++ y :: post) ∧ l.eraseIdx i = pre ++ post := by
  induction l generalizing i with
  | nil => simp at h
  | cons y l ih =>
    cases i with
    | zero =>
      obtain rfl : y = x := by simpa using h
      exact ⟨[], l, rfl, fun _ => rfl, rfl⟩
    | succ i =>
      obtain ⟨pre, post, rfl, hset, herase⟩ := ih (by simpa using h)
      exact ⟨y :: pre, post, rfl, fun z => by simp [hset], by simp [herase]⟩

/-- The local queue of a thread in `clear_callbacks`. -/
def Stage.queue : Stage → List ℕ
  | .moved queue => queue
  | _ => []

def Call.queue : Option Call → List ℕ
  | some c => c.stage.queue
  | none => []

def Stage.thrown : Stage → Bool
  | .throwing | .moving | .moved _ => true
  | _ => false

def State.moved (s : State τ) (a : τ) : List ℕ := Call.queue (s.calls a)

theorem State.moved_setCall (t : State τ) (b : τ) (o : Option Call) :
    (t.setCall b o).moved = Function.update t.moved b (Call.queue o) := by
  funext a
  by_cases hab : a = b
  · rw [hab]
    simp [State.moved, State.setCall]
  · simp [State.moved, State.setCall, hab]

theorem State.moved_notifyAll (t : State τ) : t.notifyAll.moved = t.moved := by
  funext a
  unfold State.moved State.notifyAll
  cases hc : t.calls a with
  | none => simp [hc]
  | some c =>
    rcases c with ⟨k, stage⟩
    cases stage <;> simp [hc, Call.wake, Call.queue, Stage.queue]

/-- The callbacks that the threads of `clear_callbacks` still count. -/
def State.uncleared (s : State τ) : ℕ := (s.clearings.map fun c => c.queue.length).sum

/-! ## The counter -/

theorem clearCallbacks_running (s : State τ) :
    s.clearCallbacks.callbacksRunning + s.uncleared = s.callbacksRunning + s.clearCallbacks.uncleared := by
  unfold State.clearCallbacks State.uncleared
  split
  · rfl
  · simp only [List.map_append, List.map_cons, List.map_nil, List.sum_append, List.sum_cons, List.sum_nil]
    omega

/-- **The counter of running callbacks.** -/
theorem running_step (h : s.callbacksRunning = s.io.running + s.uncleared) (hs : Steps s l s') :
    s'.callbacksRunning = s'.io.running + s'.uncleared := by
  cases hs with
  | send | sync | syncHandling | commit | commitThrows | emptied | empty | move | synced | check | park | spurious | get
  | write | arrive | serve | junk => exact h
  | count _ =>
    simp only [State.uncleared, State.setCall, List.map_append, List.map_cons, List.map_nil, List.sum_append,
      List.sum_cons, List.sum_nil] at h ⊢
    omega
  | receive hio _ _ =>
    rw [h, hio]
    refine congrArg (· + _) ?_
    rw [apply_ite Io.running]
    exact (ite_self 0).symm
  | read hio _ => rw [h, hio]; rfl
  | pop hio _ _ =>
    rw [hio] at h
    simp only [State.uncleared, Io.running] at h ⊢
    omega
  | callbackNone hio => rw [h, hio]; rfl
  | callback hio => rw [h, hio]; rfl
  | finish hio _ =>
    rw [hio] at h
    simp only [State.uncleared, State.notifyAll, Io.running] at h ⊢
    omega
  | lose hio => rcases hio with hio | hio <;> (rw [h, hio]; rfl)
  | handle hio => rw [h, hio]; rfl
  | clear hio _ =>
    have hc := clearCallbacks_running s
    rw [hio] at h
    simp only [State.uncleared, Io.running] at h hc ⊢
    omega
  | fail hc =>
    obtain ⟨pre, post, heq, hset, -⟩ := getElem?_split hc
    simp only [State.uncleared, hset] at h ⊢
    rw [h, heq]
    simp
  | forget hc =>
    obtain ⟨pre, post, heq, hset, -⟩ := getElem?_split hc
    simp only [State.uncleared, hset] at h ⊢
    rw [heq] at h
    simp only [List.map_append, List.map_cons, List.sum_append, List.sum_cons, List.length_cons] at h ⊢
    omega
  | notify hc =>
    obtain ⟨pre, post, heq, -, herase⟩ := getElem?_split hc
    simp only [State.uncleared, State.notifyAll, herase] at h ⊢
    rw [h, heq]
    simp

/-! ## Where a command is -/

def State.Answered (s : State τ) (k : ℕ) : Prop := (s.promises k).isSome = true

theorem answered_update {f : ℕ → Option Reply} {j : ℕ} {r : Reply} (h : (f k).isSome = true) :
    (Function.update f j (some r) k).isSome = true := by
  by_cases hk : k = j
  · rw [hk, Function.update_self]
    rfl
  · rwa [Function.update_of_ne hk]

theorem answered_step (h : s.Answered k) (hs : Steps s l s') : s'.Answered k := by
  unfold State.Answered at h ⊢
  cases hs with
  | callback | fail => exact answered_update h
  | clear _ _ => simpa using h
  | send | sync | syncHandling | commit | commitThrows | emptied | empty | move | count | synced | check | park | spurious
  | get | write | arrive | serve | junk | receive | read | pop | callbackNone | finish | lose | handle | forget | notify =>
    exact h

theorem sent_of_ne_send (hl : ∀ a cmd, l ≠ .send a cmd) (hs : Steps s l s') : s'.sent = s.sent := by
  cases hs with
  | send => exact absurd rfl (hl _ _)
  | clear _ _ => simp
  | _ => rfl

/-- The callback that the worker has taken and not called yet. -/
def Io.taken : Io → List ℕ
  | .calling (some k) _ => [k]
  | _ => []

/-- The callbacks that a thread of `clear_callbacks` has not called yet. -/
def Clearing.uncalled (c : Clearing) : List ℕ := if c.called then c.queue.tail else c.queue

/-- The callbacks that have not been called, and are in no local queue. -/
def State.uncalled (s : State τ) : List ℕ := s.commands ++ s.io.taken ++ s.clearings.flatMap Clearing.uncalled

/-- How often a command is there outside the local queues. -/
def State.occurrences (s : State τ) (k : ℕ) : ℕ := s.uncalled.count k + (s.promises k).toList.length

/-- Every command that has been sent is in one place, or its promise is kept. -/
structure State.Conserved (s : State τ) : Prop where
  moved : ∀ a k, k ∈ s.moved a →
    (s.moved a).count k = 1 ∧ (∀ b, k ∈ s.moved b → b = a) ∧ s.occurrences k = 0 ∧ k < s.sent.length
  others : ∀ k, (∀ a, k ∉ s.moved a) → s.occurrences k = if k < s.sent.length then 1 else 0

theorem clearCallbacks_uncalled (s : State τ) (k : ℕ) : s.clearCallbacks.uncalled.count k = s.uncalled.count k := by
  unfold State.clearCallbacks
  split
  · rfl
  · simp only [State.uncalled, List.count_append, List.flatMap_append, List.flatMap_cons, List.flatMap_nil,
      Clearing.uncalled, List.count_nil, Bool.false_eq_true, if_false]
    omega

theorem uncalled_split {pre post : List Clearing} {c : Clearing} (k : ℕ) :
    ((pre ++ c :: post).flatMap Clearing.uncalled).count k =
      (pre.flatMap Clearing.uncalled).count k + c.uncalled.count k + (post.flatMap Clearing.uncalled).count k := by
  rw [List.flatMap_append, List.flatMap_cons, List.count_append, List.count_append, Nat.add_assoc]

theorem promises_update {f : ℕ → Option Reply} {j : ℕ} {r : Reply} (hj : f j = none) (k : ℕ) :
    (Function.update f j (some r) k).toList.length = (f k).toList.length + [j].count k := by
  by_cases hk : k = j
  · subst hk
    rw [Function.update_self, hj, List.count_singleton_self]
    rfl
  · rw [Function.update_of_ne hk, List.count_singleton, if_neg (by simpa using Ne.symm hk), Nat.add_zero]

namespace State.Conserved

theorem le_one (h : s.Conserved) (k : ℕ) : s.occurrences k ≤ 1 := by
  by_cases hk : ∃ a, k ∈ s.moved a
  · obtain ⟨a, ha⟩ := hk
    rw [(h.moved a k ha).2.2.1]
    exact Nat.zero_le 1
  · rw [h.others k (not_exists.mp hk)]
    split <;> omega

theorem unanswered (h : s.Conserved) (hk : k ∈ s.uncalled) : s.promises k = none := by
  have hpos := List.count_pos_iff.mpr hk
  have hle := h.le_one k
  unfold State.occurrences at hle
  cases hp : s.promises k with
  | none => rfl
  | some r =>
    rw [hp] at hle
    simp only [Option.toList_some, List.length_singleton] at hle
    omega

theorem lt_of_mem (h : s.Conserved) (hk : k ∈ s.uncalled) : k < s.sent.length := by
  have hpos := List.count_pos_iff.mpr hk
  by_contra hlt
  have hnone : ∀ a, k ∉ s.moved a := fun a ha => hlt (h.moved a k ha).2.2.2
  have hocc := h.others k hnone
  rw [if_neg hlt, State.occurrences] at hocc
  omega

theorem congr (h : s.Conserved) (hm : s'.moved = s.moved) (ho : ∀ k, s'.occurrences k = s.occurrences k)
    (hlen : s'.sent.length = s.sent.length) : s'.Conserved := by
  refine ⟨fun a k hk => ?_, fun k hk => ?_⟩
  · rw [hm] at hk ⊢
    rw [ho, hlen]
    exact h.moved a k hk
  · rw [hm] at hk
    rw [ho, hlen]
    exact h.others k hk

theorem send (h : s.Conserved) (hm : s'.moved = s.moved)
    (ho : ∀ k, s'.occurrences k = s.occurrences k + if k = s.sent.length then 1 else 0)
    (hlen : s'.sent.length = s.sent.length + 1) : s'.Conserved := by
  refine ⟨fun a k hk => ?_, fun k hk => ?_⟩
  · rw [hm] at hk ⊢
    obtain ⟨hcount, huniq, hocc, hlt⟩ := h.moved a k hk
    exact ⟨hcount, huniq, by rw [ho, hocc, if_neg hlt.ne], by omega⟩
  · rw [hm] at hk
    rw [ho, h.others k hk, hlen]
    split_ifs <;> omega

theorem move {b : τ} (h : s.Conserved) (hb : s.moved b = []) (hm : s'.moved = Function.update s.moved b s.commands)
    (ho : ∀ k, s'.occurrences k + s.commands.count k = s.occurrences k) (hlen : s'.sent.length = s.sent.length) :
    s'.Conserved := by
  -- what is in the queue is in no local queue
  have hqueue : ∀ k a, k ∈ s.commands → k ∉ s.moved a := by
    intro k a hk ha
    have hpos := List.count_pos_iff.mpr hk
    have hk' := ho k
    rw [(h.moved a k ha).2.2.1] at hk'
    omega
  refine ⟨fun a k hk => ?_, fun k hk => ?_⟩
  · rw [hm] at hk ⊢
    rw [hlen]
    by_cases hab : a = b
    · subst hab
      rw [Function.update_self] at hk ⊢
      have hpos := List.count_pos_iff.mpr hk
      have hocc := h.others k fun a => hqueue k a hk
      have hk' := ho k
      have hlt : k < s.sent.length := by
        by_contra hlt
        rw [if_neg hlt] at hocc
        omega
      rw [if_pos hlt] at hocc
      refine ⟨by omega, fun c hc => ?_, by omega, hlt⟩
      by_contra hca
      rw [Function.update_of_ne hca] at hc
      exact hqueue k c hk hc
    · rw [Function.update_of_ne hab] at hk ⊢
      obtain ⟨hcount, huniq, hocc, hlt⟩ := h.moved a k hk
      have hk' := ho k
      refine ⟨hcount, fun c hc => ?_, by omega, hlt⟩
      by_cases hcb : c = b
      · subst hcb
        rw [Function.update_self] at hc
        exact absurd hk (hqueue k a hc)
      · rw [Function.update_of_ne hcb] at hc
        exact huniq c hc
  · rw [hm] at hk
    have hself := hk b
    rw [Function.update_self] at hself
    have hk' := ho k
    rw [List.count_eq_zero_of_not_mem hself, Nat.add_zero] at hk'
    rw [hk', hlen]
    refine h.others k fun a ha => ?_
    by_cases hab : a = b
    · rw [hab, hb] at ha
      cases ha
    · have hka := hk a
      rw [Function.update_of_ne hab] at hka
      exact hka ha

theorem count {b : τ} (h : s.Conserved) (hm : s'.moved = Function.update s.moved b [])
    (ho : ∀ k, s'.occurrences k = s.occurrences k + (s.moved b).count k) (hlen : s'.sent.length = s.sent.length) :
    s'.Conserved := by
  refine ⟨fun a k hk => ?_, fun k hk => ?_⟩
  · rw [hm] at hk ⊢
    by_cases hab : a = b
    · rw [hab, Function.update_self] at hk
      cases hk
    · rw [Function.update_of_ne hab] at hk ⊢
      obtain ⟨hcount, huniq, hocc, hlt⟩ := h.moved a k hk
      have hkb : k ∉ s.moved b := fun hkb => hab (huniq b hkb).symm
      refine ⟨hcount, fun c hc => ?_, by rw [ho, hocc, List.count_eq_zero_of_not_mem hkb], by omega⟩
      by_cases hcb : c = b
      · rw [hcb, Function.update_self] at hc
        cases hc
      · rw [Function.update_of_ne hcb] at hc
        exact huniq c hc
  · rw [hm] at hk
    rw [ho, hlen]
    by_cases hkb : k ∈ s.moved b
    · obtain ⟨hcount, -, hocc, hlt⟩ := h.moved b k hkb
      rw [hcount, hocc, if_pos hlt]
    · rw [List.count_eq_zero_of_not_mem hkb]
      refine h.others k fun a ha => ?_
      by_cases hab : a = b
      · exact hkb (hab ▸ ha)
      · have hka := hk a
        rw [Function.update_of_ne hab] at hka
        exact hka ha

end State.Conserved

theorem occurrences_step (h : s.Conserved) (hs : Steps s l s')
    (hl : ∀ a, (∀ cmd, l ≠ .send a cmd) ∧ l ≠ .move a ∧ l ≠ .count a) (k : ℕ) : s'.occurrences k = s.occurrences k := by
  -- the worker leaves a state in which it has taken nothing
  have hio : ∀ {io : Io} (k : ℕ), s.io.taken = [] → io.taken = [] →
      (s.commands ++ io.taken ++ s.clearings.flatMap Clearing.uncalled).count k = s.uncalled.count k := by
    intro io k h₁ h₂
    rw [State.uncalled, h₁, h₂]
  cases hs with
  | @send a cmd _ _ => exact absurd rfl ((hl a).1 cmd)
  | @move a _ _ => exact absurd rfl (hl a).2.1
  | @count a _ _ _ => exact absurd rfl (hl a).2.2
  | sync | syncHandling | commit | commitThrows | emptied | empty | synced | check | park | spurious | get | write | arrive
  | serve | junk => rfl
  | receive hr _ _ =>
    refine congrArg (· + _) (hio k (by rw [hr]; rfl) ?_)
    split <;> rfl
  | read hr _ => exact congrArg (· + _) (hio k (by rw [hr]; rfl) rfl)
  | pop hr _ _ =>
    refine congrArg (· + _) ?_
    simp only [State.uncalled, hr]
    -- the callback at the front is taken
    cases s.commands with
    | nil => rfl
    | cons j js =>
      simp only [List.tail_cons, List.head?_cons, Io.taken, List.count_append, List.count_cons, List.count_nil]
      omega
  | callbackNone hr => exact congrArg (· + _) (hio k (by rw [hr]; rfl) rfl)
  | @callback j r hr =>
    have hj : s.promises j = none := h.unanswered (by simp [State.uncalled, hr, Io.taken])
    simp only [State.occurrences, State.uncalled, hr, promises_update hj, Io.taken, List.count_append, List.count_nil]
    omega
  | finish hr _ => exact congrArg (· + _) (hio k (by rw [hr]; rfl) rfl)
  | lose hr => rcases hr with hr | hr <;> exact congrArg (· + _) (hio k (by rw [hr]; rfl) rfl)
  | handle hr => exact congrArg (· + _) (hio k (by rw [hr]; rfl) rfl)
  | clear hr _ =>
    have hc := clearCallbacks_uncalled s k
    rw [State.uncalled, State.clearCallbacks_io, hr] at hc
    simp only [State.occurrences, State.clearCallbacks_promises]
    exact congrArg (· + _) hc
  | @fail i j ks hc =>
    obtain ⟨pre, post, heq, hset, -⟩ := getElem?_split hc
    have hj : s.promises j = none :=
      h.unanswered (by rw [State.uncalled, heq]; simp [Clearing.uncalled])
    simp only [State.occurrences, State.uncalled, hset]
    rw [heq]
    simp only [uncalled_split, promises_update hj, Clearing.uncalled, List.count_append, List.count_cons, List.count_nil,
      List.tail_cons, if_true, Bool.false_eq_true, if_false]
    omega
  | forget hc =>
    obtain ⟨pre, post, heq, hset, -⟩ := getElem?_split hc
    simp only [State.occurrences, State.uncalled, hset]
    rw [heq]
    simp only [List.count_append, uncalled_split]
    rfl
  | @notify i called hc =>
    obtain ⟨pre, post, heq, -, herase⟩ := getElem?_split hc
    have hnil : Clearing.uncalled ⟨[], called⟩ = [] := by cases called <;> rfl
    simp only [State.occurrences, State.uncalled, State.notifyAll, herase]
    rw [heq]
    simp only [List.count_append, List.flatMap_append, List.flatMap_cons, hnil, List.count_nil]
    omega

theorem moved_step (hs : Steps s l s') (hl : ∀ a, l ≠ .move a ∧ l ≠ .count a) : s'.moved = s.moved := by
  have hset : ∀ {t : State τ} {b : τ} {c : Call} {o : Option Call}, t.calls = s.calls → s.calls b = some c →
      c.stage.queue = [] → Call.queue o = [] → (t.setCall b o).moved = s.moved := by
    intro t b c o ht hb hc ho
    have hmoved : t.moved = s.moved := funext fun a => congrArg Call.queue (congrFun ht a)
    have hnil : s.moved b = [] := by rw [State.moved, hb]; exact hc
    rw [State.moved_setCall, ho, hmoved, ← hnil, Function.update_eq_self]
  cases hs with
  | @send b cmd hb _ =>
    have hnil : s.moved b = [] := by rw [State.moved, hb]; rfl
    refine (State.moved_setCall s b (some ⟨s.sent.length, .sent⟩)).trans ?_
    rw [show Call.queue (some ⟨s.sent.length, .sent⟩) = s.moved b from hnil.symm, Function.update_eq_self]
  | @move a _ _ => exact absurd rfl (hl a).1
  | @count a _ _ _ => exact absurd rfl (hl a).2
  | sync hc _ | syncHandling hc _ | commit hc _ | commitThrows hc _ | emptied hc _ | empty hc _ | synced hc _ _
  | check hc _ _ | park hc | spurious hc | get hc _ => exact hset rfl hc rfl rfl
  | finish _ _ => exact State.moved_notifyAll _
  | notify _ => exact State.moved_notifyAll _
  | clear _ _ => exact funext fun a => congrArg Call.queue (congrFun s.clearCallbacks_calls a)
  | write | arrive | serve | junk | receive | read | pop | callbackNone | callback | lose | handle | fail | forget => rfl

/-- **No callback is lost, and none is called twice.** -/
theorem conserved_step (h : s.Conserved) (hs : Steps s l s') : s'.Conserved := by
  by_cases hl : ∀ a, (∀ cmd, l ≠ .send a cmd) ∧ l ≠ .move a ∧ l ≠ .count a
  · exact h.congr (moved_step hs fun a => (hl a).2) (occurrences_step h hs hl)
      (congrArg List.length (sent_of_ne_send (fun a cmd => (hl a).1 cmd) hs))
  · cases hs with
    | @send a cmd hc hm =>
      refine h.send (moved_step (.send hc hm) (by simp)) (fun k => ?_) List.length_append
      have hnew : [s.sent.length].count k = if k = s.sent.length then 1 else 0 := by
        rw [List.count_singleton]
        exact if_congr (beq_iff_eq.trans eq_comm) rfl rfl
      simp only [State.occurrences, State.uncalled, List.count_append, hnew]
      omega
    | @move a k hc =>
      have hb : s.moved a = [] := by rw [State.moved, hc]; rfl
      refine h.move hb (State.moved_setCall _ _ _) (fun k => ?_) rfl
      simp only [State.occurrences, State.uncalled, State.setCall, List.nil_append, List.count_append]
      omega
    | @count a k queue hc =>
      have hb : s.moved a = queue := by rw [State.moved, hc]; rfl
      refine h.count (State.moved_setCall _ _ _) (fun k => ?_) rfl
      simp only [State.occurrences, State.uncalled, State.setCall, List.flatMap_append, List.flatMap_cons,
        List.flatMap_nil, Clearing.uncalled, hb, List.count_append, List.count_nil, Bool.false_eq_true, if_false]
      omega
    | _ => simp at hl

/-! ## The steps of the threads -/

theorem sent_step (hs : Steps s l s') : s.sent <+: s'.sent := by
  cases hs with
  | send _ _ => exact List.prefix_append ..
  | clear _ _ => simp
  | sync | syncHandling | commit | commitThrows | emptied | empty | move | count | synced | check | park | spurious | get
  | write | arrive | serve | junk | receive | read | pop | callbackNone | callback | finish | lose | handle | fail | forget
  | notify => exact List.prefix_rfl

theorem State.setCall_cases {t : State τ} {b : τ} {o : Option Call} {c : Call} (h : (t.setCall b o).calls a = some c) :
    a = b ∧ o = some c ∨ a ≠ b ∧ t.calls a = some c := by
  simp only [State.setCall] at h
  by_cases hab : a = b
  · rw [hab, Function.update_self] at h
    exact .inl ⟨hab, h⟩
  · rw [Function.update_of_ne hab] at h
    exact .inr ⟨hab, h⟩

theorem State.notifyAll_cases {t : State τ} {c : Call} (h : t.notifyAll.calls a = some c) :
    ∃ d, t.calls a = some d ∧ d.wake = c := by
  simpa only [State.notifyAll, Option.map_eq_some_iff] using h

/-- Where a call comes from: from the same command at another stage. -/
def Call.From (s : State τ) (l : Label τ) (a : τ) (c : Call) : Prop :=
  ∃ d, s.calls a = some d ∧ d.number = c.number ∧
    (c.stage = .synced → d.stage = .synced ∨ s.Synced ∧ l = .check a) ∧
    (c.stage.thrown = true → d.stage.thrown = true ∨ s.io.connected = false)

theorem call_step {c : Call} (hs : Steps s l s') (hc : s'.calls a = some c) :
    c.From s l a ∨ (c = ⟨s.sent.length, .sent⟩ ∧ s'.sent.length = s.sent.length + 1 ∧ ∃ cmd, l = .send a cmd) := by
  have hwake : ∀ {t : State τ}, t.calls = s.calls → t.notifyAll.calls a = some c → c.From s l a := by
    intro t ht h
    obtain ⟨d, hd, rfl⟩ := State.notifyAll_cases h
    rw [ht] at hd
    rcases d with ⟨k, stage⟩
    refine ⟨_, hd, (Call.wake_number _).symm, ?_⟩
    cases stage <;> simp [Call.wake, Stage.thrown]
  have hkeep : s.calls a = some c → c.From s l a := fun h => ⟨c, h, rfl, .inl, .inl⟩
  -- a thread comes to another stage, or leaves
  have hset : ∀ {t : State τ} {b : τ} {d : Call} {o : Option Call}, t.calls = s.calls → s.calls b = some d →
      (∀ e ∈ o, d.number = e.number ∧ (e.stage = .synced → s.Synced ∧ l = .check b) ∧
        (e.stage.thrown = true → d.stage.thrown = true ∨ s.io.connected = false)) →
      (t.setCall b o).calls a = some c → c.From s l a := by
    intro t b d o ht hb ho h
    rcases State.setCall_cases h with ⟨rfl, rfl⟩ | ⟨-, h⟩
    · obtain ⟨hnum, hsync, hthrown⟩ := ho c rfl
      exact ⟨d, hb, hnum, fun hst => .inr (hsync hst), hthrown⟩
    · exact hkeep (ht ▸ h)
  cases hs with
  | @send b cmd _ _ =>
    rcases State.setCall_cases (t := s) (b := b) hc with ⟨rfl, h⟩ | ⟨-, h⟩
    · cases h
      exact .inr ⟨rfl, List.length_append, cmd, rfl⟩
    · exact .inl (hkeep h)
  | sync hb _ | syncHandling hb _ | commit hb _ | check hb _ _ | park hb | spurious hb =>
    exact .inl (hset rfl hb (by rintro _ ⟨⟩; simp [Stage.thrown]) hc)
  | commitThrows hb hio => exact .inl (hset rfl hb (by rintro _ ⟨⟩; simp [Stage.thrown, hio]) hc)
  | empty hb _ | move hb => exact .inl (hset rfl hb (by rintro _ ⟨⟩; simp [Stage.thrown]) hc)
  | emptied hb _ | count hb | get hb _ => exact .inl (hset rfl hb (by rintro _ ⟨⟩) hc)
  | synced hb _ hsync => exact .inl (hset rfl hb (by rintro _ ⟨⟩; simp [Stage.thrown, hsync]) hc)
  | finish _ _ => exact .inl (hwake rfl hc)
  | notify _ => exact .inl (hwake rfl hc)
  | clear _ _ => exact .inl (hkeep (by rw [← s.clearCallbacks_calls]; exact hc))
  | write | arrive | serve | junk | receive | read | pop | callbackNone | callback | lose | handle | fail | forget =>
    exact .inl (hkeep hc)

theorem connected_of_step (hs : Steps s l s') (hc : s'.io.connected = true) : s.io.connected = true := by
  cases hs with
  | receive hi _ _ => rw [hi]; rfl
  | read hi _ => rw [hi]; rfl
  | pop hi _ _ => rw [hi]; rfl
  | callbackNone hi => rw [hi]; rfl
  | callback hi => rw [hi]; rfl
  | finish hi _ => rw [hi]; rfl
  | lose _ => cases hc
  | handle _ => cases hc
  | clear _ _ => cases hc
  | send | sync | syncHandling | commit | commitThrows | emptied | empty | move | count | synced | check | park | spurious
  | get | write | arrive | serve | junk | fail | forget | notify => exact hc

/-! ## What `sync_commit` returns with -/

structure PromiseInv (s : State τ) : Prop where
  number : ∀ a c, s.calls a = some c → c.number < s.sent.length
  running : s.callbacksRunning = s.io.running + s.uncleared
  conserved : s.Conserved
  /-- A commit fails on a closed socket only. -/
  thrown : ∀ a c, s.calls a = some c → c.stage.thrown = true → s.io.connected = false

/-- When no callback is running, none is left outside the queue and the local queues. -/
theorem PromiseInv.uncalled_eq (h : PromiseInv s) (hs : s.Synced) : s.uncalled = [] := by
  have hrun := h.running
  rw [hs.1] at hrun
  have hio : s.io.taken = [] := by
    cases hio : s.io with
    | calling _ _ =>
      rw [hio] at hrun
      simp only [Io.running] at hrun
      omega
    | _ => rfl
  have hclear : s.clearings.flatMap Clearing.uncalled = [] := by
    refine List.flatMap_eq_nil_iff.mpr fun c hc => ?_
    -- its queue is counted
    have hle : c.queue.length ≤ s.uncleared := List.le_sum_of_mem (List.mem_map_of_mem hc)
    have hq : c.queue = [] := List.eq_nil_of_length_eq_zero (by omega)
    rw [Clearing.uncalled, hq]
    split <;> rfl
  rw [State.uncalled, hs.2, hio, hclear]
  rfl

/-- The condition of `sync_commit`: everything has been answered that is in no local queue. -/
theorem PromiseInv.answered (h : PromiseInv s) (hs : s.Synced) (hk : k < s.sent.length) :
    s.Answered k ∨ ∃ a, k ∈ s.moved a := by
  refine or_iff_not_imp_right.mpr fun hmoved => ?_
  have hocc := h.conserved.others k (not_exists.mp hmoved)
  rw [State.occurrences, h.uncalled_eq hs, if_pos hk] at hocc
  cases hp : s.promises k with
  | none => simp [hp] at hocc
  | some r => simp [State.Answered, hp]

theorem PromiseInv.fresh : PromiseInv (State.fresh : State τ) where
  number _ _ h := by cases h
  running := rfl
  conserved := ⟨fun _ _ h => (by cases h), fun _ _ => rfl⟩
  thrown _ _ h := by cases h

theorem PromiseInv.step (h : PromiseInv s) (hs : Steps s l s') : PromiseInv s' where
  number a c hc := by
    rcases call_step hs hc with ⟨d, hd, hnum, -⟩ | ⟨rfl, hlen, -⟩
    · rw [← hnum]
      exact (h.number a d hd).trans_le (sent_step hs).length_le
    · rw [hlen]
      exact Nat.lt_succ_self _
  running := running_step h.running hs
  conserved := conserved_step h.conserved hs
  thrown a c hc hthrown := by
    by_contra hcon
    have hup := connected_of_step hs (by simpa using hcon)
    rcases call_step hs hc with ⟨d, hd, -, -, hfrom⟩ | ⟨rfl, -⟩
    · rw [(hfrom hthrown).elim (h.thrown a d hd) id] at hup
      cases hup
    · cases hthrown

theorem PromiseInv.of_reach {ok : State τ → Label τ → Prop} (h : (system τ).Reach ok s) : PromiseInv s :=
  h.invariant (by rintro s rfl; exact .fresh) fun _ _ _ _ hi _ hn => hi.step (next_cases hn)

/-- The step calls the callback of the command `k`. -/
def Calls (s : State τ) (k : ℕ) : Label τ → Prop
  | .callback => ∃ r, s.io = .calling (some k) r
  | .fail i => ∃ ks, s.clearings[i]? = some ⟨k :: ks, false⟩
  | _ => False

theorem Calls.mem_uncalled (h : Calls s k l) : k ∈ s.uncalled := by
  unfold Calls at h
  split at h
  · obtain ⟨r, hr⟩ := h
    simp [State.uncalled, hr, Io.taken]
  · obtain ⟨ks, hc⟩ := h
    obtain ⟨pre, post, heq, -⟩ := getElem?_split hc
    rw [State.uncalled, heq]
    simp [Clearing.uncalled]
  · cases h

/-- **A callback is called once**: in every run, when the callback of a command is called, the command has been
sent and its promise is not kept, and after the step it is. -/
theorem called_once {ok : State τ → Label τ → Prop} (h : (system τ).Reach ok s) (hcall : Calls s k l)
    (hn : (system τ).next s l = some s') :
    k < s.sent.length ∧ s.promises k = none ∧ (s'.promises k).isSome = true := by
  have hcons := (PromiseInv.of_reach h).conserved
  refine ⟨hcons.lt_of_mem hcall.mem_uncalled, hcons.unanswered hcall.mem_uncalled, ?_⟩
  cases next_cases hn with
  | callbackNone hio =>
    obtain ⟨r, hr⟩ := hcall
    rw [hio] at hr
    cases hr
  | callback hio =>
    obtain ⟨r, hr⟩ := hcall
    rw [hio] at hr
    cases hr
    simp
  | fail hc =>
    obtain ⟨ks, hr⟩ := hcall
    rw [hc] at hr
    cases hr
    simp
  | _ => cases hcall

/-- The labels of a call that is answered, up to the return of `sync_commit`. -/
def roundTrip : List (Label Unit) :=
  [.send () ["PING".toList], .sync (), .commit (), .write 14, .arrive 14,
    .serve ["PING".toList] (.simpleString "PONG".toList), .receive 7, .pop, .callback, .finish, .check ()]

theorem called_once_roundTrip : ∃ s s' : State Unit, (system Unit).next s .callback = some s' ∧ 0 < s.sent.length ∧
    s.promises 0 = none ∧ (s'.promises 0).isSome = true := by
  obtain ⟨s, hr, hs⟩ := (system Unit).exists_reach_of_decidable (fun _ _ => True) (roundTrip.take 8)
    (fun s => s.io.taken == [0] && (callback s).isSome) (s := State.fresh) rfl (by decide)
  simp only [Bool.and_eq_true, beq_iff_eq, Option.isSome_iff_exists] at hs
  obtain ⟨htaken, s', hn⟩ := hs
  have hcall : Calls s 0 .callback := by
    cases hio : s.io with
    | calling o r =>
      rw [hio] at htaken
      cases o with
      | none => cases htaken
      | some j => cases htaken; exact ⟨r, hio⟩
    | _ => rw [hio] at htaken; cases htaken
  exact ⟨s, s', hn, called_once hr hcall hn⟩

/-- No thread tests the condition of `sync_commit` while another one has emptied the queue and not counted its
commands. -/
def Counted (s : State τ) : Label τ → Prop
  | .check _ => ∀ a, s.moved a = []
  | _ => True

theorem answered_of_synced (h : (system τ).Reach Counted s) (hc : s.calls a = some ⟨k, .synced⟩) : s.Answered k := by
  have hinv : ∀ a k, s.calls a = some ⟨k, .synced⟩ → s.Answered k := by
    refine h.invariant (I := fun s => ∀ a k, s.calls a = some ⟨k, .synced⟩ → s.Answered k) ?_ ?_
    · rintro s rfl a k hc
      cases hc
    · intro s l s' hr hi hok hn a k hc
      have hs : Steps s l s' := next_cases hn
      refine answered_step ?_ hs
      rcases call_step hs hc with ⟨⟨j, stage⟩, hd, rfl, hfrom, -⟩ | ⟨heq, -⟩
      · rcases hfrom rfl with rfl | ⟨hsync, rfl⟩
        · exact hi a j hd
        · have hp := PromiseInv.of_reach hr
          refine (hp.answered hsync (hp.number a _ hd)).resolve_right ?_
          rintro ⟨b, hb⟩
          rw [hok b] at hb
          cases hb
      · cases heq
  exact hinv a k hc

/-- **`sync_commit` returns with the reply**: in every state of a run in which no condition is tested between the two
steps of a failed commit, however the bytes are cut, whatever the server answers and wherever the connection is lost,
`get` does not block a thread that has come out of `sync_commit`. -/
theorem sync_commit_delivers (h : (system τ).Reach Counted s) (hc : s.calls a = some ⟨k, .synced⟩) :
    ∃ s', (system τ).next s (.get a) = some s' := by
  refine ⟨s.setCall a none, ?_⟩
  have hp : (s.promises k).isSome = true := answered_of_synced h hc
  simp only [system, next, get, hc, hp, if_true]

theorem sync_commit_delivers_roundTrip : ∃ s s' : State Unit, s.calls () = some ⟨0, .synced⟩ ∧
    (system Unit).next s (.get ()) = some s' := by
  have hok : ∀ (s : State Unit) (l : Label Unit), (s.moved ()).isEmpty = true → Counted s l := by
    intro s l h
    cases l with
    | check => exact fun a => List.isEmpty_iff.mp h
    | _ => trivial
  obtain ⟨s, hr, hs⟩ := (system Unit).exists_reach roundTrip
    (fun s => decide (s.calls () = some ⟨0, .synced⟩)) hok (s := State.fresh) rfl (by decide)
  have hc := of_decide_eq_true hs
  obtain ⟨s', hn⟩ := sync_commit_delivers hr hc
  exact ⟨s, s', hc, hn⟩

/-- **A promise can be missed**: without the condition a thread may come out of `sync_commit` with its command not
answered.  It has committed, the connection is lost, and the commit of another thread has moved both commands away. -/
theorem promise_missed : ∃ s : State Bool, (system Bool).Reach (fun _ _ => True) s ∧
    s.calls true = some ⟨1, .synced⟩ ∧ (system Bool).next s (.get true) = none := by
  obtain ⟨s, hr, hs⟩ := (system Bool).exists_reach_of_decidable (fun _ _ => True)
    [.send false [], .sync false, .send true [], .sync true, .commit true, .lose, .commit false, .empty false,
      .move false, .check true]
    (fun s => decide (s.calls true = some ⟨1, .synced⟩) && (s.promises 1).isNone) (s := State.fresh) rfl (by decide)
  simp only [Bool.and_eq_true, decide_eq_true_eq, Option.isNone_iff_eq_none] at hs
  refine ⟨s, hr, hs.1, ?_⟩
  simp [system, next, get, hs.1, hs.2]

end DistributedLock.Pipeline
