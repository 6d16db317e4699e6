import DistributedLock.TimeoutQueue.Conservation
import Mathlib.Tactic.Ring

/-!
# The schedule of an event

An event that is pushed at the time `p` with the period `d` is due at `p + d`, `p + 2 d`, …, whatever the clock said
when its function was called: after `k` calls that returned `true` its key is `p + (k + 1) d`, and the call after them
starts no earlier (`events_on_schedule`).  The key changes only with the count, and the count only in the hands of the
one worker that has the node, since an event is never in two places.
-/

set_option linter.unusedSectionVars false

namespace DistributedLock.TimeoutQueue

open Lib

variable {φ : Type} {n : ℕ} {ψ : Type} [DecidableEq ψ] {s s' : State φ n ψ} {w : Fin n} {inp : Input n}

/-! ## The nodes -/

/-- The node is in the queue or in the hands of a worker, and whether the worker is inside its function. -/
inductive State.Has (s : State φ n ψ) (nd : Node φ) : Bool → Prop
  | queue (h : nd ∈ s.sh.queue) : State.Has s nd false
  | hand {w : Fin n} {running : Bool} (h : (s.worker w).node = some nd) (hr : (s.worker w).running = running) :
      State.Has s nd running

@[simp] theorem Point.wake_running (p : Point φ) : p.wake.running = p.running := by cases p <;> rfl

theorem Point.running_eq_false {p : Point φ} (h : ∀ nd, p ≠ .run nd) : p.running = false := by
  cases p with
  | run nd => exact absurd rfl (h nd)
  | _ => rfl

namespace State.Has

variable {nd : Node φ} {b : Bool}

theorem of_eq (h : s'.Has nd b) (hq : s'.sh.queue = s.sh.queue) (hw : s'.worker = s.worker) : s.Has nd b := by
  cases h with
  | queue h => exact .queue (hq ▸ h)
  | hand h hr =>
    rw [hw] at h hr
    exact .hand h hr

theorem of_goto {p : Point φ} (h : s'.Has nd b) (hw : s'.worker = Function.update s.worker w p)
    (hq : ∀ nd ∈ s'.sh.queue, s.Has nd false) (hp : ∀ nd, p.node = some nd → s.Has nd p.running) : s.Has nd b := by
  cases h with
  | queue h => exact hq nd h
  | @hand w' _ h hr =>
    rw [hw] at h hr
    by_cases hww : w' = w
    · rw [hww, Function.update_self] at h hr
      exact hr ▸ hp nd h
    · rw [Function.update_of_ne hww] at h hr
      exact .hand h hr

theorem of_notifyOne {t : Option (Fin n)} (hs : s.notifyOne t = some s') (h : s'.Has nd b) : s.Has nd b := by
  rcases notifyOne_cases hs with ⟨w, -, -, rfl⟩ | ⟨-, -, rfl⟩
  · refine h.of_goto (w := w) rfl (fun _ hmem => .queue hmem) fun nd hnd => ?_
    rw [Point.wake_node] at hnd
    exact .hand hnd (Point.wake_running _).symm
  · exact h

/-- A worker that neither returns from an event function nor enters one moves the nodes around. -/
theorem of_acts (ha : Acts s w inp s') (hinp : ∀ isRepeat, inp ≠ .result isRepeat)
    (hrun : ∀ nd, s'.worker w ≠ .run nd) (h : s'.Has nd b) : s.Has nd b := by
  have hk := code_hands s.sh (s.worker w)
  have he := code_enters s.sh (s.worker w)
  have hidle : (s.worker w).running = false := Point.running_eq_false (not_acts_of_run ha hinp)
  -- the node in hand stays the same
  have hsame : ∀ {p : Point φ}, p.running = false → p.node = (s.worker w).node →
      ∀ nd, p.node = some nd → s.Has nd p.running := by
    intro p hr hp nd hnd
    rw [hp] at hnd
    exact .hand hnd (hidle.trans hr.symm)
  cases ha with
  | tau hc => rw [hc] at hk he; exact h.of_goto rfl (fun _ hmem => .queue hmem) (hsame he hk)
  | lock hc hfree => rw [hc] at hk he; exact h.of_goto rfl (fun _ hmem => .queue hmem) (hsame he hk)
  | @unlock p hc =>
    rw [hc] at hk
    have hp : p.running = false := Point.running_eq_false fun nd hpn => hrun nd (by simpa using hpn)
    exact h.of_goto rfl (fun _ hmem => .queue hmem) (hsame hp hk)
  | notifyAllDone hc => rw [hc] at hk he; exact h.of_goto rfl (fun _ hmem => .queue hmem) (hsame he hk)
  | @extract k first rest hc hq =>
    rw [hc] at hk he
    refine h.of_goto rfl (fun nd' hmem => .queue ?_) fun nd' hnd' => ?_
    · rw [hq]
      exact List.mem_cons_of_mem _ hmem
    · rw [hk.2 first] at hnd'
      cases hnd'
      rw [he first]
      exact .queue (by rw [hq]; exact List.mem_cons_self)
  | @insert nd' p hc =>
    rw [hc] at hk
    refine h.of_goto rfl (fun nd'' hmem => ?_) fun nd'' hnd'' => ?_
    · rcases mem_insertNode.mp hmem with rfl | hmem
      · exact .hand hk.1 hidle
      · exact .queue hmem
    · rw [hk.2] at hnd''
      cases hnd''
  | @insertNotify nd' p t s' hc hn =>
    rw [hc] at hk
    refine (of_notifyOne hn h).of_goto rfl (fun nd'' hmem => ?_) fun nd'' hnd'' => ?_
    · rcases mem_insertNode.mp hmem with rfl | hmem
      · exact .hand hk.1 hidle
      · exact .queue hmem
    · rw [hk.2] at hnd''
      cases hnd''
  | spurious hc => rw [hc] at hk he; exact h.of_goto rfl (fun _ hmem => .queue hmem) (hsame he.1 hk.1)
  | timeout hc hd =>
    rw [hc] at hk he
    exact h.of_goto rfl (fun _ hmem => .queue hmem) (hsame (he.2 _ rfl) (hk.2 _ rfl))
  | call hc => exact absurd rfl (hinp _)
  | leave hc =>
    rw [hc] at hk he
    exact h.of_goto rfl (fun _ hmem => .queue hmem) (hsame he (hk.2.trans hk.1.symm))

theorem of_next {l : Label φ n ψ} (hs : next s l = some s') (hres : ∀ w isRepeat, l ≠ .worker w (.result isRepeat))
    (hrun : ∀ w nd, s'.worker w = .run nd → s.worker w = .run nd) (h : s'.Has nd b) :
    s.Has nd b ∨ ∃ f period t, l = .pushEvent f period t ∧ nd = ⟨s.sh.now + period, f, period⟩ ∧ b = false := by
  rcases next_cases hs with ⟨t, -, -, rfl⟩ | ⟨f, period, t, rfl, -, hn⟩ | ⟨-, rfl⟩ | ⟨-, -, rfl⟩ | ⟨w, inp, rfl, ha⟩ |
    ⟨a, -, hw⟩
  · exact .inl (h.of_eq rfl rfl)
  · have hq := of_notifyOne hn h
    cases hq with
    | queue hmem =>
      rcases mem_insertNode.mp hmem with rfl | hmem
      · exact .inr ⟨f, period, t, rfl, rfl, rfl⟩
      · exact .inl (.queue hmem)
    | hand h hr => exact .inl (.hand h hr)
  · exact .inl (h.of_eq rfl rfl)
  · refine .inl ?_
    cases h with
    | queue h => exact .queue h
    | @hand w _ h hr => exact .hand ((Point.wake_node _).symm.trans h) ((Point.wake_running _).symm.trans hr)
  · have hinp : ∀ isRepeat, inp ≠ .result isRepeat := by
      rintro isRepeat rfl
      exact hres w isRepeat rfl
    exact .inl (h.of_acts ha hinp fun nd hr => not_acts_of_run ha hinp nd (hrun w nd hr))
  · refine .inl ?_
    rcases stepWaiter_cases hw with ⟨p, -, rfl⟩ | ⟨p, -, -, rfl⟩ | ⟨p, -, rfl⟩ <;> exact h.of_eq rfl rfl

end State.Has

/-! ## The schedule -/

section Schedule

variable {y y' : State (ℕ × φ) n ψ × List Record} {nd : Node (ℕ × φ)} {b : Bool}

/-- The time at which the call `i + 1` of the function is due. -/
def Record.due (r : Record) (i : ℕ) : ℤ := r.pushedAt + (i + 1) * r.period

/-- The node of an event with the record `r`, in the hands of a worker that is inside its function or elsewhere. -/
structure Record.Fits (r : Record) (nd : Node (ℕ × φ)) (running : Bool) : Prop where
  period : nd.event.period = r.period
  key : nd.key = r.due r.trues
  starts : r.starts.length = r.trues + running.toNat

def Record.Punctual (r : Record) : Prop := ∀ (i : ℕ) (t : ℤ), r.starts[i]? = some t → r.due i ≤ t

structure Timed (y : State (ℕ × φ) n ψ × List Record) : Prop where
  fits : ∀ nd b, y.1.Has nd b → ∃ r, y.2[nd.number]? = some r ∧ r.Fits nd b
  punctual : ∀ (k : ℕ) (r : Record), y.2[k]? = some r → r.Punctual

theorem getElem?_snoc {α : Type} {xs : List α} {x a : α} {i : ℕ} (h : (xs ++ [x])[i]? = some a) :
    xs[i]? = some a ∨ (i = xs.length ∧ a = x) := by
  rcases Nat.lt_or_ge i xs.length with hlt | hge
  · rw [List.getElem?_append_left hlt] at h
    exact .inl h
  · rw [List.getElem?_append_right hge, List.getElem?_singleton] at h
    split at h
    · cases h
      exact .inr ⟨by omega, rfl⟩
    · cases h

theorem Record.Punctual.start {r : Record} (h : r.Punctual) {t : ℤ} (ht : r.due r.starts.length ≤ t) :
    (r.start t).Punctual := by
  intro i t' hi
  rcases getElem?_snoc hi with hi | ⟨rfl, rfl⟩
  · exact h i t' hi
  · exact ht

theorem Record.Punctual.finish {r : Record} (h : r.Punctual) (isRepeat : Bool) : (r.finish isRepeat).Punctual := by
  unfold Record.finish
  split <;> exact h

theorem Record.Fits.later {r : Record} (h : r.Fits nd true) : (r.finish true).Fits nd.later false := by
  refine ⟨h.period, ?_, ?_⟩
  · have hkey := h.key
    simp only [Node.later, Record.finish, Record.due, if_true, h.period, Nat.cast_add, Nat.cast_one] at hkey ⊢
    rw [hkey]
    ring
  · have hstarts := h.starts
    simp only [Record.finish, if_true, Bool.toNat_true, Bool.toNat_false] at hstarts ⊢
    omega

/-- A node elsewhere belongs to another event than the one in the hands of `w`. -/
theorem Accounted.number_ne (h : Accounted y) {s' : State (ℕ × φ) n ψ} {nd' : Node (ℕ × φ)} {p : Point (ℕ × φ)}
    (hw : (y.1.worker w).node = some nd) (hq : s'.sh.queue = y.1.sh.queue)
    (hs : s'.worker = Function.update y.1.worker w p) (hh : s'.Has nd' b) :
    (p.node = some nd' ∧ p.running = b) ∨ (y.1.Has nd' b ∧ nd'.number ≠ nd.number) := by
  cases hh with
  | queue hmem =>
    refine .inr ⟨.queue (hq ▸ hmem), fun he => ?_⟩
    have hzero := h.inQueue_of_hand (has_of_node hw)
    have hpos : 0 < y.1.inQueue nd.number :=
      List.countP_pos_iff.mpr ⟨nd', hq ▸ hmem, decide_eq_true he⟩
    omega
  | @hand w' _ hnd hr =>
    rw [hs] at hnd hr
    by_cases hww : w' = w
    · rw [hww, Function.update_self] at hnd hr
      exact .inl ⟨hnd, hr⟩
    · rw [Function.update_of_ne hww] at hnd hr
      exact .inr ⟨.hand hnd hr, fun he => hww (h.hand_unique (has_of_node hnd) (he ▸ has_of_node hw))⟩

/-- The worker `w` goes on at `p`, and the record of the event it had in hand changes. -/
theorem Timed.modify (h : Timed y) (hacc : Accounted y) {s' : State (ℕ × φ) n ψ} {p : Point (ℕ × φ)}
    {g : Record → Record} (hw : (y.1.worker w).node = some nd) (hq : s'.sh.queue = y.1.sh.queue)
    (hs : s'.worker = Function.update y.1.worker w p)
    (hg : ∀ r, r.Fits nd (y.1.worker w).running → r.Punctual →
      (g r).Punctual ∧ ∀ nd', p.node = some nd' → nd'.number = nd.number ∧ (g r).Fits nd' p.running) :
    Timed (s', y.2.modify nd.number g) := by
  obtain ⟨r, hr, hfit⟩ := h.fits nd _ (.hand hw rfl)
  have hgr := hg r hfit (h.punctual _ _ hr)
  have hself : (y.2.modify nd.number g)[nd.number]? = some (g r) := by
    rw [List.getElem?_modify, hr]
    simp
  have hother : ∀ k, k ≠ nd.number → (y.2.modify nd.number g)[k]? = y.2[k]? := by
    intro k hk
    rw [List.getElem?_modify]
    simp [hk.symm]
  refine ⟨fun nd' b hh => ?_, fun k r' hr' => ?_⟩
  · rcases hacc.number_ne hw hq hs hh with ⟨hp, rfl⟩ | ⟨hold, hne⟩
    · obtain ⟨hnum, hfit'⟩ := hgr.2 nd' hp
      exact ⟨g r, by rw [hnum]; exact hself, hfit'⟩
    · obtain ⟨r', hr', hfit'⟩ := h.fits nd' b hold
      exact ⟨r', by rw [hother _ hne]; exact hr', hfit'⟩
  · by_cases hk : k = nd.number
    · subst hk
      rw [hself] at hr'
      cases hr'
      exact hgr.1
    · rw [hother k hk] at hr'
      exact h.punctual k r' hr'

theorem Timed.happens (h : Timed y) (hacc : Accounted y) {l : Label φ n ψ} (hs : Happens y l y') : Timed y' := by
  cases hs with
  | @push f period t s' hn =>
    have hrun : ∀ w nd, s'.worker w = .run nd → y.1.worker w = .run nd := by
      intro w nd hr
      rcases next_cases hn with ⟨_, hl, -⟩ | ⟨_, _, _, -, -, hnot⟩ | ⟨hl, -⟩ | ⟨hl, -⟩ | ⟨_, _, hl, -⟩ | ⟨_, hl, -⟩
      · cases hl
      · exact (notifyOne_run hnot hr :)
      all_goals cases hl
    have hkeep : ∀ {k : ℕ} {r r' : Record}, y.2[k]? = some r → (y.2 ++ [r'])[k]? = some r := by
      intro k r r' hr
      rw [List.getElem?_append_left (List.getElem?_eq_some_iff.mp hr).1]
      exact hr
    refine ⟨fun nd b hh => ?_, fun k r hr => ?_⟩
    · rcases hh.of_next hn (by rintro _ _ ⟨⟩) hrun with hold | ⟨f', period', t', hl, rfl, rfl⟩
      · obtain ⟨r, hr, hfit⟩ := h.fits nd b hold
        exact ⟨r, hkeep hr, hfit⟩
      · cases hl
        refine ⟨_, List.getElem?_concat_length, rfl, ?_, rfl⟩
        simp [Record.due]
    · rcases getElem?_snoc hr with hr | ⟨-, rfl⟩
      · exact h.punctual k r hr
      · rintro i t' ⟨⟩
  | @start w nd hw hdue hn =>
    have hnode : (y.1.worker w).node = some nd := by rw [hw]; rfl
    refine h.modify hacc hnode rfl rfl fun r hfit hpun => ⟨hpun.start ?_, fun nd' hnd' => ?_⟩
    · have hlen : r.starts.length = r.trues := by
        have := hfit.starts
        rw [hw] at this
        exact this
      rw [hlen, ← hfit.key]
      exact hdue
    · cases hnd'
      have hlen := hfit.starts
      rw [hw] at hlen
      refine ⟨rfl, hfit.period, hfit.key, ?_⟩
      simp only [Record.start, List.length_append, List.length_singleton, hlen, Point.running, Bool.toNat_true,
        Bool.toNat_false]
  | @finish w nd isRepeat hw hn =>
    have hnode : (y.1.worker w).node = some nd := by rw [hw]; rfl
    refine h.modify hacc hnode rfl rfl fun r hfit hpun => ⟨hpun.finish _, fun nd' hnd' => ?_⟩
    cases isRepeat with
    | true =>
      cases hnd'
      rw [hw] at hfit
      exact ⟨rfl, hfit.later⟩
    | false => cases hnd'
  | @other l s' hn hpush hres hrun =>
    refine ⟨fun nd b hh => ?_, h.punctual⟩
    have hres' : ∀ w isRepeat, l.number y.2.length ≠ .worker w (.result isRepeat) := by
      intro w isRepeat hl
      cases l with
      | worker w' inp =>
        cases hl
        exact hres w isRepeat rfl
      | tick t | pushEvent f period t | quitStore | quitNotify | waiter a => cases hl
    rcases hh.of_next hn hres' hrun with hold | ⟨f, period, t, hl, -⟩
    · exact h.fits nd b hold
    · cases l with
      | pushEvent f period t => exact absurd rfl (hpush f period t)
      | tick t | worker w inp | quitStore | quitNotify | waiter a => cases hl

theorem Timed.of_reach {ok : State (ℕ × φ) n ψ × List Record → Label φ n ψ → Prop}
    (h : (numbered φ n ψ).Reach ok y) : Timed y := by
  refine h.invariant (I := Timed) (fun y hinit => ?_) fun _ _ _ hr hi _ hn =>
    hi.happens (.of_reach hr) (happens_of_next hn)
  obtain ⟨h₀, hlog⟩ := hinit
  refine ⟨fun nd b hh => ?_, fun k r hr => ?_⟩
  · cases hh with
    | queue hmem =>
      rw [h₀.queue] at hmem
      cases hmem
    | hand hnd hr =>
      rw [h₀.worker] at hnd
      cases hnd
  · rw [hlog] at hr
    cases hr

/-- **Events never fire early, and their schedule does not drift.**  For an event with the record `r`: the call `i + 1`
of its function started no earlier than `pushedAt + (i + 1) * period`, and in the queue, after `trues` calls that
returned `true`, its key is `pushedAt + (trues + 1) * period`. -/
theorem events_on_schedule (h : (numbered φ n ψ).Reach (fun _ _ => True) y) {k : ℕ} {r : Record}
    (hr : y.2[k]? = some r) :
    (∀ (i : ℕ) (t : ℤ), r.starts[i]? = some t → r.pushedAt + (i + 1) * r.period ≤ t) ∧
    ∀ nd ∈ y.1.sh.queue, nd.number = k → nd.key = r.pushedAt + (r.trues + 1) * r.period := by
  have htimed := Timed.of_reach h
  refine ⟨htimed.punctual k r hr, fun nd hmem hk => ?_⟩
  obtain ⟨r', hr', hfit⟩ := htimed.fits nd false (.queue hmem)
  rw [hk, hr] at hr'
  cases hr'
  exact hfit.key

/-- An event with the period 10 whose function is called at the time 13 and returns `true`. -/
theorem events_on_schedule_one : ∃ (y : State (ℕ × Unit) 1 Empty × List Record) (r : Record),
    (numbered Unit 1 Empty).Reach (fun _ _ => True) y ∧ y.2[0]? = some r ∧
    (r.pushedAt = 0 ∧ r.period = 10 ∧ r.starts = [13] ∧ r.trues = 1 ∧ y.1.inQueue 0 = 1) ∧
    ∀ nd ∈ y.1.sh.queue, nd.number = 0 → nd.key = 0 + (1 + 1) * 10 := by
  have hrun := (numbered Unit 1 Empty).exists_reach_of_decidable (fun _ _ => True)
    [[.pushEvent () 10 none], List.replicate 7 (.worker 0 .none), [.tick 13, .worker 0 .timeout],
      List.replicate 2 (.worker 0 .none), [.worker 0 (.result true), .worker 0 .none, .worker 0 (.wake none)]].flatten
    (fun y => y.2[0]?.any fun r => r.pushedAt == 0 && r.period == 10 && r.starts == [13] && r.trues == 1 &&
      y.1.inQueue 0 == 1) (s := (State.blank, [])) ⟨State.blank_initial, rfl⟩ (by decide)
  obtain ⟨y, hr, hp⟩ := hrun
  obtain ⟨r, hlog, hp⟩ := (Option.any_eq_true _ _).mp hp
  simp only [Bool.and_eq_true, beq_iff_eq] at hp
  obtain ⟨⟨⟨⟨hat, hperiod⟩, hstarts⟩, htrues⟩, hq⟩ := hp
  have hlaw := (events_on_schedule hr hlog).2
  rw [hat, hperiod, htrues] at hlaw
  exact ⟨y, r, hr, hlog, ⟨hat, hperiod, hstarts, htrues, hq⟩, hlaw⟩

end Schedule

end DistributedLock.TimeoutQueue
