import DistributedLock.TimeoutQueue.Events

/-!
# The queue with its events numbered

Two events may have equal functions.  To speak of one event over a whole run, `numbered` gives each call of `PushEvent`
the number of the calls before it, as a mark on the function, and keeps a `Record` of what happens to each event.  No
step reads the numbers or the records: without the numbers, the runs of `numbered` are the runs of the queue
(`numbered_covers`).
-/

set_option linter.unusedSectionVars false

namespace DistributedLock.TimeoutQueue

open Lib

/-! ## Renaming the functions -/

section Rename

variable {φ χ : Type} {n : ℕ} {ψ : Type} [DecidableEq ψ]

def Event.map (g : φ → χ) (e : Event φ) : Event χ := ⟨g e.function, e.period⟩

def Node.map (g : φ → χ) (nd : Node φ) : Node χ := ⟨nd.key, nd.event.map g⟩

@[simps] def Shared.map (g : φ → χ) (sh : Shared φ) : Shared χ :=
  ⟨sh.now, sh.queue.map (Node.map g), sh.quit, sh.eventsOutOfQueue⟩

def Point.map (g : φ → χ) : Point φ → Point χ
  | .loop => .loop
  | .lock => .lock
  | .testEmpty => .testEmpty
  | .testAllDone => .testAllDone
  | .idleTest => .idleTest
  | .idlePark => .idlePark
  | .idleParked => .idleParked
  | .idleWoken => .idleWoken
  | .testQuit => .testQuit
  | .extract => .extract
  | .untilTest nd => .untilTest (nd.map g)
  | .untilPark nd => .untilPark (nd.map g)
  | .untilParked nd => .untilParked (nd.map g)
  | .untilWoken nd => .untilWoken (nd.map g)
  | .untilTimedOut nd => .untilTimedOut (nd.map g)
  | .testDue nd => .testDue (nd.map g)
  | .run nd => .run (nd.map g)
  | .relock nd => .relock (nd.map g)
  | .reinsert nd => .reinsert (nd.map g)
  | .putBack nd => .putBack (nd.map g)
  | .leave owns => .leave owns
  | .exited => .exited

@[simps] def State.map (g : φ → χ) (s : State φ n ψ) : State χ n ψ :=
  ⟨s.sh.map g, s.mtx, fun w => (s.worker w).map g, s.waiter⟩

def Label.map (g : φ → χ) : Label φ n ψ → Label χ n ψ
  | .tick t => .tick t
  | .pushEvent f period wake => .pushEvent (g f) period wake
  | .quitStore => .quitStore
  | .quitNotify => .quitNotify
  | .worker w inp => .worker w inp
  | .waiter a => .waiter a

variable (g : φ → χ) (s : State φ n ψ)

@[simp] theorem Point.map_wake (p : Point φ) : (p.map g).wake = p.wake.map g := by cases p <;> rfl

@[simp] theorem Point.map_parked (p : Point φ) : (p.map g).parked = p.parked := by cases p <;> rfl

@[simp] theorem Shared.map_idlePred (sh : Shared φ) : (sh.map g).idlePred = sh.idlePred := by
  simp [Shared.idlePred]

@[simp] theorem Shared.map_untilPred (sh : Shared φ) (nd : Node φ) :
    (sh.map g).untilPred (nd.map g) = sh.untilPred nd := by
  unfold Shared.untilPred
  cases hq : sh.queue <;> simp [hq, Node.map]

theorem map_insertNode (nd : Node φ) (queue : List (Node φ)) :
    (insertNode nd queue).map (Node.map g) = insertNode (nd.map g) (queue.map (Node.map g)) := by
  unfold insertNode
  induction queue with
  | nil => rfl
  | cons nd' queue ih =>
    simp only [List.orderedInsert, List.map_cons, Node.map] at ih ⊢
    split
    · rfl
    · simp only [List.map_cons, ih, Node.map]

/-- The two instructions are the same, up to the names of the functions. -/
inductive Maps : Instr φ → Instr χ → Prop
  | tau {p : Point φ} {q : Point χ} : q = p.map g → Maps (.tau p) (.tau q)
  | lock {p : Point φ} {q : Point χ} : q = p.map g → Maps (.lock p) (.lock q)
  | unlock {p : Point φ} {q : Point χ} : q = p.map g → Maps (.unlock p) (.unlock q)
  | notifyAllDone {p : Point φ} {q : Point χ} : q = p.map g → Maps (.notifyAllDone p) (.notifyAllDone q)
  | extract {k : Node φ → Point φ} {k' : Node χ → Point χ} :
      (∀ nd, k' (nd.map g) = (k nd).map g) → Maps (.extract k) (.extract k')
  | insert {nd : Node φ} {notify : Bool} {p : Point φ} {q : Point χ} :
      q = p.map g → Maps (.insert nd notify p) (.insert (nd.map g) notify q)
  | parked {p : Point φ} {q : Point χ} : q = p.map g → Maps (.parked p none) (.parked q none)
  | parkedUntil {p p' : Point φ} {q q' : Point χ} {deadline : ℤ} : q = p.map g → q' = p'.map g →
      Maps (.parked p (some (deadline, p'))) (.parked q (some (deadline, q')))
  | call {f : φ} {k : Bool → Point φ} {k' : Bool → Point χ} :
      (∀ b, k' b = (k b).map g) → Maps (.call f k) (.call (g f) k')
  | leave {owns : Bool} {p : Point φ} {q : Point χ} : q = p.map g → Maps (.leave owns p) (.leave owns q)
  | ret : Maps .ret .ret

theorem code_map (sh : Shared φ) (p : Point φ) : Maps g (code sh p) (code (sh.map g) (p.map g)) := by
  cases p with
  | loop | idleTest | untilTest nd =>
    simp only [code, Point.map, Shared.map_quit, Shared.map_idlePred, Shared.map_untilPred]
    exact .tau (by split <;> rfl)
  | testEmpty =>
    simp only [code, Point.map, Shared.map_queue, List.isEmpty_map]
    exact .tau (by split <;> rfl)
  | testAllDone =>
    simp only [code, Point.map, Shared.map_eventsOutOfQueue]
    split
    · exact .notifyAllDone rfl
    · exact .tau rfl
  | testQuit =>
    simp only [code, Point.map, Shared.map_quit]
    split
    · exact .unlock rfl
    · exact .tau rfl
  | testDue nd =>
    simp only [code, Point.map, Shared.map_quit, Shared.map_now, Node.map]
    split
    · exact .unlock rfl
    · exact .tau rfl
  | run nd => exact .call fun b => by cases b <;> rfl
  | lock | idleWoken | untilWoken nd | untilTimedOut nd | relock nd => exact .lock rfl
  | idlePark | untilPark nd => exact .unlock rfl
  | idleParked => exact .parked rfl
  | untilParked nd => exact .parkedUntil rfl rfl
  | extract => exact .extract fun _ => rfl
  | reinsert nd | putBack nd => exact .insert rfl
  | leave owns => exact .leave rfl
  | exited => exact .ret

/-! ### The steps -/

theorem map_goto (w : Fin n) (p : Point φ) : (s.goto w p).map g = (s.map g).goto w (p.map g) := by
  have hw : (fun w' => (Function.update s.worker w p w').map g) =
      Function.update (fun w' => (s.worker w').map g) w (p.map g) :=
    Function.comp_update (Point.map g) s.worker w p
  unfold State.map State.goto
  rw [hw]

theorem map_notifyOne (t : Option (Fin n)) :
    (s.map g).notifyOne t = (s.notifyOne t).map (State.map g) := by
  cases t with
  | none =>
    simp only [State.notifyOne, State.map_worker, Point.map_parked]
    split <;> rfl
  | some w =>
    simp only [State.notifyOne, State.map_worker, Point.map_parked, Point.map_wake]
    split
    · rw [← map_goto]
      rfl
    · rfl

theorem map_setQueue_insert (nd : Node φ) :
    (s.map g).setQueue (insertNode (nd.map g) (s.map g).sh.queue) =
      (s.setQueue (insertNode nd s.sh.queue)).map g := by
  have hq := map_insertNode g nd s.sh.queue
  unfold State.map State.setQueue Shared.map
  rw [hq]

theorem map_stepWorker (w : Fin n) (inp : Input n) :
    stepWorker (s.map g) w inp = (stepWorker s w inp).map (State.map g) := by
  have hcode := code_map g s.sh (s.worker w)
  unfold stepWorker
  simp only [State.map_worker, State.map_sh]
  generalize code s.sh (s.worker w) = i at hcode
  generalize code (s.sh.map g) ((s.worker w).map g) = i' at hcode
  cases hcode with
  | tau h => subst h; cases inp <;> first | rfl | simp only [Option.map_some, map_goto]
  | lock h =>
    subst h
    cases inp <;> try rfl
    simp only [State.map_mtx]
    split
    · simp only [Option.map_some, map_goto]
      rfl
    · rfl
  | unlock h | notifyAllDone h | leave h =>
    subst h
    cases inp <;> try rfl
    simp only [Option.map_some, map_goto]
    rfl
  | extract h =>
    cases inp <;> try rfl
    cases hq : s.sh.queue with
    | nil => simp [hq]
    | cons nd rest =>
      simp only [Shared.map_queue, hq, List.map_cons, h, Option.map_some, map_goto]
      rfl
  | @insert nd notify p q h =>
    subst h
    have hins := map_setQueue_insert g s nd
    simp only [State.map_sh] at hins
    cases notify with
    | false => cases inp <;> first | rfl | simp only [hins, Option.map_some, map_goto]
    | true => cases inp <;> first | rfl | simp only [hins, ← map_goto, map_notifyOne]
  | parked h => subst h; cases inp <;> first | rfl | simp only [Option.map_some, map_goto]
  | parkedUntil h h' =>
    subst h h'
    cases inp <;> try rfl
    · simp only [Option.map_some, map_goto]
    · simp only [Shared.map_now]
      split <;> simp only [Option.map_some, Option.map_none, map_goto]
  | call h => cases inp <;> first | rfl | simp only [h, Option.map_some, map_goto]
  | ret => cases inp <;> rfl

theorem map_stepWaiter (a : ψ) : stepWaiter (s.map g) a = (stepWaiter s a).map (State.map g) := by
  have hcode : allDoneCode (s.sh.map g) (s.waiter a) = allDoneCode s.sh (s.waiter a) := by
    cases s.waiter a <;> simp [allDoneCode]
  unfold stepWaiter
  simp only [State.map_waiter, State.map_sh, hcode]
  cases allDoneCode s.sh (s.waiter a) with
  | tau p | unlock p => rfl
  | lock p =>
    simp only [State.map_mtx]
    split <;> rfl

/-- **The steps do not read the functions.** -/
theorem next_map (l : Label φ n ψ) : next (s.map g) (l.map g) = (next s l).map (State.map g) := by
  cases l with
  | tick t =>
    simp only [Label.map, next, State.map_sh, Shared.map_now]
    split <;> rfl
  | pushEvent f period wake =>
    have hins := map_setQueue_insert g s ⟨s.sh.now + period, f, period⟩
    simp only [Label.map, next, pushEvent, State.map_mtx]
    split
    · rw [← map_notifyOne, ← hins]
      rfl
    · rfl
  | quitStore => rfl
  | quitNotify =>
    simp only [Label.map, next, State.map_sh, Shared.map_quit, State.map_worker, Point.map_wake]
    split <;> rfl
  | worker w inp => exact map_stepWorker g s w inp
  | waiter a => exact map_stepWaiter g s a

end Rename

/-! ## The machine -/

structure Record where
  pushedAt : ℤ
  period : ℤ
  /-- The times at which the calls of its function have started. -/
  starts : List ℤ
  /-- How many of them have returned `true`. -/
  trues : ℕ
  /-- One of them has returned `false`. -/
  retired : Bool

def Record.start (t : ℤ) (r : Record) : Record := { r with starts := r.starts ++ [t] }

def Record.finish (isRepeat : Bool) (r : Record) : Record :=
  if isRepeat then { r with trues := r.trues + 1 } else { r with retired := true }

variable {φ : Type} {n : ℕ} {ψ : Type} [DecidableEq ψ]

def Node.number (nd : Node (ℕ × φ)) : ℕ := nd.event.function.1

/-- The step, if it is a `PushEvent`, pushes the event `k`. -/
def Label.number (k : ℕ) : Label φ n ψ → Label (ℕ × φ) n ψ := Label.map (Prod.mk k)

def record (s : State (ℕ × φ) n ψ) (l : Label φ n ψ) (s' : State (ℕ × φ) n ψ) (log : List Record) : List Record :=
  match l with
  | .pushEvent _ period _ => log ++ [⟨s.sh.now, period, [], 0, false⟩]
  | .worker w (.result isRepeat) =>
    match s.worker w with
    | .run nd => log.modify nd.number (Record.finish isRepeat)
    | _ => log
  | .worker w _ =>
    match s'.worker w with
    | .run nd => log.modify nd.number (Record.start s.sh.now)
    | _ => log
  | _ => log

/-- **The queue with its events numbered.** -/
def numbered (φ : Type) (n : ℕ) (ψ : Type) [DecidableEq ψ] :
    Machine (State (ℕ × φ) n ψ × List Record) (Label φ n ψ) where
  init y := Initial y.1 ∧ y.2 = []
  next y l := (next y.1 (l.number y.2.length)).map fun s' => (s', record y.1 l s' y.2)

theorem numbered_next {y y' : State (ℕ × φ) n ψ × List Record} {l : Label φ n ψ} :
    (numbered φ n ψ).next y l = some y' ↔
      next y.1 (l.number y.2.length) = some y'.1 ∧ y'.2 = record y.1 l y'.1 y.2 := by
  simp only [numbered, Option.map_eq_some_iff, Prod.ext_iff]
  constructor
  · rintro ⟨s', hs, rfl, hg⟩
    exact ⟨hs, hg.symm⟩
  · rintro ⟨hs, hg⟩
    exact ⟨y'.1, hs, rfl, hg.symm⟩

/-! ## Inversion -/

section Inversion

variable {s s' : State φ n ψ} {w : Fin n} {inp : Input n}

/-- An instruction that leads into an event function is the one behind the test of the clock. -/
def Enters (sh : Shared φ) (p : Point φ) : Instr φ → Prop
  | .unlock q => ∀ nd, q = .run nd → p = .testDue nd ∧ sh.quit = false ∧ nd.key ≤ sh.now
  | .tau q | .lock q | .notifyAllDone q | .insert _ _ q | .leave _ q => q.running = false
  | .extract k => ∀ nd, (k nd).running = false
  | .parked q d => q.running = false ∧ ∀ x ∈ d, x.2.running = false
  | .call _ k => (∃ nd, p = .run nd ∧ k = fun b => if b then .relock nd.later else .leave false) ∧
      ∀ b, (k b).running = false
  | .ret => True

theorem code_enters (sh : Shared φ) (p : Point φ) : Enters sh p (code sh p) := by
  cases p with
  | loop | testEmpty | idleTest | untilTest _ => simp only [code]; split <;> rfl
  | testAllDone => simp only [code]; split <;> rfl
  | testQuit =>
    simp only [code]
    split
    · rintro _ ⟨⟩
    · rfl
  | testDue nd =>
    simp only [code]
    split
    · rename_i hdue
      rintro _ ⟨⟩
      simpa using hdue
    · rfl
  | run nd =>
    refine ⟨⟨nd, rfl, rfl⟩, fun b => ?_⟩
    beta_reduce
    split <;> rfl
  | _ => simp [code, Enters, Point.running]

theorem wake_run {p : Point φ} {nd : Node φ} (h : p.wake = .run nd) : p = .run nd := by
  cases p <;> first | exact h | cases h

theorem notifyOne_run {t : Option (Fin n)} (hs : s.notifyOne t = some s') {nd : Node φ}
    (hr : s'.worker w = .run nd) : s.worker w = .run nd := by
  rcases notifyOne_cases hs with ⟨w', -, -, rfl⟩ | ⟨-, -, rfl⟩
  · by_cases hww : w = w'
    · subst hww
      exact wake_run (by simpa using hr)
    · exact (Function.update_of_ne hww _ _).symm.trans hr
  · exact hr

theorem run_of_result {isRepeat : Bool} (h : next s (.worker w (.result isRepeat)) = some s') :
    ∃ nd, s.worker w = .run nd ∧ s' = s.goto w (if isRepeat then .relock nd.later else .leave false) := by
  have ha : Acts s w (.result isRepeat) s' := stepWorker_cases h
  have hk := code_enters s.sh (s.worker w)
  cases ha with
  | call hc =>
    rw [hc] at hk
    obtain ⟨⟨nd, hp, rfl⟩, -⟩ := hk
    exact ⟨nd, hp, rfl⟩

/-- Who is inside an event function was there before, or has just found it due. -/
theorem run_of_acts (ha : Acts s w inp s') {w' : Fin n} {nd : Node φ} (hr : s'.worker w' = .run nd) :
    s.worker w' = .run nd ∨
      (w' = w ∧ s.worker w = .testDue nd ∧ s.sh.quit = false ∧ nd.key ≤ s.sh.now ∧ inp = .none ∧
        s' = (s.setMtx none).goto w (.run nd)) := by
  have hk := code_enters s.sh (s.worker w)
  have hgoto : ∀ {t : State φ n ψ} {p : Point φ}, t.worker = Function.update s.worker w p → p.running = false →
      t.worker w' = .run nd → s.worker w' = .run nd := by
    intro t p ht hp hrun
    rw [ht] at hrun
    by_cases hww : w' = w
    · rw [hww, Function.update_self] at hrun
      rw [hrun] at hp
      cases hp
    · rwa [Function.update_of_ne hww] at hrun
  cases ha with
  | tau hc => rw [hc] at hk; exact .inl (hgoto rfl hk hr)
  | lock hc hfree => rw [hc] at hk; exact .inl (hgoto rfl hk hr)
  | @unlock p hc =>
    rw [hc] at hk
    by_cases hww : w' = w
    · subst hww
      have hp : p = .run nd := by simpa using hr
      obtain ⟨hdue, hquit, hkey⟩ := hk nd hp
      exact .inr ⟨rfl, hdue, hquit, hkey, rfl, by rw [hp]⟩
    · exact .inl ((Function.update_of_ne hww _ _).symm.trans hr)
  | notifyAllDone hc => rw [hc] at hk; exact .inl (hgoto rfl hk hr)
  | extract hc hq => rw [hc] at hk; exact .inl (hgoto rfl (hk _) hr)
  | insert hc => rw [hc] at hk; exact .inl (hgoto rfl hk hr)
  | insertNotify hc hn => rw [hc] at hk; exact .inl (hgoto rfl hk (notifyOne_run hn hr))
  | spurious hc => rw [hc] at hk; exact .inl (hgoto rfl hk.1 hr)
  | timeout hc hd => rw [hc] at hk; exact .inl (hgoto rfl (hk.2 _ rfl) hr)
  | call hc => rw [hc] at hk; exact .inl (hgoto rfl (hk.2 _) hr)
  | leave hc => rw [hc] at hk; exact .inl (hgoto rfl hk hr)

end Inversion

/-- The steps of the numbered queue: an event is pushed, a call of its function starts, or ends; the others leave the
records as they are. -/
inductive Happens (y : State (ℕ × φ) n ψ × List Record) : Label φ n ψ → State (ℕ × φ) n ψ × List Record → Prop
  | push {f : φ} {period : ℤ} {t : Option (Fin n)} {s' : State (ℕ × φ) n ψ}
      (hn : next y.1 (.pushEvent (y.2.length, f) period t) = some s') :
      Happens y (.pushEvent f period t) (s', y.2 ++ [⟨y.1.sh.now, period, [], 0, false⟩])
  | start {w : Fin n} {nd : Node (ℕ × φ)} (hw : y.1.worker w = .testDue nd) (hdue : nd.key ≤ y.1.sh.now)
      (hn : next y.1 (.worker w .none) = some ((y.1.setMtx none).goto w (.run nd))) :
      Happens y (.worker w .none)
        ((y.1.setMtx none).goto w (.run nd), y.2.modify nd.number (Record.start y.1.sh.now))
  | finish {w : Fin n} {nd : Node (ℕ × φ)} {isRepeat : Bool} (hw : y.1.worker w = .run nd)
      (hn : next y.1 (.worker w (.result isRepeat)) =
        some (y.1.goto w (if isRepeat then .relock nd.later else .leave false))) :
      Happens y (.worker w (.result isRepeat))
        (y.1.goto w (if isRepeat then .relock nd.later else .leave false),
          y.2.modify nd.number (Record.finish isRepeat))
  | other {l : Label φ n ψ} {s' : State (ℕ × φ) n ψ} (hn : next y.1 (l.number y.2.length) = some s')
      (hpush : ∀ f period t, l ≠ .pushEvent f period t) (hres : ∀ w isRepeat, l ≠ .worker w (.result isRepeat))
      (hrun : ∀ w nd, s'.worker w = .run nd → y.1.worker w = .run nd) : Happens y l (s', y.2)

theorem happens_of_worker {y y' : State (ℕ × φ) n ψ × List Record} {w : Fin n} {inp : Input n}
    (hn : next y.1 (.worker w inp) = some y'.1) (hlog : y'.2 = record y.1 (.worker w inp) y'.1 y.2)
    (hinp : ∀ isRepeat, inp ≠ .result isRepeat) : Happens y (.worker w inp) y' := by
  obtain ⟨s', log'⟩ := y'
  have ha : Acts y.1 w inp s' := stepWorker_cases hn
  by_cases hr : ∃ nd, s'.worker w = .run nd
  · obtain ⟨nd, hr⟩ := hr
    rcases run_of_acts ha hr with hrun | ⟨-, hdue, -, hkey, rfl, rfl⟩
    · exact absurd hrun (not_acts_of_run ha hinp nd)
    · have hlog' : log' = y.2.modify nd.number (Record.start y.1.sh.now) := by
        refine hlog.trans ?_
        simp [record]
      subst hlog'
      exact .start hdue hkey hn
  · have hlog' : log' = y.2 := by
      refine hlog.trans ?_
      cases inp with
      | result b => exact absurd rfl (hinp b)
      | none | spurious | timeout | wake t =>
        simp only [record]
        split
        · rename_i nd hnd
          exact absurd ⟨nd, hnd⟩ hr
        · rfl
    subst hlog'
    refine .other hn (by rintro _ _ _ ⟨⟩) (by rintro _ b ⟨⟩; exact hinp b rfl) fun w' nd hrun => ?_
    rcases run_of_acts ha hrun with hrun' | ⟨rfl, -⟩
    · exact hrun'
    · exact absurd ⟨nd, hrun⟩ hr

/-- **Inversion of a step.** -/
theorem happens_of_next {y y' : State (ℕ × φ) n ψ × List Record} {l : Label φ n ψ}
    (h : (numbered φ n ψ).next y l = some y') : Happens y l y' := by
  obtain ⟨hn, hlog⟩ := numbered_next.mp h
  cases l with
  | worker w inp =>
    by_cases hinp : ∃ isRepeat, inp = .result isRepeat
    · obtain ⟨isRepeat, rfl⟩ := hinp
      obtain ⟨s', log'⟩ := y'
      obtain ⟨nd, hw, hs'⟩ := run_of_result hn
      subst hs'
      have hlog' : log' = y.2.modify nd.number (Record.finish isRepeat) := by
        refine hlog.trans ?_
        simp [record, hw]
      subst hlog'
      exact .finish hw hn
    · exact happens_of_worker hn hlog fun b hb => hinp ⟨b, hb⟩
  | pushEvent f period t =>
    obtain ⟨s', log'⟩ := y'
    cases hlog
    exact .push hn
  | tick t | quitStore | quitNotify | waiter a =>
    obtain ⟨s', log'⟩ := y'
    cases hlog
    refine .other hn (by rintro _ _ _ ⟨⟩) (by rintro _ _ ⟨⟩) fun w nd hrun => ?_
    rcases next_cases hn with ⟨t', hl, -, rfl⟩ | ⟨g, period, t', hl, -⟩ | ⟨hl, rfl⟩ | ⟨hl, -, rfl⟩ |
      ⟨w', inp', hl, -⟩ | ⟨a', hl, hwait⟩ <;> cases hl
    all_goals first
      | exact hrun
      | exact wake_run hrun
      | (rcases stepWaiter_cases hwait with ⟨p, -, rfl⟩ | ⟨p, -, -, rfl⟩ | ⟨p, -, rfl⟩ <;> exact hrun)

theorem numbered_invariant {I : State (ℕ × φ) n ψ → Prop} (h₀ : ∀ s, Initial s → I s)
    (hs : ∀ s l s', I s → next s l = some s' → I s') {ok : State (ℕ × φ) n ψ × List Record → Label φ n ψ → Prop}
    {y : State (ℕ × φ) n ψ × List Record} (h : (numbered φ n ψ).Reach ok y) : I y.1 :=
  h.invariant (I := fun y => I y.1) (fun _ hinit => h₀ _ (And.left hinit))
    fun _ _ _ _ hi _ hn => hs _ _ _ hi (numbered_next.mp hn).1

/-! ## Without the numbers -/

theorem map_number (k : ℕ) (l : Label φ n ψ) : (l.number k).map Prod.snd = l := by cases l <;> rfl

theorem map_initial {s : State (ℕ × φ) n ψ} (h : Initial s) : Initial (s.map Prod.snd) := by
  refine ⟨?_, h.quit, h.eventsOutOfQueue, h.mtx, fun w => ?_, h.waiter⟩
  · simp [h.queue]
  · simp only [State.map_worker, h.worker]
    rfl

/-- **The runs of `numbered`, without the numbers, are the runs of the queue.** -/
theorem numbered_covers (s : State φ n ψ) :
    (system φ n ψ).Reach (fun _ _ => True) s ↔
      ∃ y, (numbered φ n ψ).Reach (fun _ _ => True) y ∧ y.1.map Prod.snd = s := by
  constructor
  · intro h
    induction h with
    | @init s h₀ =>
      let s₀ : State (ℕ × φ) n ψ := ⟨⟨s.sh.now, [], false, 0⟩, none, fun _ => .loop, fun _ => .out⟩
      have hinit : Initial s₀ := ⟨rfl, rfl, rfl, rfl, fun _ => rfl, fun _ => rfl⟩
      refine ⟨(s₀, []), .init ⟨hinit, rfl⟩, ?_⟩
      obtain ⟨⟨now, queue, quit, out⟩, mtx, worker, waiter⟩ := s
      obtain ⟨hq, hquit, hout, hm, hw, ha⟩ := h₀
      simp only at hq hquit hout hm
      subst hq hquit hout hm
      rw [show worker = fun _ => .loop from funext hw, show waiter = fun _ => .out from funext ha]
      rfl
    | @step s s' l _ _ hn ih =>
      obtain ⟨y, hy, rfl⟩ := ih
      have hmap := next_map Prod.snd y.1 (l.number y.2.length)
      rw [map_number] at hmap
      have hsome : (next y.1 (l.number y.2.length)).map (State.map Prod.snd) = some s' := hmap ▸ hn
      obtain ⟨t, ht, rfl⟩ := Option.map_eq_some_iff.mp hsome
      have hstep : (numbered φ n ψ).next y l = some (t, record y.1 l t y.2) := numbered_next.mpr ⟨ht, rfl⟩
      exact ⟨_, hy.step trivial hstep, rfl⟩
  · rintro ⟨y, hy, rfl⟩
    refine hy.invariant (I := fun y => (system φ n ψ).Reach (fun _ _ => True) (y.1.map Prod.snd)) ?_ ?_
    · intro y hinit
      have h : (system φ n ψ).init (y.1.map Prod.snd) := map_initial (And.left hinit)
      exact .init h
    · intro y l y' _ hr _ hn
      refine hr.step (l := l) trivial ?_
      have hmap := next_map Prod.snd y.1 (l.number y.2.length)
      rw [map_number, (numbered_next.mp hn).1] at hmap
      exact hmap

end DistributedLock.TimeoutQueue
