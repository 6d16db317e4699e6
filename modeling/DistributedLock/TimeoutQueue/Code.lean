import DistributedLock.Lib.Machine
import Mathlib.Data.List.Sort
import Mathlib.Data.Fintype.Basic
import Mathlib.Logic.Function.Basic
import Mathlib.Tactic.Simps.Basic

/-!
# The code of `TimeoutQueue`

`n` workers run `Worker`, any threads call `PushEvent`, `Quit` and `WaitUntilAllDone`.  `code` gives the instruction
at each program point of a worker, `allDoneCode` those of a caller of `WaitUntilAllDone`; the local variables are
arguments of the program points.

* The queue is a `multimap`: a list in the order of the keys, in which a new node goes behind those with its key.
* `wait(lock, pred)` is the loop `while (!pred()) wait(lock)`: `pred` is evaluated with `mtx_` owned, and parking, which
  releases `mtx_`, is a step of its own.  `wait_until` is the same loop, left also when the deadline has passed; the
  code drops what `pred` says then.
* `notify_one` wakes one of the parked workers, any one of them; `notify_all` wakes all; a parked worker may also wake
  without either.  Who has been woken takes `mtx_` again before it goes on.
* `PushEvent` is one critical section, and one step.  `Quit` takes no mutex: it stores `quit_`, and then notifies.

An event is known by its function, of an arbitrary type `φ`; what the function returns comes from outside.
-/

set_option linter.unusedSectionVars false

namespace DistributedLock.TimeoutQueue

open Lib

/-! ## Data -/

structure Event (φ : Type) where
  function : φ
  period : ℤ

/-- A node of `time_out_queue_`: the time at which the event is due, and the event. -/
structure Node (φ : Type) where
  key : ℤ
  event : Event φ

/-- `next_timeout += next_event.period`. -/
def Node.later {φ : Type} (nd : Node φ) : Node φ := { nd with key := nd.key + nd.event.period }

/-- The insertion of a node into `time_out_queue_`. -/
def insertNode {φ : Type} (nd : Node φ) (queue : List (Node φ)) : List (Node φ) :=
  queue.orderedInsert (fun a b => a.key < b.key) nd

/-- What the threads share under `mtx_`, with the clock and the two atomics. -/
structure Shared (φ : Type) where
  now : ℤ
  queue : List (Node φ)
  quit : Bool
  eventsOutOfQueue : ℤ

/-- The predicate of the idle wait. -/
def Shared.idlePred {φ : Type} (sh : Shared φ) : Bool := sh.quit || !sh.queue.isEmpty

/-- The predicate of `wait_until`, with the node `nd` in hand. -/
def Shared.untilPred {φ : Type} (sh : Shared φ) (nd : Node φ) : Bool :=
  sh.quit || sh.queue.head?.any fun first => nd.key > first.key

/-! ## `Worker` -/

/-- The program points of `Worker`. -/
inductive Point (φ : Type) where
  | loop
  | lock
  | testEmpty
  | testAllDone
  -- the idle wait
  | idleTest
  | idlePark
  | idleParked
  | idleWoken
  | testQuit
  | extract
  -- `wait_until`, with a node in hand
  | untilTest (nd : Node φ)
  | untilPark (nd : Node φ)
  | untilParked (nd : Node φ)
  | untilWoken (nd : Node φ)
  | untilTimedOut (nd : Node φ)
  | testDue (nd : Node φ)
  -- inside the event function, and after it
  | run (nd : Node φ)
  | relock (nd : Node φ)
  | reinsert (nd : Node φ)
  | putBack (nd : Node φ)
  -- the end of the loop body: the destructors of `at_exit` and of `lock`
  | leave (owns : Bool)
  | exited

inductive Instr (φ : Type) where
  | tau (p : Point φ)
  | lock (p : Point φ)
  | unlock (p : Point φ)
  /-- `all_done_.notify_all()`. -/
  | notifyAllDone (p : Point φ)
  | extract (k : Node φ → Point φ)
  | insert (nd : Node φ) (notify : Bool) (p : Point φ)
  /-- Parked on `new_event_`, with the point to go on at when woken, and when the deadline has passed. -/
  | parked (woken : Point φ) (deadline : Option (ℤ × Point φ))
  | call (f : φ) (k : Bool → Point φ)
  | leave (owns : Bool) (p : Point φ)
  | ret

def code {φ : Type} (sh : Shared φ) : Point φ → Instr φ
  | .loop => .tau (if sh.quit then .exited else .lock)
  | .lock => .lock .testEmpty
  | .testEmpty => .tau (if sh.queue.isEmpty then .testAllDone else .testQuit)
  | .testAllDone => if sh.eventsOutOfQueue = 0 then .notifyAllDone .idleTest else .tau .idleTest
  | .idleTest => .tau (if sh.idlePred then .testQuit else .idlePark)
  | .idlePark => .unlock .idleParked
  | .idleParked => .parked .idleWoken none
  | .idleWoken => .lock .idleTest
  | .testQuit => if sh.quit then .unlock .exited else .tau .extract
  | .extract => .extract .untilTest
  | .untilTest nd => .tau (if sh.untilPred nd then .testDue nd else .untilPark nd)
  | .untilPark nd => .unlock (.untilParked nd)
  | .untilParked nd => .parked (.untilWoken nd) (some (nd.key, .untilTimedOut nd))
  | .untilWoken nd => .lock (.untilTest nd)
  | .untilTimedOut nd => .lock (.testDue nd)
  | .testDue nd => if !sh.quit && nd.key ≤ sh.now then .unlock (.run nd) else .tau (.putBack nd)
  | .run nd => .call nd.event.function fun isRepeat => if isRepeat then .relock nd.later else .leave false
  | .relock nd => .lock (.reinsert nd)
  | .reinsert nd => .insert nd true (.leave true)
  | .putBack nd => .insert nd false (.leave true)
  | .leave owns => .leave owns .loop
  | .exited => .ret

/-- A worker that `new_event_` has woken. -/
def Point.wake {φ : Type} : Point φ → Point φ
  | .idleParked => .idleWoken
  | .untilParked nd => .untilWoken nd
  | p => p

/-- The worker is parked on `new_event_`, and has not been notified. -/
def Point.parked {φ : Type} : Point φ → Bool
  | .idleParked | .untilParked _ => true
  | _ => false

def Point.running {φ : Type} : Point φ → Bool
  | .run _ => true
  | _ => false

/-! ## `WaitUntilAllDone` -/

/-- The program points of `WaitUntilAllDone`; at `returned` the caller has the lock, which it drops later. -/
inductive AllDonePoint where
  | out
  | lock
  | test
  | park
  | parked
  | woken
  | returned
  deriving DecidableEq

def AllDonePoint.wake : AllDonePoint → AllDonePoint
  | .parked => .woken
  | p => p

inductive AllDoneInstr where
  | tau (p : AllDonePoint)
  | lock (p : AllDonePoint)
  | unlock (p : AllDonePoint)

def allDoneCode {φ : Type} (sh : Shared φ) : AllDonePoint → AllDoneInstr
  | .out => .tau .lock
  | .lock => .lock .test
  | .test => .tau (if sh.queue.isEmpty && sh.eventsOutOfQueue = 0 then .returned else .park)
  | .park => .unlock .parked
  | .parked => .tau .woken -- a wake-up without a notification
  | .woken => .lock .test
  | .returned => .unlock .out

/-! ## The system -/

/-- The owner of `mtx_`. -/
inductive Owner (n : ℕ) (ψ : Type) where
  | worker (w : Fin n)
  | waiter (a : ψ)
  deriving DecidableEq

structure State (φ : Type) (n : ℕ) (ψ : Type) where
  sh : Shared φ
  mtx : Option (Owner n ψ)
  worker : Fin n → Point φ
  waiter : ψ → AllDonePoint

/-- What comes from outside into a step of a worker. -/
inductive Input (n : ℕ) where
  | none
  | spurious
  | timeout
  | wake (w : Option (Fin n))
  | result (isRepeat : Bool)

inductive Label (φ : Type) (n : ℕ) (ψ : Type) where
  | tick (t : ℤ)
  | pushEvent (f : φ) (period : ℤ) (wake : Option (Fin n))
  | quitStore
  | quitNotify
  | worker (w : Fin n) (inp : Input n)
  | waiter (a : ψ)

section Step

variable {φ : Type} {n : ℕ} {ψ : Type} [DecidableEq ψ]

namespace State

@[simps] def goto (s : State φ n ψ) (w : Fin n) (p : Point φ) : State φ n ψ :=
  { s with worker := Function.update s.worker w p }

@[simps] def gotoWaiter (s : State φ n ψ) (a : ψ) (p : AllDonePoint) : State φ n ψ :=
  { s with waiter := Function.update s.waiter a p }

@[simps] def setMtx (s : State φ n ψ) (o : Option (Owner n ψ)) : State φ n ψ := { s with mtx := o }

@[simps] def setQueue (s : State φ n ψ) (queue : List (Node φ)) : State φ n ψ :=
  { s with sh := { s.sh with queue := queue } }

@[simps] def addOut (s : State φ n ψ) (k : ℤ) : State φ n ψ :=
  { s with sh := { s.sh with eventsOutOfQueue := s.sh.eventsOutOfQueue + k } }

/-- `new_event_.notify_one()` wakes the worker `w`, or nobody when nobody is parked. -/
def notifyOne (s : State φ n ψ) : Option (Fin n) → Option (State φ n ψ)
  | some w => if (s.worker w).parked then some (s.goto w (s.worker w).wake) else none
  | none => if ∀ w, (s.worker w).parked = false then some s else none

@[simps] def notifyAllDone (s : State φ n ψ) : State φ n ψ := { s with waiter := fun a => (s.waiter a).wake }

end State

/-- The worker `w` executes the instruction at its program point. -/
def stepWorker (s : State φ n ψ) (w : Fin n) (inp : Input n) : Option (State φ n ψ) :=
  match code s.sh (s.worker w), inp with
  | .tau p, .none => some (s.goto w p)
  | .lock p, .none => if s.mtx = none then some ((s.setMtx (some (.worker w))).goto w p) else none
  | .unlock p, .none => some ((s.setMtx none).goto w p)
  | .notifyAllDone p, .none => some (s.notifyAllDone.goto w p)
  | .extract k, .none =>
    match s.sh.queue with
    | [] => none -- there is nothing to extract
    | nd :: rest => some (((s.setQueue rest).addOut 1).goto w (k nd))
  | .insert nd false p, .none => some ((s.setQueue (insertNode nd s.sh.queue)).goto w p)
  | .insert nd true p, .wake t => ((s.setQueue (insertNode nd s.sh.queue)).goto w p).notifyOne t
  | .parked woken _, .spurious => some (s.goto w woken)
  | .parked _ (some (deadline, p)), .timeout => if deadline ≤ s.sh.now then some (s.goto w p) else none
  | .call _ k, .result isRepeat => some (s.goto w (k isRepeat))
  | .leave owns p, .none => some (((s.addOut (-1)).setMtx (if owns then none else s.mtx)).goto w p)
  | _, _ => none

/-- A caller of `WaitUntilAllDone` goes on. -/
def stepWaiter (s : State φ n ψ) (a : ψ) : Option (State φ n ψ) :=
  match allDoneCode s.sh (s.waiter a) with
  | .tau p => some (s.gotoWaiter a p)
  | .lock p => if s.mtx = none then some ((s.setMtx (some (.waiter a))).gotoWaiter a p) else none
  | .unlock p => some ((s.setMtx none).gotoWaiter a p)

/-- `PushEvent`, with `mtx_` free. -/
def pushEvent (s : State φ n ψ) (f : φ) (period : ℤ) (wake : Option (Fin n)) : Option (State φ n ψ) :=
  if s.mtx = none then (s.setQueue (insertNode ⟨s.sh.now + period, f, period⟩ s.sh.queue)).notifyOne wake else none

def next (s : State φ n ψ) : Label φ n ψ → Option (State φ n ψ)
  | .tick t => if s.sh.now ≤ t then some { s with sh := { s.sh with now := t } } else none
  | .pushEvent f period wake => pushEvent s f period wake
  | .quitStore => some { s with sh := { s.sh with quit := true } }
  | .quitNotify => if s.sh.quit then some { s with worker := fun w => (s.worker w).wake } else none
  | .worker w inp => stepWorker s w inp
  | .waiter a => stepWaiter s a

/-- A `TimeoutQueue` that has just been constructed with `n` workers. -/
structure Initial (s : State φ n ψ) : Prop where
  queue : s.sh.queue = []
  quit : s.sh.quit = false
  eventsOutOfQueue : s.sh.eventsOutOfQueue = 0
  mtx : s.mtx = none
  worker : ∀ w, s.worker w = .loop
  waiter : ∀ a, s.waiter a = .out

def State.blank : State φ n ψ := ⟨⟨0, [], false, 0⟩, none, fun _ => .loop, fun _ => .out⟩

theorem State.blank_initial : Initial (State.blank : State φ n ψ) :=
  ⟨rfl, rfl, rfl, rfl, fun _ => rfl, fun _ => rfl⟩

def system (φ : Type) (n : ℕ) (ψ : Type) [DecidableEq ψ] : Machine (State φ n ψ) (Label φ n ψ) where
  init := Initial
  next := next

end Step

end DistributedLock.TimeoutQueue
