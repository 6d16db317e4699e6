import DistributedLock.DMutex.Code
import DistributedLock.Lib.Machine
import Mathlib.Data.List.Perm.Basic
import Mathlib.Tactic.Simps.Basic

/-!
# Any number of `DMutex` objects on one Redis server

The system the code runs in.  Every object has one caller thread, which enters the methods of `DMutex` one
after the other, and any number of renewal workers, each of which may call `KeepLock` of the object at any
time.  An object has its own Redis connection (the database selected on it is `conn`); the objects of one
process share the static mutex `mtx_`.

A step is one of

* `tick`: the clock of the server moves forward (entries may die);
* `call`, `keep`: a thread enters a method of its object;
* `act`: a thread executes the instruction at its program point.  A call of the database interface takes one
  such step for each atomic step of the implementation `D`; an exception leaves the method and releases `mtx_`.

What a run leaves open is in the labels: the reading of the thread's own system clock, the shuffle, the way a
command reaches the server.
-/

set_option linter.unusedSectionVars false

namespace DistributedLock.Cluster

open Lib Redis DMutex

/-- The caller's thread of an object, or a renewal worker of it. -/
inductive Thread (ι ω : Type) where
  | caller (i : ι)
  | worker (i : ι) (w : ω)
  deriving DecidableEq

def Thread.obj {ι ω : Type} : Thread ι ω → ι
  | .caller i => i
  | .worker i _ => i

/-- The objects of a system and the processes they live in. -/
structure Objects (ι π : Type) where
  cfg : ι → Cfg
  proc : ι → π

/-- A thread inside a method: its program point, and the one inside the database operation it is calling. -/
structure Frame (D : DBInterface) where
  pc : Pc
  db : Option D.Pc

structure State (D : DBInterface) (ι π ω : Type) where
  now : ℤ
  srv : Store
  conn : ι → ℤ
  fields : ι → Fields
  /-- The last `lock()`/`try_lock` returned success, and `unlock()` has not been called since. -/
  held : ι → Bool
  thr : Thread ι ω → Option (Frame D)
  mtx : π → Option (Thread ι ω)

/-- What comes from outside into an instruction. -/
inductive Input where
  | none
  | clock (t : ℤ)
  | shuffle (v : List ℤ)
  | db (fault : Fault)

inductive Label (ι ω : Type) where
  | tick (t : ℤ)
  | call (i : ι) (c : Call)
  | keep (i : ι) (w : ω)
  | act (θ : Thread ι ω) (inp : Input)

section Step

variable {D : DBInterface} {ι π ω : Type} [DecidableEq ι] [DecidableEq π] [DecidableEq ω]

namespace State

/-- The thread goes on at `pc`, inside the database operation at `q`. -/
@[simps] def goto (s : State D ι π ω) (θ : Thread ι ω) (pc : Pc) (q : Option D.Pc) : State D ι π ω :=
  { s with thr := Function.update s.thr θ (some ⟨pc, q⟩) }

@[simps] def setFields (s : State D ι π ω) (i : ι) (f : Fields) : State D ι π ω :=
  { s with fields := Function.update s.fields i f }

@[simps] def setMtx (s : State D ι π ω) (p : π) (o : Option (Thread ι ω)) : State D ι π ω :=
  { s with mtx := Function.update s.mtx p o }

@[simps] def setConn (s : State D ι π ω) (i : ι) (db : ℤ) (srv : Store) : State D ι π ω :=
  { s with conn := Function.update s.conn i db, srv := srv }

@[simps] def setHeld (s : State D ι π ω) (i : ι) (b : Bool) : State D ι π ω :=
  { s with held := Function.update s.held i b }

/-- The caller enters a method; from the call of `unlock()` on the object is not held. -/
@[simps] def enter (s : State D ι π ω) (i : ι) (c : Call) : State D ι π ω :=
  { s with
    held := if c = .unlock then Function.update s.held i false else s.held
    thr := Function.update s.thr (.caller i) (some ⟨c.entry, none⟩) }

/-- The thread leaves its method; the destructor of `lck` releases `mtx_` if the thread owns it. -/
@[simps] def leave (s : State D ι π ω) (p : π) (θ : Thread ι ω) : State D ι π ω :=
  { s with
    thr := Function.update s.thr θ none
    mtx := if s.mtx p = some θ then Function.update s.mtx p none else s.mtx }

end State

/-- The atomic step, at the program point `q`, of the database operation `op` that a thread is calling. -/
def dbStep (s : State D ι π ω) (i : ι) (q : Option D.Pc) (op : DBOp) (fault : Fault) : Outcome D.Pc :=
  D.step fault (q.getD (D.start op)) s.now (s.conn i) s.srv

/-- The state after that step, the thread that takes it apart. -/
def afterDb (s : State D ι π ω) (i : ι) (q : Option D.Pc) (op : DBOp) (fault : Fault) : State D ι π ω :=
  s.setConn i (dbStep s i q op fault).db (dbStep s i q op fault).store

/-- Whether the object is held after its caller returned from the program point `pc`. -/
def heldAfter (pc : Pc) (held : Bool) : Bool :=
  match pc with
  | .done res => res
  | _ => held

variable (O : Objects ι π)

/-- A thread executes the instruction at its program point. -/
def act (s : State D ι π ω) (θ : Thread ι ω) (inp : Input) : Option (State D ι π ω) :=
  match s.thr θ with
  | none => none
  | some fr =>
    let i := θ.obj
    match code (O.cfg i) (s.fields i) fr.pc, inp with
    | .tau f pc, .none => some ((s.setFields i f).goto θ pc none)
    | .lock pc, .none =>
      if s.mtx (O.proc i) = none then some ((s.setMtx (O.proc i) (some θ)).goto θ pc none) else none
    | .unlock pc, .none => some ((s.setMtx (O.proc i) none).goto θ pc none)
    | .call op k, .db fault =>
      match (dbStep s i fr.db op fault).resp with
      | .more q => some ((afterDb s i fr.db op fault).goto θ fr.pc (some q))
      | .done r => some ((afterDb s i fr.db op fault).goto θ (k r) none)
      | .raise _ => some ((afterDb s i fr.db op fault).leave (O.proc i) θ)
    | .clock k, .clock t => some (s.goto θ (k t) none)
    | .shuffle k, .shuffle v => if v.Perm (O.cfg i).hosts then some (s.goto θ (k v) none) else none
    | .pushEvent f _ pc, .none => some ((s.setFields i f).goto θ pc none)
    | .ret _, .none => some ((s.setHeld i (heldAfter fr.pc (s.held i))).leave (O.proc i) θ)
    | .throw, .none => some (s.leave (O.proc i) θ)
    | _, _ => none

def next (s : State D ι π ω) : Label ι ω → Option (State D ι π ω)
  | .tick t => if s.now ≤ t then some { s with now := t } else none
  | .call i c => if (s.thr (.caller i)).isNone then some (s.enter i c) else none
  | .keep i w => if (s.thr (.worker i w)).isNone then some (s.goto (.worker i w) .keepLock none) else none
  | .act θ inp => act O s θ inp

/-- At the start no method has been called; the server may hold any entries. -/
structure Initial (s : State D ι π ω) : Prop where
  fields : ∀ i, s.fields i = {}
  held : ∀ i, s.held i = false
  thr : ∀ θ, s.thr θ = none
  mtx : ∀ p, s.mtx p = none

def system (D : DBInterface) (ω : Type) [DecidableEq ω] : Machine (State D ι π ω) (Label ι ω) where
  init := Initial
  next := next O

/-- An initial state: the clock at 0, an empty server. -/
def State.blank : State D ι π ω where
  now := 0
  srv _ _ := none
  conn _ := 0
  fields _ := {}
  held _ := false
  thr _ := none
  mtx _ := none

theorem State.blank_initial : Initial (State.blank : State D ι π ω) :=
  ⟨fun _ => rfl, fun _ => rfl, fun _ => rfl, fun _ => rfl⟩

end Step

/-! ## Objects that compete -/

section Compete

variable {ι π : Type}

/-- The database `h` holds the object's entry. -/
def Owns (cfg : Cfg) (srv : Store) (now h : ℤ) : Prop := srv.Holds now h cfg.key cfg.value

/-- Objects that compete for one key, with pairwise different values. -/
structure Contenders (O : Objects ι π) : Prop where
  key : ∀ i j, (O.cfg i).key = (O.cfg j).key
  value : Function.Injective fun i => (O.cfg i).value

/-- Objects that compete for one lock: contenders with the same list of hosts. -/
structure Rivals (O : Objects ι π) : Prop extends Contenders O where
  hosts : ∀ i j, (O.cfg i).hosts = (O.cfg j).hosts

/-- The calls of an object that is used alternately. -/
def Alternates (held : Bool) : Call → Prop
  | .lock | .tryLockFor _ => held = false
  | .unlock => held = true
  | .tryLock => False

instance (held : Bool) : DecidablePred (Alternates held)
  | .lock | .tryLockFor _ => inferInstanceAs (Decidable (held = false))
  | .unlock => inferInstanceAs (Decidable (held = true))
  | .tryLock => inferInstanceAs (Decidable False)

end Compete

/-! ## Undisturbed runs -/

/-- The inputs of a pass of `MainLockFunction` that takes the hosts in their order and has its commands answered,
up to the acceptance test. -/
def passInputs (hosts : List ℤ) (t : ℤ) : List Input :=
  [.clock t, .shuffle hosts] ++ hosts.flatMap (fun _ => [.none, .none, .db .none, .db .none, .none, .none]) ++
    [.none, .none]

/-- The labels of a `lock()` up to the acceptance test of its first pass. -/
def lockPass {ι ω : Type} (i : ι) (hosts : List ℤ) (t : ℤ) : List (Label ι ω) :=
  .call i .lock :: (.none :: passInputs hosts t).map (.act (.caller i))

/-- The inputs of `UnlockAll` over the Redis client, for an object whose entry is in all its hosts. -/
def unlockInputs (hosts : List ℤ) : List Input :=
  [.none, .none] ++ hosts.flatMap (fun _ => List.replicate 4 (.db .none)) ++ [.none, .none]

def unlockAll {ι ω : Type} (i : ι) (hosts : List ℤ) : List (Label ι ω) :=
  .call i .unlock :: (unlockInputs hosts).map (.act (.caller i))

/-- The inputs of `UnlockAll` for an object that finds the entries of another one in all its hosts. -/
def undoInputs (hosts : List ℤ) : List Input :=
  [.none, .none] ++ hosts.flatMap (fun _ => List.replicate 3 (.db .none)) ++ [.none]

/-- The labels of the `lock()` of such an object, up to the failure of its first attempt. -/
def refused {ι ω : Type} (i : ι) (hosts : List ℤ) (t : ℤ) : List (Label ι ω) :=
  lockPass i hosts t ++ (undoInputs hosts).map (.act (.caller i))

/-- The labels of the acceptance test and of the return of success. -/
def accept {ι ω : Type} (i : ι) (t : ℤ) : List (Label ι ω) :=
  [.clock t, .none, .none, .none, .none].map (.act (.caller i))

/-- Two objects of one process, with the values `1` and `2`. -/
def twoObjects (hosts : List ℤ) : Objects Bool Unit where
  cfg i := ⟨hosts, "k", if i then "2" else "1", 30000, 20000⟩
  proc _ := ()

/-- `MainLockFunction` of one of two objects has returned false. -/
def hasFailed {D : DBInterface} (i : Bool) (s : State D Bool Unit Unit) : Bool :=
  match s.thr (.caller i) with
  | some ⟨.failed _, _⟩ => true
  | _ => false

theorem hasFailed_iff {D : DBInterface} {i : Bool} {s : State D Bool Unit Unit} (h : hasFailed i s = true) :
    ∃ fr c, s.thr (.caller i) = some fr ∧ fr.pc = .failed c := by
  unfold hasFailed at h
  split at h
  · exact ⟨_, _, by assumption, rfl⟩
  · cases h

theorem twoObjects_rivals (hosts : List ℤ) : Rivals (twoObjects hosts) where
  key _ _ := rfl
  hosts _ _ := rfl
  value := by
    show Function.Injective fun i : Bool => if i then "2" else "1"
    decide

end DistributedLock.Cluster
