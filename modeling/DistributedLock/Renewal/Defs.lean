import DistributedLock.Lib.Product
import DistributedLock.Cluster.Held
import DistributedLock.TimeoutQueue.Events

/-!
# The lock manager of a process: its objects and its queue

The objects of one process with the `TimeoutQueue` of `TimeoutQueueIns()`, as the product of the two machines.  The
event of an acceptance captures the object, so an event is known by the object, and its function is `KeepLock` of it.
The two machines move together

* in `accept`: `MainLockFunction` calls `PushEvent`;
* in `fire`: a worker whose node is due calls the event function, and enters `KeepLock`;
* in `finish`: `KeepLock` returns, and its result is that of the event function.

`MainLockFunction` is the only user of the queue.  An exception that leaves `KeepLock` would end the process; here the
worker then stays inside the event function.
-/

set_option linter.unusedSectionVars false

namespace DistributedLock.Renewal

open Lib Redis DMutex Cluster

inductive Label (ι : Type) (n : ℕ) (ψ : Type) where
  | locks (l : Cluster.Label ι (Fin n))
  | queue (l : TimeoutQueue.Label ι n ψ)
  | accept (i : ι) (wake : Option (Fin n))
  | fire (w : Fin n)
  | finish (w : Fin n)

section Step

variable {D : DBInterface} {ι : Type} {n : ℕ} {ψ : Type} [DecidableEq ι] [DecidableEq ψ] (O : Objects ι Unit)

abbrev State (D : DBInterface) (ι : Type) (n : ℕ) (ψ : Type) : Type :=
  Cluster.State D ι Unit (Fin n) × TimeoutQueue.State ι n ψ

def instrAt (c : Cluster.State D ι Unit (Fin n)) (θ : Thread ι (Fin n)) : Option Instr :=
  (c.thr θ).map fun fr => code (O.cfg θ.obj) (c.fields θ.obj) fr.pc

/-- The steps of the objects in which the queue has a part. -/
def locksShared (c : Cluster.State D ι Unit (Fin n)) : Cluster.Label ι (Fin n) → Bool
  | .keep _ _ => true
  | .act (.caller i) _ =>
    match instrAt O c (.caller i) with
    | some (.pushEvent ..) => true
    | _ => false
  | .act (.worker i w) _ =>
    match instrAt O c (.worker i w) with
    | some (.ret _) => true
    | _ => false
  | _ => false

def due (q : TimeoutQueue.State ι n ψ) (w : Fin n) : Option (TimeoutQueue.Node ι) :=
  match q.worker w with
  | .testDue nd => if !q.sh.quit && nd.key ≤ q.sh.now then some nd else none
  | _ => none

/-- The steps of the queue in which the objects have a part. -/
def queueShared (q : TimeoutQueue.State ι n ψ) : TimeoutQueue.Label ι n ψ → Bool
  | .pushEvent .. => true
  | .worker _ (.result _) => true
  | .worker w .none => (due q w).isSome
  | _ => false

def steps (c : Cluster.State D ι Unit (Fin n)) (q : TimeoutQueue.State ι n ψ) :
    Label ι n ψ → Option (Option (Cluster.Label ι (Fin n)) × Option (TimeoutQueue.Label ι n ψ))
  | .locks l => if locksShared O c l then none else some (some l, none)
  | .queue l => if queueShared q l then none else some (none, some l)
  | .accept i wake =>
    match instrAt O c (.caller i) with
    | some (.pushEvent _ period _) => some (some (.act (.caller i) .none), some (.pushEvent i period wake))
    | _ => none
  | .fire w =>
    match due q w with
    | some nd => some (some (.keep nd.event.function w), some (.worker w .none))
    | none => none
  | .finish w =>
    match q.worker w with
    | .run nd =>
      match instrAt O c (.worker nd.event.function w) with
      | some (.ret res) => some (some (.act (.worker nd.event.function w) .none), some (.worker w (.result res)))
      | _ => none
    | _ => none

/-- **The lock manager of a process.** -/
def system (D : DBInterface) (n : ℕ) (ψ : Type) [DecidableEq ψ] : Machine (State D ι n ψ) (Label ι n ψ) :=
  (Cluster.system O D (Fin n)).product (TimeoutQueue.system ι n ψ) (steps O)

def Alternately (x : State D ι n ψ) (l : Label ι n ψ) : Prop :=
  ∀ i c, l = .locks (.call i c) → Alternates (x.1.held i) c

end Step

/-! ## Inversion -/

section Inversion

variable {D : DBInterface} {ι : Type} {n : ℕ} {ψ : Type} [DecidableEq ι] [DecidableEq ψ] {O : Objects ι Unit}
  {x x' : State D ι n ψ} {l : Label ι n ψ}

theorem instrAt_eq_some {c : Cluster.State D ι Unit (Fin n)} {θ : Thread ι (Fin n)} {instr : Instr} :
    instrAt O c θ = some instr ↔
      ∃ fr, c.thr θ = some fr ∧ code (O.cfg θ.obj) (c.fields θ.obj) fr.pc = instr := by
  simp [instrAt, Option.map_eq_some_iff]

theorem due_eq_some {q : TimeoutQueue.State ι n ψ} {w : Fin n} {nd : TimeoutQueue.Node ι} (h : due q w = some nd) :
    q.worker w = .testDue nd ∧ TimeoutQueue.code q.sh (q.worker w) = .unlock (.run nd) := by
  unfold due at h
  split at h
  · rename_i nd' hw
    split at h
    · rename_i hdue
      cases h
      exact ⟨hw, by rw [hw]; simp only [TimeoutQueue.code, hdue, if_true]⟩
    · cases h
  · cases h

/-- What a step does to the objects and to the queue. -/
inductive Steps (O : Objects ι Unit) (x : State D ι n ψ) : Label ι n ψ → State D ι n ψ → Prop
  | locks {l : Cluster.Label ι (Fin n)} {c : Cluster.State D ι Unit (Fin n)} (hfree : locksShared O x.1 l = false)
      (hc : next O x.1 l = some c) : Steps O x (.locks l) (c, x.2)
  | queue {l : TimeoutQueue.Label ι n ψ} {q : TimeoutQueue.State ι n ψ} (hfree : queueShared x.2 l = false)
      (hq : TimeoutQueue.next x.2 l = some q) : Steps O x (.queue l) (x.1, q)
  | accept {i : ι} {wake : Option (Fin n)} {fr : Frame D} {f : Fields} {period : ℤ} {pc : Pc}
      {c : Cluster.State D ι Unit (Fin n)} {q : TimeoutQueue.State ι n ψ} (hfr : x.1.thr (.caller i) = some fr)
      (hcode : code (O.cfg i) (x.1.fields i) fr.pc = .pushEvent f period pc)
      (hc : act O x.1 (.caller i) .none = some c)
      (hq : TimeoutQueue.next x.2 (.pushEvent i period wake) = some q) : Steps O x (.accept i wake) (c, q)
  | fire {w : Fin n} {nd : TimeoutQueue.Node ι} {c : Cluster.State D ι Unit (Fin n)} {q : TimeoutQueue.State ι n ψ}
      (hdue : due x.2 w = some nd) (hc : next O x.1 (.keep nd.event.function w) = some c)
      (hq : TimeoutQueue.next x.2 (.worker w .none) = some q) : Steps O x (.fire w) (c, q)
  | finish {w : Fin n} {nd : TimeoutQueue.Node ι} {fr : Frame D} {res : Bool} {c : Cluster.State D ι Unit (Fin n)}
      {q : TimeoutQueue.State ι n ψ} (hw : x.2.worker w = .run nd)
      (hfr : x.1.thr (.worker nd.event.function w) = some fr)
      (hcode : code (O.cfg nd.event.function) (x.1.fields nd.event.function) fr.pc = .ret res)
      (hc : act O x.1 (.worker nd.event.function w) .none = some c)
      (hq : TimeoutQueue.next x.2 (.worker w (.result res)) = some q) : Steps O x (.finish w) (c, q)

/-- **Inversion of a step.** -/
theorem system_next (h : (system O D n ψ).next x l = some x') : Steps O x l x' := by
  obtain ⟨a, b, hst, hc, hq⟩ := Machine.product_next.mp h
  obtain ⟨c', q'⟩ := x'
  cases l with
  | locks l =>
    simp only [steps] at hst
    split at hst
    · cases hst
    · rename_i hfree
      cases hst
      cases hq
      exact .locks (by simpa using hfree) hc
  | queue l =>
    simp only [steps] at hst
    split at hst
    · cases hst
    · rename_i hfree
      cases hst
      cases hc
      exact .queue (by simpa using hfree) hq
  | accept i wake =>
    simp only [steps] at hst
    split at hst
    · rename_i f period pc hin
      cases hst
      obtain ⟨fr, hfr, hcode⟩ := instrAt_eq_some.mp hin
      exact .accept hfr hcode hc hq
    · cases hst
  | fire w =>
    simp only [steps] at hst
    split at hst
    · rename_i nd hdue
      cases hst
      exact .fire hdue hc hq
    · cases hst
  | finish w =>
    simp only [steps] at hst
    split at hst
    · rename_i nd hw
      split at hst
      · rename_i res hin
        cases hst
        obtain ⟨fr, hfr, hcode⟩ := instrAt_eq_some.mp hin
        exact .finish hw hfr hcode hc hq
      · cases hst
    · cases hst

/-! ## The runs of the two machines -/

theorem cluster_of_reach {ok : State D ι n ψ → Label ι n ψ → Prop} (h : (system O D n ψ).Reach ok x) :
    (Cluster.system O D (Fin n)).Reach (fun _ _ => True) x.1 :=
  h.left fun _ _ _ _ _ _ => trivial

theorem queue_of_reach {ok : State D ι n ψ → Label ι n ψ → Prop} (h : (system O D n ψ).Reach ok x) :
    (TimeoutQueue.system ι n ψ).Reach (fun _ _ => True) x.2 :=
  h.right fun _ _ _ _ _ _ => trivial

/-- Objects that are used alternately make a run of objects that are used alternately. -/
theorem alternating_of_reach {ok : State D ι n ψ → Label ι n ψ → Prop} (hok : ∀ x l, ok x l → Alternately x l)
    (h : (system O D n ψ).Reach ok x) : (Cluster.system O D (Fin n)).Reach Alternating x.1 := by
  refine h.left fun y l a b hl hst => ?_
  rintro i c rfl
  cases l with
  | locks l =>
    simp only [steps] at hst
    split at hst
    · cases hst
    · cases hst
      exact hok y _ hl i c rfl
  | queue l => simp only [steps] at hst; split at hst <;> cases hst
  | accept i wake => simp only [steps] at hst; split at hst <;> cases hst
  | fire w => simp only [steps] at hst; split at hst <;> cases hst
  | finish w =>
    simp only [steps] at hst
    split at hst
    · split at hst <;> cases hst
    · cases hst

end Inversion

end DistributedLock.Renewal
