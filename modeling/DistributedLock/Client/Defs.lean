import DistributedLock.Cluster.Defs

/-!
# One `DMutexImpl`, its threads and the world around it

The system of one object: any number of threads `τ`, each of which may call any method of the object, or run its
`KeepLock`, at any time; all of them share the members, the Redis connection and `mtx_`.  Around the object

* `world`: the clock moves forward and the store becomes any other one, by the commands of other clients and by expiry;
* `borrow`, `giveBack`: a thread of another object of the process takes `mtx_`, which is static, and releases it.

The instructions are those of `Cluster`, without the other objects.
-/

set_option linter.unusedSectionVars false

namespace DistributedLock.Client

open Lib Redis DMutex
open Cluster (Frame Input)

structure State (D : DBInterface) (τ : Type) where
  now : ℤ
  srv : Store
  /-- The database selected on the connection. -/
  conn : ℤ
  fields : Fields
  /-- The owner of `mtx_`: a thread of the object, or of another object. -/
  mtx : Option (Option τ)
  thr : τ → Option (Frame D)

inductive Label (τ : Type) where
  | world (t : ℤ) (srv : Store)
  | borrow
  | giveBack
  | call (a : τ) (c : Call)
  | keep (a : τ)
  | act (a : τ) (inp : Input)

section Step

variable {D : DBInterface} {τ : Type} [DecidableEq τ]

namespace State

@[simps] def goto (s : State D τ) (a : τ) (pc : Pc) (q : Option D.Pc) : State D τ :=
  { s with thr := Function.update s.thr a (some ⟨pc, q⟩) }

@[simps] def setFields (s : State D τ) (f : Fields) : State D τ := { s with fields := f }

@[simps] def setMtx (s : State D τ) (o : Option (Option τ)) : State D τ := { s with mtx := o }

@[simps] def setConn (s : State D τ) (db : ℤ) (srv : Store) : State D τ := { s with conn := db, srv := srv }

/-- The thread leaves its method; the destructor of `lck` releases `mtx_` if the thread owns it. -/
@[simps] def leave (s : State D τ) (a : τ) : State D τ :=
  { s with thr := Function.update s.thr a none, mtx := if s.mtx = some (some a) then none else s.mtx }

end State

/-- The atomic step, at the program point `q`, of the database operation `op` that a thread is calling. -/
def dbStep (s : State D τ) (q : Option D.Pc) (op : DBOp) (fault : Fault) : Outcome D.Pc :=
  D.step fault (q.getD (D.start op)) s.now s.conn s.srv

/-- The state after that step, the thread that takes it apart. -/
def afterDb (s : State D τ) (q : Option D.Pc) (op : DBOp) (fault : Fault) : State D τ :=
  s.setConn (dbStep s q op fault).db (dbStep s q op fault).store

def exec (cfg : Cfg) (s : State D τ) (a : τ) (fr : Frame D) : Instr → Input → Option (State D τ)
  | .tau f pc, .none => some ((s.setFields f).goto a pc none)
  | .lock pc, .none => if s.mtx = none then some ((s.setMtx (some (some a))).goto a pc none) else none
  | .unlock pc, .none => some ((s.setMtx none).goto a pc none)
  | .call op k, .db fault =>
    match (dbStep s fr.db op fault).resp with
    | .more q => some ((afterDb s fr.db op fault).goto a fr.pc (some q))
    | .done r => some ((afterDb s fr.db op fault).goto a (k r) none)
    | .raise _ => some ((afterDb s fr.db op fault).leave a)
  | .clock k, .clock t => some (s.goto a (k t) none)
  | .shuffle k, .shuffle v => if v.Perm cfg.hosts then some (s.goto a (k v) none) else none
  | .pushEvent f _ pc, .none => some ((s.setFields f).goto a pc none)
  | .ret _, .none => some (s.leave a)
  | .throw, .none => some (s.leave a)
  | _, _ => none

def next (cfg : Cfg) (s : State D τ) : Label τ → Option (State D τ)
  | .world t srv => if s.now ≤ t then some { s with now := t, srv := srv } else none
  | .borrow => if s.mtx = none then some (s.setMtx (some none)) else none
  | .giveBack => if s.mtx = some none then some (s.setMtx none) else none
  | .call a c => if (s.thr a).isNone then some (s.goto a c.entry none) else none
  | .keep a => if (s.thr a).isNone then some (s.goto a .keepLock none) else none
  | .act a inp => (s.thr a).bind fun fr => exec cfg s a fr (code cfg s.fields fr.pc) inp

/-- An object that has just been constructed; the server may hold any entries. -/
structure Initial (s : State D τ) : Prop where
  fields : s.fields = {}
  mtx : s.mtx = none
  thr : ∀ a, s.thr a = none

def system (cfg : Cfg) (D : DBInterface) (τ : Type) [DecidableEq τ] : Machine (State D τ) (Label τ) where
  init := Initial
  next := next cfg

/-- An initial state: the clock at 0, an empty server. -/
def State.blank : State D τ := ⟨0, fun _ _ => none, 0, {}, none, fun _ => none⟩

theorem State.blank_initial : Initial (State.blank : State D τ) := ⟨rfl, rfl, fun _ => rfl⟩

end Step

/-! ## Inversion -/

section Inversion

variable {D : DBInterface} {τ : Type} [DecidableEq τ] {cfg : Cfg} {s s' : State D τ} {a : τ} {fr : Frame D}
  {inp : Input}

/-- The instruction steps of the thread `a` at the frame `fr`. -/
inductive Acts (cfg : Cfg) (s : State D τ) (a : τ) (fr : Frame D) : Input → State D τ → Prop
  | tau {f : Fields} {pc : Pc} (hc : code cfg s.fields fr.pc = .tau f pc) :
      Acts cfg s a fr .none ((s.setFields f).goto a pc none)
  | lock {pc : Pc} (hc : code cfg s.fields fr.pc = .lock pc) (hfree : s.mtx = none) :
      Acts cfg s a fr .none ((s.setMtx (some (some a))).goto a pc none)
  | unlock {pc : Pc} (hc : code cfg s.fields fr.pc = .unlock pc) :
      Acts cfg s a fr .none ((s.setMtx none).goto a pc none)
  | more {op : DBOp} {k : DBResult → Pc} {fault : Fault} {q : D.Pc} (hc : code cfg s.fields fr.pc = .call op k)
      (hr : (dbStep s fr.db op fault).resp = .more q) :
      Acts cfg s a fr (.db fault) ((afterDb s fr.db op fault).goto a fr.pc (some q))
  | done {op : DBOp} {k : DBResult → Pc} {fault : Fault} {r : DBResult} (hc : code cfg s.fields fr.pc = .call op k)
      (hr : (dbStep s fr.db op fault).resp = .done r) :
      Acts cfg s a fr (.db fault) ((afterDb s fr.db op fault).goto a (k r) none)
  | raise {op : DBOp} {k : DBResult → Pc} {fault : Fault} {what : String}
      (hc : code cfg s.fields fr.pc = .call op k) (hr : (dbStep s fr.db op fault).resp = .raise what) :
      Acts cfg s a fr (.db fault) ((afterDb s fr.db op fault).leave a)
  | clock {k : ℤ → Pc} {t : ℤ} (hc : code cfg s.fields fr.pc = .clock k) :
      Acts cfg s a fr (.clock t) (s.goto a (k t) none)
  | shuffle {k : List ℤ → Pc} {v : List ℤ} (hc : code cfg s.fields fr.pc = .shuffle k) (hv : v.Perm cfg.hosts) :
      Acts cfg s a fr (.shuffle v) (s.goto a (k v) none)
  | pushEvent {f : Fields} {period : ℤ} {pc : Pc} (hc : code cfg s.fields fr.pc = .pushEvent f period pc) :
      Acts cfg s a fr .none ((s.setFields f).goto a pc none)
  | ret {res : Bool} (hc : code cfg s.fields fr.pc = .ret res) : Acts cfg s a fr .none (s.leave a)
  | throw (hc : code cfg s.fields fr.pc = .throw) : Acts cfg s a fr .none (s.leave a)

/-- **Inversion of an instruction step.** -/
theorem exec_cases (h : exec cfg s a fr (code cfg s.fields fr.pc) inp = some s') : Acts cfg s a fr inp s' := by
  unfold exec at h
  split at h
  · rename_i hc; cases h; exact .tau hc
  · rename_i hc
    split at h
    · rename_i hfree; cases h; exact .lock hc hfree
    · cases h
  · rename_i hc; cases h; exact .unlock hc
  · rename_i hc
    split at h
    · rename_i hr; cases h; exact .more hc hr
    · rename_i hr; cases h; exact .done hc hr
    · rename_i hr; cases h; exact .raise hc hr
  · rename_i hc; cases h; exact .clock hc
  · rename_i hc
    split at h
    · rename_i hv; cases h; exact .shuffle hc hv
    · cases h
  · rename_i hc; cases h; exact .pushEvent hc
  · rename_i hc; cases h; exact .ret hc
  · rename_i hc; cases h; exact .throw hc
  · cases h

/-- **Inversion of a step.** -/
theorem next_cases {l : Label τ} (h : next cfg s l = some s') :
    (∃ t srv, l = .world t srv ∧ s.now ≤ t ∧ s' = { s with now := t, srv := srv }) ∨
    (l = .borrow ∧ s.mtx = none ∧ s' = s.setMtx (some none)) ∨
    (l = .giveBack ∧ s.mtx = some none ∧ s' = s.setMtx none) ∨
    (∃ a c, l = .call a c ∧ s.thr a = none ∧ s' = s.goto a c.entry none) ∨
    (∃ a, l = .keep a ∧ s.thr a = none ∧ s' = s.goto a .keepLock none) ∨
    ∃ a inp fr, l = .act a inp ∧ s.thr a = some fr ∧ Acts cfg s a fr inp s' := by
  cases l with
  | world t srv =>
    simp only [next] at h
    split at h
    · rename_i ht; cases h; exact .inl ⟨t, srv, rfl, ht, rfl⟩
    · cases h
  | borrow =>
    simp only [next] at h
    split at h
    · rename_i hm; cases h; exact .inr (.inl ⟨rfl, hm, rfl⟩)
    · cases h
  | giveBack =>
    simp only [next] at h
    split at h
    · rename_i hm; cases h; exact .inr (.inr (.inl ⟨rfl, hm, rfl⟩))
    · cases h
  | call a c =>
    simp only [next] at h
    split at h
    · rename_i hn; cases h
      exact .inr (.inr (.inr (.inl ⟨a, c, rfl, Option.isNone_iff_eq_none.mp hn, rfl⟩)))
    · cases h
  | keep a =>
    simp only [next] at h
    split at h
    · rename_i hn; cases h
      exact .inr (.inr (.inr (.inr (.inl ⟨a, rfl, Option.isNone_iff_eq_none.mp hn, rfl⟩))))
    · cases h
  | act a inp =>
    obtain ⟨fr, hfr, hex⟩ := Option.bind_eq_some_iff.mp h
    exact .inr (.inr (.inr (.inr (.inr ⟨a, inp, fr, rfl, hfr, exec_cases hex⟩))))

end Inversion

end DistributedLock.Client
