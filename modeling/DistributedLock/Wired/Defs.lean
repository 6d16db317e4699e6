import DistributedLock.Cluster.Basic
import DistributedLock.Pipeline.Matching
import DistributedLock.Resp.Session

/-!
# The lock manager over its connections

The objects of `Cluster`, where a call of `DBRedis` is no longer a step: the thread sends the words of its
command over the connection of its object (`ask`), the command travels through the buffers of the client and of
the network (`net`), the server executes it when it comes to it (`serve`), and the thread goes on with the reply
when `get` of the future returns it (`answer`).  The threads of an object share its connection, those of other
objects and the clock go on meanwhile.

`core` is the state of the objects and of the server, as in `Cluster`, where a thread that waits for a reply
still stands at its call.
-/

set_option linter.unusedSectionVars false

namespace DistributedLock.Wired

open Lib Redis DMutex
open Resp (Bytes resumeWire wire serverExec)
open Cluster (Thread Objects Frame Input)

structure State (databases : ℕ) (ι π ω : Type) where
  core : Cluster.State (dbRedis databases) ι π ω
  pipe : ι → Pipeline.State (Thread ι ω)

inductive Label (ι ω : Type) where
  | tick (t : ℤ)
  | call (i : ι) (c : Call)
  | keep (i : ι) (w : ω)
  | act (θ : Thread ι ω) (inp : Input)
  | ask (θ : Thread ι ω)
  | net (i : ι) (l : Pipeline.Label (Thread ι ω))
  | serve (i : ι) (cmd : List Bytes)
  | answer (θ : Thread ι ω)

section Step

variable {databases : ℕ} {ι π ω : Type} [DecidableEq ι] [DecidableEq π] [DecidableEq ω]

namespace State

def setCore (w : State databases ι π ω) (core : Cluster.State (dbRedis databases) ι π ω) : State databases ι π ω :=
  { w with core := core }

def setPipe (w : State databases ι π ω) (i : ι) (p : Pipeline.State (Thread ι ω)) : State databases ι π ω :=
  { w with pipe := Function.update w.pipe i p }

end State

variable (O : Objects ι π)

/-- The operation that a thread is calling, and the point of `DBRedis` it is at. -/
def calling (core : Cluster.State (dbRedis databases) ι π ω) (θ : Thread ι ω) :
    Option (Frame (dbRedis databases) × DBRedisPc × (DBResult → Pc)) :=
  match core.thr θ with
  | none => none
  | some fr =>
    match code (O.cfg θ.obj) (core.fields θ.obj) fr.pc with
    | .call op k => some (fr, fr.db.getD (DBRedisPc.start op), k)
    | _ => none

/-- Where a thread is after a reply; an exception has left the method. -/
def after (fr : Frame (dbRedis databases)) (q : DBRedisPc) (k : DBResult → Pc) (r : Resp.Reply) :
    Option (Frame (dbRedis databases)) :=
  match resumeWire q r with
  | .more q' => some ⟨fr.pc, some q'⟩
  | .done res => some ⟨k res, none⟩
  | .raise _ => none

def resume (core : Cluster.State (dbRedis databases) ι π ω) (θ : Thread ι ω) :
    Option (Frame (dbRedis databases)) → Cluster.State (dbRedis databases) ι π ω
  | some fr => core.goto θ fr.pc fr.db
  | none => core.leave (O.proc θ.obj) θ

/-- An instruction that is not a call of the database. -/
def act (w : State databases ι π ω) (θ : Thread ι ω) (inp : Input) : Option (State databases ι π ω) :=
  match inp with
  | .db _ => none
  | inp => if (w.pipe θ.obj).calls θ = none then (Cluster.act O w.core θ inp).map w.setCore else none

def ask (w : State databases ι π ω) (θ : Thread ι ω) : Option (State databases ι π ω) :=
  match calling O w.core θ with
  | none => none
  | some (_, q, _) => (Pipeline.send (w.pipe θ.obj) θ (Resp.Command.words q.command)).map (w.setPipe θ.obj)

/-- A step of the client library, of its io service or of the network. -/
def net (w : State databases ι π ω) (i : ι) (l : Pipeline.Label (Thread ι ω)) : Option (State databases ι π ω) :=
  match l with
  | .send _ _ | .get _ | .serve _ _ => none
  | l => (Pipeline.next (w.pipe i) l).map (w.setPipe i)

def answer (w : State databases ι π ω) (i : ι) (cmd : List Bytes) : Answer :=
  serverExec databases w.core.now (w.core.conn i) w.core.srv cmd

def serve (w : State databases ι π ω) (i : ι) (cmd : List Bytes) : Option (State databases ι π ω) :=
  let a := answer w i cmd
  (Pipeline.serve (w.pipe i) cmd (wire a.reply)).map fun p => (w.setPipe i p).setCore (w.core.setConn i a.db a.store)

/-- `get` of the future returns the reply. -/
def take (w : State databases ι π ω) (θ : Thread ι ω) : Option (State databases ι π ω) :=
  match calling O w.core θ, (w.pipe θ.obj).calls θ with
  | some (fr, q, k), some c =>
    match (w.pipe θ.obj).promises c.number with
    | none => none
    | some r =>
      (Pipeline.get (w.pipe θ.obj) θ).map fun p => (w.setPipe θ.obj p).setCore (resume O w.core θ (after fr q k r))
  | _, _ => none

def next (w : State databases ι π ω) : Label ι ω → Option (State databases ι π ω)
  | .tick t => (Cluster.next O w.core (.tick t)).map w.setCore
  | .call i c => (Cluster.next O w.core (.call i c)).map w.setCore
  | .keep i wk => (Cluster.next O w.core (.keep i wk)).map w.setCore
  | .act θ inp => act O w θ inp
  | .ask θ => ask O w θ
  | .net i l => net w i l
  | .serve i cmd => serve w i cmd
  | .answer θ => take O w θ

/-- At the start no method has been called, and all connections have been opened. -/
structure Initial (w : State databases ι π ω) : Prop where
  core : Cluster.Initial w.core
  pipe : ∀ i, w.pipe i = Pipeline.State.fresh

def system (databases : ℕ) (ω : Type) [DecidableEq ω] : Machine (State databases ι π ω) (Label ι ω) where
  init := Initial
  next := next O

end Step

/-! ## Inversion -/

section Inversion

variable {databases : ℕ} {ι π ω : Type} [DecidableEq ι] [DecidableEq π] [DecidableEq ω] {O : Objects ι π}
  {w w' : State databases ι π ω} {l : Label ι ω}

inductive Steps (O : Objects ι π) (w : State databases ι π ω) : Label ι ω → State databases ι π ω → Prop
  | tick {t : ℤ} {core : Cluster.State (dbRedis databases) ι π ω} (h : Cluster.next O w.core (.tick t) = some core) :
      Steps O w (.tick t) (w.setCore core)
  | call {i : ι} {c : Call} {core : Cluster.State (dbRedis databases) ι π ω}
      (h : Cluster.next O w.core (.call i c) = some core) : Steps O w (.call i c) (w.setCore core)
  | keep {i : ι} {wk : ω} {core : Cluster.State (dbRedis databases) ι π ω}
      (h : Cluster.next O w.core (.keep i wk) = some core) : Steps O w (.keep i wk) (w.setCore core)
  | act {θ : Thread ι ω} {inp : Input} {core : Cluster.State (dbRedis databases) ι π ω} (hinp : ∀ f, inp ≠ .db f)
      (hidle : (w.pipe θ.obj).calls θ = none) (h : Cluster.act O w.core θ inp = some core) :
      Steps O w (.act θ inp) (w.setCore core)
  | ask {θ : Thread ι ω} {fr : Frame (dbRedis databases)} {q : DBRedisPc} {k : DBResult → Pc}
      {p : Pipeline.State (Thread ι ω)} (hc : calling O w.core θ = some (fr, q, k))
      (hp : Pipeline.next (w.pipe θ.obj) (.send θ (Resp.Command.words q.command)) = some p) :
      Steps O w (.ask θ) (w.setPipe θ.obj p)
  | net {i : ι} {l : Pipeline.Label (Thread ι ω)} {p : Pipeline.State (Thread ι ω)}
      (hl : ∀ θ, l ≠ .get θ ∧ ∀ cmd, l ≠ .send θ cmd) (hs : ∀ cmd r, l ≠ .serve cmd r)
      (hp : Pipeline.next (w.pipe i) l = some p) : Steps O w (.net i l) (w.setPipe i p)
  | serve {i : ι} {cmd : List Bytes} {p : Pipeline.State (Thread ι ω)}
      (hp : Pipeline.next (w.pipe i) (.serve cmd (wire (answer w i cmd).reply)) = some p) :
      Steps O w (.serve i cmd)
        ((w.setPipe i p).setCore (w.core.setConn i (answer w i cmd).db (answer w i cmd).store))
  | answer {θ : Thread ι ω} {fr : Frame (dbRedis databases)} {q : DBRedisPc} {k : DBResult → Pc} {c : Pipeline.Call}
      {r : Resp.Reply} {p : Pipeline.State (Thread ι ω)} (hc : calling O w.core θ = some (fr, q, k))
      (hcall : (w.pipe θ.obj).calls θ = some c) (hr : (w.pipe θ.obj).promises c.number = some r)
      (hp : Pipeline.next (w.pipe θ.obj) (.get θ) = some p) :
      Steps O w (.answer θ) ((w.setPipe θ.obj p).setCore (resume O w.core θ (after fr q k r)))

section Core

variable {s s' : Cluster.State (dbRedis databases) ι π ω}

theorem tick_cases {t : ℤ} (h : Cluster.next O s (.tick t) = some s') : s.now ≤ t ∧ s' = { s with now := t } := by
  obtain ⟨_, ⟨⟩, hle, rfl⟩ | ⟨_, _, ⟨⟩, _⟩ | ⟨_, _, ⟨⟩, _⟩ | ⟨_, _, ⟨⟩, _⟩ := Cluster.next_cases h
  exact ⟨hle, rfl⟩

theorem call_cases {i : ι} {c : Call} (h : Cluster.next O s (.call i c) = some s') :
    s.thr (.caller i) = none ∧ s' = s.enter i c := by
  obtain ⟨_, ⟨⟩, _⟩ | ⟨_, _, ⟨⟩, hnone, rfl⟩ | ⟨_, _, ⟨⟩, _⟩ | ⟨_, _, ⟨⟩, _⟩ := Cluster.next_cases h
  exact ⟨hnone, rfl⟩

theorem keep_cases {i : ι} {wk : ω} (h : Cluster.next O s (.keep i wk) = some s') :
    s.thr (.worker i wk) = none ∧ s' = s.goto (.worker i wk) .keepLock none := by
  obtain ⟨_, ⟨⟩, _⟩ | ⟨_, _, ⟨⟩, _⟩ | ⟨_, _, ⟨⟩, hnone, rfl⟩ | ⟨_, _, ⟨⟩, _⟩ := Cluster.next_cases h
  exact ⟨hnone, rfl⟩

end Core

theorem net_eq {i : ι} {l : Pipeline.Label (Thread ι ω)} (hl : ∀ θ, l ≠ .get θ ∧ ∀ cmd, l ≠ .send θ cmd)
    (hs : ∀ cmd r, l ≠ .serve cmd r) : net w i l = (Pipeline.next (w.pipe i) l).map (w.setPipe i) := by
  unfold net
  split
  · exact absurd rfl ((hl _).2 _)
  · exact absurd rfl (hl _).1
  · exact absurd rfl (hs _ _)
  · rfl

theorem net_cases {i : ι} {l : Pipeline.Label (Thread ι ω)} (h : net w i l = some w') : Steps O w (.net i l) w' := by
  unfold net at h
  split at h
  · cases h
  · cases h
  · cases h
  · rename_i hsend hget hserve
    obtain ⟨p, hp, rfl⟩ := Option.map_eq_some_iff.mp h
    exact .net (fun θ => ⟨hget θ, fun cmd => hsend θ cmd⟩) (fun cmd r => hserve cmd r) hp

/-- **Inversion of a step.** -/
theorem next_cases (h : next O w l = some w') : Steps O w l w' := by
  cases l with
  | tick t =>
    obtain ⟨core, hcore, rfl⟩ := Option.map_eq_some_iff.mp h
    exact .tick hcore
  | call i c =>
    obtain ⟨core, hcore, rfl⟩ := Option.map_eq_some_iff.mp h
    exact .call hcore
  | keep i wk =>
    obtain ⟨core, hcore, rfl⟩ := Option.map_eq_some_iff.mp h
    exact .keep hcore
  | act θ inp =>
    simp only [next, act] at h
    split at h
    · cases h
    · rename_i hinp
      split at h
      · rename_i hidle
        obtain ⟨core, hcore, rfl⟩ := Option.map_eq_some_iff.mp h
        exact .act (fun f => hinp f) hidle hcore
      · cases h
  | ask θ =>
    simp only [next, ask] at h
    split at h
    · cases h
    · rename_i hc
      obtain ⟨p, hp, rfl⟩ := Option.map_eq_some_iff.mp h
      exact .ask hc hp
  | net i l => exact net_cases h
  | serve i cmd =>
    obtain ⟨p, hp, rfl⟩ := Option.map_eq_some_iff.mp h
    exact .serve hp
  | answer θ =>
    simp only [next, take] at h
    split at h
    · rename_i hc hcall
      split at h
      · cases h
      · rename_i hr
        obtain ⟨p, hp, rfl⟩ := Option.map_eq_some_iff.mp h
        exact .answer hc hcall hr hp
    · cases h

end Inversion

end DistributedLock.Wired
