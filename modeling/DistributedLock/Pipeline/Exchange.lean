import DistributedLock.Pipeline.Matching
import Mathlib.Logic.Relation

/-!
# A command over a connection at rest

A connection is at rest when everything that was sent has been answered and every reply taken (`State.rest`).  A command
sent then can be carried through to its reply, after which the connection is at rest again (`request_arrives`,
`reply_arrives`).
-/

set_option linter.unusedSectionVars false

namespace DistributedLock.Pipeline

open Lib Resp
open Relation (ReflTransGen)

variable {τ : Type} [DecidableEq τ]

/-- A step of the client library or of the network in a run without loss. -/
def Onward (s s' : State τ) : Prop :=
  ∃ l, Calm s l ∧ (∀ a, l ≠ .get a ∧ ∀ cmd, l ≠ .send a cmd) ∧ (∀ cmd r, l ≠ .serve cmd r) ∧ next s l = some s'

namespace State

/-- The commands `cmds` have been sent, and answered by `rs`. -/
def rest (cmds : List (List Bytes)) (rs : List Reply) (promises : ℕ → Option Reply) : State τ :=
  { fresh with promises := promises, sent := cmds, served := cmds, answered := rs }

def lone (a : τ) (k : ℕ) (stage : Stage) : τ → Option Call := Function.update (fun _ => none) a (some ⟨k, stage⟩)

theorem lone_self (a : τ) (k : ℕ) (stage : Stage) : lone a k stage a = some ⟨k, stage⟩ := Function.update_self ..

theorem lone_of_ne {a b : τ} (h : b ≠ a) (k : ℕ) (stage : Stage) : lone a k stage b = none := Function.update_of_ne h ..

theorem wake_lone (a : τ) (k : ℕ) : (fun b => (lone a k .waiting b).map Call.wake) = lone a k .waiting := by
  funext b
  by_cases hb : b = a
  · rw [hb, lone_self]
    rfl
  · rw [lone_of_ne hb]
    rfl

variable (cmds : List (List Bytes)) (rs : List Reply) (promises : ℕ → Option Reply) (a : τ) (cmd : List Bytes) (r : Reply)

def asking : State τ :=
  { rest cmds rs promises with
    buffer := buildCommand cmd
    commands := [cmds.length]
    sent := cmds ++ [cmd]
    calls := lone a cmds.length .sent }

def requested : State τ :=
  { rest cmds rs promises with
    commands := [cmds.length]
    sent := cmds ++ [cmd]
    calls := lone a cmds.length .waiting
    arrived := buildCommand cmd }

def replied : State τ :=
  { rest (cmds ++ [cmd]) (rs ++ [r]) promises with
    commands := [cmds.length]
    calls := lone a cmds.length .waiting
    toClient := r.encode }

/-- `sync_commit` has returned. -/
def obtained : State τ :=
  { rest (cmds ++ [cmd]) (rs ++ [r]) (Function.update promises cmds.length (some r)) with
    calls := lone a cmds.length .synced }

theorem send_rest : next (rest cmds rs promises) (.send a cmd) = some (asking cmds rs promises a cmd) := rfl

theorem serve_requested :
    next (requested cmds rs promises a cmd) (.serve cmd r) = some (replied cmds rs promises a cmd r) := by
  have hfront : (buildCommand cmd).isPrefixOf (buildCommand cmd) = true := by simp
  simp only [next, serve, requested, hfront, if_true, List.drop_length]
  rfl

theorem get_obtained : next (obtained cmds rs promises a cmd r) (.get a) =
    some (rest (cmds ++ [cmd]) (rs ++ [r]) (Function.update promises cmds.length (some r))) := by
  simp [next, get, obtained, setCall, lone, rest, fresh]

theorem request_arrives : ReflTransGen Onward (asking cmds rs promises a cmd) (requested cmds rs promises a cmd) := by
  have hpos : 0 < (buildCommand cmd).length := List.length_pos_iff.mpr (prefixCode_buildCommand.ne_nil cmd)
  refine .head (b := { asking cmds rs promises a cmd with calls := lone a cmds.length .committing })
    ⟨.sync a, ⟨trivial, by simp⟩, by simp, by simp, ?_⟩ ?_
  · simp [next, sync, asking, setCall, rest, fresh, Io.reconnecting, lone]
  refine .head (b := { requested cmds rs promises a cmd with arrived := [], writes := [buildCommand cmd] })
    ⟨.commit a, ⟨trivial, by simp⟩, by simp, by simp, ?_⟩ ?_
  · simp [next, commit, asking, requested, setCall, rest, fresh, Io.connected, lone]
  refine .head (b := { requested cmds rs promises a cmd with arrived := [], toServer := buildCommand cmd })
    ⟨.write (buildCommand cmd).length, ⟨?_, by simp⟩, by simp, by simp, ?_⟩ ?_
  · simp [Good]
  · simp [next, write, requested, rest, fresh, Io.connected]
  refine .single ⟨.arrive (buildCommand cmd).length, ⟨trivial, by simp⟩, by simp, by simp, ?_⟩
  simp [next, arrive, requested, rest, fresh, hpos]

theorem reply_arrives (hfit : r.Fits) :
    ReflTransGen Onward (replied cmds rs promises a cmd r) (obtained cmds rs promises a cmd r) := by
  have hpos : 0 < r.encode.length := by cases r <;> simp [Reply.encode]
  have hfeed : ReplyBuilder.feed ReplyBuilder.fresh r.encode = ⟨⟨none, [r]⟩, [], none⟩ := ReplyBuilder.feed_encode hfit []
  -- the worker reads the reply
  refine .head (b := { replied cmds rs promises a cmd r with
      toClient := [], builder := ⟨⟨none, [r]⟩, [], none⟩, io := .delivering })
    ⟨.receive r.encode.length, ⟨trivial, by simp⟩, by simp, by simp, ?_⟩ ?_
  · simp [next, receive, replied, rest, fresh, hpos, hfeed]
  refine .head (b := { replied cmds rs promises a cmd r with
      toClient := [], commands := [], callbacksRunning := 1, io := .calling (some cmds.length) r })
    ⟨.pop, ⟨trivial, by simp⟩, by simp, by simp, ?_⟩ ?_
  · simp [next, pop, replied, rest, fresh]
    rfl
  -- the promise is kept
  refine .head (b := { obtained cmds rs promises a cmd r with
      calls := lone a cmds.length .waiting, callbacksRunning := 1, io := .called })
    ⟨.callback, ⟨trivial, by simp⟩, by simp, by simp, ?_⟩ ?_
  · simp [next, callback, replied, obtained, rest, fresh]
  refine .head (b := { obtained cmds rs promises a cmd r with calls := lone a cmds.length .waiting, io := .delivering })
    ⟨.finish, ⟨trivial, by simp⟩, by simp, by simp, ?_⟩ ?_
  · simp [next, finish, obtained, rest, fresh, notifyAll, wake_lone]
  refine .head (b := { obtained cmds rs promises a cmd r with calls := lone a cmds.length .waiting })
    ⟨.pop, ⟨trivial, by simp⟩, by simp, by simp, ?_⟩ ?_
  · simp [next, pop, obtained, rest, fresh, ReplyBuilder.fresh]
  -- the thread finds the condition true
  refine .single ⟨.check a, ⟨trivial, by simp⟩, by simp, by simp, ?_⟩
  simp [next, check, obtained, rest, fresh, Synced, setCall, lone]

end State

end DistributedLock.Pipeline
