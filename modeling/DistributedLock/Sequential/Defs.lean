import DistributedLock.Lib.Run
import DistributedLock.Client.Defs
import DistributedLock.DMutex.Discipline
import DistributedLock.Redis.Answers

/-!
# One call on one server

One thread executes one call of `MainLockFunction`, `UnlockAll` or `KeepLock` over the Redis client, to its return.
Between its commands the rest of the world acts: before the `k`-th command the clock and the store become what
`Env.world k` makes of them.  Every command is answered as Redis specifies.

* `next` is the step of the thread, `Runs` (of `Lib`) its runs; a reply of another type than the code asks for raises an
  exception, which leaves the call (`Next.raise`);
* `log` are the database operations that have returned, with the database they ran in and the time of their last command;
* every step is one of the system of the object (`client_of_next`).
-/

set_option linter.unusedSectionVars false

namespace DistributedLock.Sequential

open Lib Redis DMutex

/-- What comes from outside: the world between the commands, the readings of the system clock, the shuffle. -/
structure Env where
  world : ℕ → ℤ → Store → ℤ × Store
  clk : ℕ → ℤ
  shuffle : List ℤ

def Env.still (shuffle : List ℤ) : Env := ⟨fun _ now srv => (now, srv), fun _ => 0, shuffle⟩

structure Return where
  /-- The loop position of the caller. -/
  position : Option ℕ
  db : ℤ
  op : DBOp
  res : DBResult
  /-- The time of its last command. -/
  time : ℤ

structure State where
  now : ℤ
  srv : Store
  conn : ℤ
  fields : Fields
  pc : Pc
  db : Option DBRedisPc := none
  cmds : ℕ := 0
  clks : ℕ := 0
  log : List Return := []

inductive Next where
  | on (s : State)
  | raise (what : String)
  | stop

/-- The position in `temp_vec` or `have_lock_num_`. -/
def position : Pc → Option ℕ
  | .mainSelect _ p | .mainSet _ p => some p.lockIndex
  | .keepSelect lockIndex | .keepUpdate lockIndex _ => some lockIndex
  | _ => none

section Step

variable (cfg : Cfg) (databases : ℕ) (E : Env)

namespace State

/-- The program point inside the operation `op` that the thread is calling. -/
def point (s : State) (op : DBOp) : DBRedisPc := s.db.getD (DBRedisPc.start op)

/-- What the server does with the next command of the operation `op`. -/
def send (s : State) (op : DBOp) : Outcome DBRedisPc :=
  answered databases (s.point op) (E.world s.cmds s.now s.srv).1 s.conn (E.world s.cmds s.now s.srv).2

/-- The state after that command, for a thread that goes on at `pc`. -/
def sent (s : State) (op : DBOp) (pc : Pc) (q : Option DBRedisPc) (log : List Return) : State :=
  { s with
    now := (E.world s.cmds s.now s.srv).1
    srv := (s.send databases E op).store
    conn := (s.send databases E op).db
    pc := pc
    db := q
    cmds := s.cmds + 1
    log := log }

/-- The entry of the log for an operation that returns `r` with its next command. -/
def returning (s : State) (op : DBOp) (r : DBResult) : Return :=
  ⟨position s.pc, s.conn, op, r, (E.world s.cmds s.now s.srv).1⟩

/-- The next command of the operation `op`. -/
def command (s : State) (op : DBOp) (k : DBResult → Pc) : Next :=
  match (s.send databases E op).resp with
  | .more q => .on (s.sent databases E op s.pc (some q) s.log)
  | .done r => .on (s.sent databases E op (k r) none (s.log ++ [s.returning E op r]))
  | .raise what => .raise what

/-- The thread executes an instruction; `mtx_` is free whenever the thread does not own it. -/
def exec (s : State) : Instr → Next
  | .tau f pc | .pushEvent f _ pc => .on { s with fields := f, pc := pc, db := none }
  | .lock pc => if s.pc.owned then .stop else .on { s with pc := pc, db := none }
  | .unlock pc => .on { s with pc := pc, db := none }
  | .call op k => s.command databases E op k
  | .clock k => .on { s with pc := k (E.clk s.clks), db := none, clks := s.clks + 1 }
  | .shuffle k => .on { s with pc := k E.shuffle, db := none }
  | .ret _ | .throw => .stop

/-- The thread goes on, until the call has returned. -/
def next (s : State) : Next := if s.pc.ended then .stop else s.exec databases E (code cfg s.fields s.pc)

def step (s : State) : Option State :=
  match s.next cfg databases E with
  | .on s' => some s'
  | _ => none

end State

end Step

variable {cfg : Cfg} {databases : ℕ} {E : Env} {s s' : State}

theorem step_eq_some : s.step cfg databases E = some s' ↔ s.next cfg databases E = .on s' := by
  unfold State.step
  cases s.next cfg databases E <;> simp

theorem next_of_code {i : Instr} (hend : s.pc.ended = false) (hc : code cfg s.fields s.pc = i) :
    s.next cfg databases E = s.exec databases E i := by
  unfold State.next
  rw [hend, hc]
  rfl

/-! ## The system of the object -/

def State.embed (databases : ℕ) (s : State) : Client.State (dbRedis databases) Unit where
  now := s.now
  srv := s.srv
  conn := s.conn
  fields := s.fields
  mtx := if s.pc.owned then some (some ()) else none
  thr _ := some ⟨s.pc, s.db⟩

def Env.Forward (E : Env) : Prop := ∀ k t srv, t ≤ (E.world k t srv).1

def labels (E : Env) (s : State) : Instr → List (Client.Label Unit)
  | .call _ _ =>
    [.world (E.world s.cmds s.now s.srv).1 (E.world s.cmds s.now s.srv).2, .act () (.db .none)]
  | .clock _ => [.act () (.clock (E.clk s.clks))]
  | .shuffle _ => [.act () (.shuffle E.shuffle)]
  | _ => [.act () .none]

theorem client_one {t t' : Client.State (dbRedis databases) Unit} {l : Client.Label Unit}
    (hl : Client.next cfg t l = some t') :
    (Client.system cfg (dbRedis databases) Unit).runWith (fun _ _ => true) t [l] = some t' := by
  simp only [Machine.runWith, Client.system, if_true, hl, Option.bind_some]

/-- The world has acted, and the next command has not arrived yet. -/
def State.arriving (databases : ℕ) (E : Env) (s : State) : Client.State (dbRedis databases) Unit :=
  { s.embed databases with now := (E.world s.cmds s.now s.srv).1, srv := (E.world s.cmds s.now s.srv).2 }

theorem client_of_command {op : DBOp} {k : DBResult → Pc} (hE : E.Forward)
    (hc : code cfg s.fields s.pc = .call op k) (hn : s.command databases E op k = .on s') :
    (Client.system cfg (dbRedis databases) Unit).runWith (fun _ _ => true) (s.embed databases)
      (labels E s (.call op k)) = some (s'.embed databases) := by
  have hk := code_keeps cfg s.fields s.pc
  rw [hc] at hk
  obtain ⟨hown, hafter⟩ := hk
  have hworld : Client.next cfg (s.embed databases)
      (.world (E.world s.cmds s.now s.srv).1 (E.world s.cmds s.now s.srv).2) = some (s.arriving databases E) :=
    if_pos (hE _ _ _)
  have hlast : Client.next cfg (s.arriving databases E) (.act () (.db .none)) = some (s'.embed databases) := by
    simp only [State.command] at hn
    cases hr : (s.send databases E op).resp with
    | more q =>
      rw [hr] at hn
      cases hn
      have hr' : (Client.dbStep (s.arriving databases E) s.db op .none).resp = .more q := hr
      simp only [Client.next, State.arriving, State.embed, Option.bind_some, hc, Client.exec] at hr' ⊢
      simp only [hr', Client.State.goto, Client.afterDb, Client.State.setConn, State.sent]
      congr 2
    | done r =>
      rw [hr] at hn
      cases hn
      have hr' : (Client.dbStep (s.arriving databases E) s.db op .none).resp = .done r := hr
      simp only [Client.next, State.arriving, State.embed, Option.bind_some, hc, Client.exec] at hr' ⊢
      simp only [hr', Client.State.goto, Client.afterDb, Client.State.setConn, State.sent]
      simp only [hown, hafter r]
      congr 2
    | raise what =>
      rw [hr] at hn
      cases hn
  simp only [labels, Machine.runWith, Client.system, if_true, hworld, Option.bind_some, hlast]

/-- **Every step of the thread is one of the system of the object.** -/
theorem client_of_next (hE : E.Forward) (hperm : E.shuffle.Perm cfg.hosts)
    (h : s.step cfg databases E = some s') :
    (Client.system cfg (dbRedis databases) Unit).runWith (fun _ _ => true) (s.embed databases)
      (labels E s (code cfg s.fields s.pc)) = some (s'.embed databases) := by
  have hk := code_keeps cfg s.fields s.pc
  have hn := step_eq_some.mp h
  unfold State.next at hn
  split at hn
  · cases hn
  cases hc : code cfg s.fields s.pc with
  | tau f pc =>
    rw [hc] at hn hk
    cases hn
    have hown : pc.owned = s.pc.owned := hk
    refine client_one ?_
    simp only [Client.next, State.embed, Option.bind_some, hc, Client.exec, hown, Client.State.goto,
      Client.State.setFields]
    congr 2
  | pushEvent f period pc =>
    rw [hc] at hn hk
    cases hn
    refine client_one ?_
    simp only [Client.next, State.embed, Option.bind_some, hc, Client.exec, hk.1, hk.2, Client.State.goto,
      Client.State.setFields]
    congr 2
  | lock pc =>
    rw [hc] at hn hk
    simp only [State.exec] at hn
    split at hn
    · cases hn
    · rename_i hfree
      cases hn
      have hown : pc.owned = true := hk
      refine client_one ?_
      simp only [Client.next, State.embed, Option.bind_some, hc, Client.exec, hfree, hown, if_true, Client.State.goto,
        Client.State.setMtx]
      congr 2
  | unlock pc =>
    rw [hc] at hn hk
    cases hn
    refine client_one ?_
    simp only [Client.next, State.embed, Option.bind_some, hc, Client.exec, hk.2, Client.State.goto,
      Client.State.setMtx]
    congr 2
  | clock k =>
    rw [hc] at hn hk
    cases hn
    have hown : (k (E.clk s.clks)).owned = s.pc.owned := hk _
    refine client_one ?_
    simp only [Client.next, State.embed, Option.bind_some, hc, Client.exec, hown, Client.State.goto]
    congr 2
  | shuffle k =>
    rw [hc] at hn hk
    cases hn
    have hown : (k E.shuffle).owned = s.pc.owned := hk _
    refine client_one ?_
    simp only [Client.next, State.embed, Option.bind_some, hc, Client.exec, hown, hperm, if_true, Client.State.goto]
    congr 2
  | call op k =>
    rw [hc] at hn
    exact client_of_command hE hc hn
  | ret res => rw [hc] at hn; cases hn
  | throw => rw [hc] at hn; cases hn

end DistributedLock.Sequential
