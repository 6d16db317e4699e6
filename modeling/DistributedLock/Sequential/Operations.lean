import DistributedLock.Sequential.Defs
import DistributedLock.Redis.Steps

/-!
# The operations of one call, whatever the world does

* `Misses`: the next command is a `GET` of a key that is gone; then, and only then, the next step raises
  (`raises_iff`);
* `call_returns`: if no `GET` misses its key, an operation on the key returns, in the database it started in;
* `select_returns`: a `SelectDB` of a valid index succeeds.
-/

set_option linter.unusedSectionVars false

namespace DistributedLock.Sequential

open Lib Redis DMutex

variable {cfg : Cfg} {databases : ℕ} {E : Env} {s s' s₀ : State} {op : DBOp} {k : DBResult → Pc} {i : Instr}

/-! ## Steps -/

theorem ended_of_call (h : code cfg s.fields s.pc = .call op k) : s.pc.ended = false := by
  cases hpc : s.pc with
  | failed c => rw [hpc] at h; cases c <;> cases h
  | done res => rw [hpc] at h; cases h
  | kept res => rw [hpc] at h; cases h
  | _ => rfl

theorem step_more {q : DBRedisPc} (hc : code cfg s.fields s.pc = .call op k)
    (hr : (s.send databases E op).resp = .more q) :
    s.step cfg databases E = some (s.sent databases E op s.pc (some q) s.log) := by
  rw [step_eq_some, next_of_code (ended_of_call hc) hc]
  simp only [State.exec, State.command, hr]

theorem step_done {r : DBResult} (hc : code cfg s.fields s.pc = .call op k)
    (hr : (s.send databases E op).resp = .done r) :
    s.step cfg databases E = some (s.sent databases E op (k r) none (s.log ++ [s.returning E op r])) := by
  rw [step_eq_some, next_of_code (ended_of_call hc) hc]
  simp only [State.exec, State.command, hr]

/-- The step at the program point `q`, in what the world makes of the state. -/
def State.answer (s : State) (databases : ℕ) (E : Env) (q : DBRedisPc) : Outcome DBRedisPc :=
  answered databases q (E.world s.cmds s.now s.srv).1 s.conn (E.world s.cmds s.now s.srv).2

theorem point_of_none (hdb : s.db = none) (op : DBOp) : s.point op = DBRedisPc.start op := by
  rw [State.point, hdb, Option.getD_none]

theorem send_eq {q : DBRedisPc} (hp : s.point op = q) : s.send databases E op = s.answer databases E q := by
  rw [State.send, State.answer, hp]

/-- The state after the last command of the operation. -/
def State.returned (s : State) (E : Env) (op : DBOp) (k : DBResult → Pc) (r : DBResult) (srv : Store) : State :=
  { s with
    now := (E.world s.cmds s.now s.srv).1
    srv := srv
    pc := k r
    db := none
    cmds := s.cmds + 1
    log := s.log ++ [s.returning E op r] }

theorem step_waits (databases : ℕ) {q q' : DBRedisPc} (hc : code cfg s.fields s.pc = .call op k) (hp : s.point op = q)
    (h : s.answer databases E q = ⟨.more q', s.conn, (E.world s.cmds s.now s.srv).2⟩) :
    s.step cfg databases E = some { s with
      now := (E.world s.cmds s.now s.srv).1
      srv := (E.world s.cmds s.now s.srv).2
      db := some q'
      cmds := s.cmds + 1 } := by
  have hsend : s.send databases E op = ⟨.more q', s.conn, (E.world s.cmds s.now s.srv).2⟩ := (send_eq hp).trans h
  rw [step_more hc (by rw [hsend])]
  simp only [State.sent, hsend]

theorem step_returns (databases : ℕ) {q : DBRedisPc} {r : DBResult} {srv : Store}
    (hc : code cfg s.fields s.pc = .call op k) (hp : s.point op = q)
    (h : s.answer databases E q = ⟨.done r, s.conn, srv⟩) :
    s.step cfg databases E = some (s.returned E op k r srv) := by
  have hsend : s.send databases E op = ⟨.done r, s.conn, srv⟩ := (send_eq hp).trans h
  rw [step_done hc (by rw [hsend])]
  simp only [State.sent, State.returned, hsend]

theorem step_call_cases (hc : code cfg s.fields s.pc = .call op k) (h : s.step cfg databases E = some s') :
    (∃ q, (s.send databases E op).resp = .more q ∧ s' = s.sent databases E op s.pc (some q) s.log) ∨
    ∃ r, (s.send databases E op).resp = .done r ∧
      s' = s.sent databases E op (k r) none (s.log ++ [s.returning E op r]) := by
  rw [step_eq_some, next_of_code (ended_of_call hc) hc] at h
  simp only [State.exec, State.command] at h
  cases hr : (s.send databases E op).resp with
  | more q =>
    rw [hr] at h
    cases h
    exact .inl ⟨q, rfl, rfl⟩
  | done r =>
    rw [hr] at h
    cases h
    exact .inr ⟨r, rfl, rfl⟩
  | raise what =>
    rw [hr] at h
    cases h

/-- A step is one command of a call, or leaves the server, the connection and the log alone. -/
theorem step_cases (h : s.step cfg databases E = some s') :
    (∃ op k, code cfg s.fields s.pc = .call op k) ∨
    (s'.now = s.now ∧ s'.srv = s.srv ∧ s'.conn = s.conn ∧ s'.log = s.log ∧ s'.db = none) := by
  rw [step_eq_some] at h
  unfold State.next at h
  split at h
  · cases h
  cases hc : code cfg s.fields s.pc with
  | call op k => exact .inl ⟨op, k, rfl⟩
  | lock pc =>
    rw [hc, State.exec] at h
    split at h
    · cases h
    · cases h
      exact .inr ⟨rfl, rfl, rfl, rfl, rfl⟩
  | tau f pc => rw [hc] at h; cases h; exact .inr ⟨rfl, rfl, rfl, rfl, rfl⟩
  | unlock pc => rw [hc] at h; cases h; exact .inr ⟨rfl, rfl, rfl, rfl, rfl⟩
  | clock k => rw [hc] at h; cases h; exact .inr ⟨rfl, rfl, rfl, rfl, rfl⟩
  | shuffle k => rw [hc] at h; cases h; exact .inr ⟨rfl, rfl, rfl, rfl, rfl⟩
  | pushEvent f period pc => rw [hc] at h; cases h; exact .inr ⟨rfl, rfl, rfl, rfl, rfl⟩
  | ret res => rw [hc] at h; cases h
  | throw => rw [hc] at h; cases h

theorem step_tau {f : Fields} {pc : Pc} (hend : s.pc.ended = false) (hc : code cfg s.fields s.pc = .tau f pc) :
    s.step cfg databases E = some { s with fields := f, pc := pc, db := none } := by
  rw [step_eq_some, next_of_code hend hc]
  rfl

theorem step_unlock {pc : Pc} (hend : s.pc.ended = false) (hc : code cfg s.fields s.pc = .unlock pc) :
    s.step cfg databases E = some { s with pc := pc, db := none } := by
  rw [step_eq_some, next_of_code hend hc]
  rfl

theorem step_lock {pc : Pc} (hend : s.pc.ended = false) (hc : code cfg s.fields s.pc = .lock pc)
    (hown : s.pc.owned = false) : s.step cfg databases E = some { s with pc := pc, db := none } := by
  rw [step_eq_some, next_of_code hend hc]
  simp [State.exec, hown]

theorem step_clock {k : ℤ → Pc} (hend : s.pc.ended = false) (hc : code cfg s.fields s.pc = .clock k) :
    s.step cfg databases E = some { s with pc := k (E.clk s.clks), db := none, clks := s.clks + 1 } := by
  rw [step_eq_some, next_of_code hend hc]
  rfl

theorem step_shuffle {k : List ℤ → Pc} (hend : s.pc.ended = false) (hc : code cfg s.fields s.pc = .shuffle k) :
    s.step cfg databases E = some { s with pc := k E.shuffle, db := none } := by
  rw [step_eq_some, next_of_code hend hc]
  rfl

theorem step_pushEvent {f : Fields} {period : ℤ} {pc : Pc} (hend : s.pc.ended = false)
    (hc : code cfg s.fields s.pc = .pushEvent f period pc) :
    s.step cfg databases E = some { s with fields := f, pc := pc, db := none } := by
  rw [step_eq_some, next_of_code hend hc]
  rfl

theorem step_of_ended (hend : s.pc.ended = true) : s.step cfg databases E = none := by
  simp [State.step, State.next, hend]

/-! ## Which steps raise -/

/-- The next command is a `GET` of a key that is gone. -/
def Misses (cfg : Cfg) (E : Env) (s : State) : Prop :=
  ∃ op k, code cfg s.fields s.pc = .call op k ∧
    (s.point op).Misses (E.world s.cmds s.now s.srv).1 s.conn (E.world s.cmds s.now s.srv).2

/-- **A step raises if and only if its command is a `GET` of a key that is gone.** -/
theorem raises_iff : (∃ what, s.next cfg databases E = .raise what) ↔ Misses cfg E s := by
  constructor
  · rintro ⟨what, h⟩
    unfold State.next at h
    split at h
    · cases h
    cases hc : code cfg s.fields s.pc with
    | call op k =>
      refine ⟨op, k, hc, ?_⟩
      by_contra hmiss
      rw [hc] at h
      simp only [State.exec, State.command] at h
      rcases answered_cases databases hmiss with ⟨q, hr, -⟩ | ⟨r, hr⟩
      · rw [State.send, hr] at h
        cases h
      · rw [State.send, hr] at h
        cases h
    | lock pc =>
      rw [hc] at h
      simp only [State.exec] at h
      split at h <;> cases h
    | tau f pc => rw [hc] at h; cases h
    | unlock pc => rw [hc] at h; cases h
    | clock k => rw [hc] at h; cases h
    | shuffle k => rw [hc] at h; cases h
    | pushEvent f period pc => rw [hc] at h; cases h
    | ret res => rw [hc] at h; cases h
    | throw => rw [hc] at h; cases h
  · rintro ⟨op, k, hc, hmiss⟩
    refine ⟨"Reply is not a string", ?_⟩
    rw [next_of_code (ended_of_call hc) hc]
    simp only [State.exec, State.command, State.send, answered_misses hmiss]

/-- No `GET` of the call misses its key. -/
def Finds (cfg : Cfg) (databases : ℕ) (E : Env) (s₀ : State) : Prop :=
  ∀ s, Runs (State.step cfg databases E) s₀ s → ¬ Misses cfg E s

theorem Finds.of_runs (h : Finds cfg databases E s) (hr : Runs (State.step cfg databases E) s s') :
    Finds cfg databases E s' := fun t ht => h t (hr.trans ht)

/-! ## The operations -/

/-- The `SetKeyValue` of the object. -/
def setOp (cfg : Cfg) : DBOp := .setKeyValue cfg.key cfg.value cfg.lockValidityTime

/-- The `UpdateExpire` of the object. -/
def updateOp (cfg : Cfg) : DBOp := .updateExpire cfg.key cfg.value cfg.lockValidityTime

/-- The `DelKeyValue` of the object. -/
def delOp (cfg : Cfg) : DBOp := .delKeyValue cfg.key cfg.value

/-- **An operation on the key returns.** -/
theorem call_returns (hfind : Finds cfg databases E s) (hc : code cfg s.fields s.pc = .call op k)
    (hin : DBRedisPc.Inside op (s.point op)) (hop : ∀ index, op ≠ .selectDB index) :
    ∃ s' r t, Runs (State.step cfg databases E) s s' ∧ s'.pc = k r ∧ s'.db = none ∧ s'.fields = s.fields ∧
      s'.log = s.log ++ [⟨position s.pc, s.conn, op, r, t⟩] := by
  induction hm : (s.point op).rank using Nat.strong_induction_on generalizing s with
  | _ m ih =>
    have hmiss : ¬ (s.point op).Misses (E.world s.cmds s.now s.srv).1 s.conn (E.world s.cmds s.now s.srv).2 :=
      fun hmiss => hfind s .refl ⟨op, k, hc, hmiss⟩
    have hconn : (s.send databases E op).db = s.conn := (dbRedis_lawful databases).db hin hop
    rcases answered_cases databases hmiss with ⟨q, hr, hlt⟩ | ⟨r, hr⟩
    · -- the next command
      have hstep : s.step cfg databases E = some (s.sent databases E op s.pc (some q) s.log) := step_more hc hr
      have hin' : DBRedisPc.Inside op q := ((dbRedis_lawful databases).more hin hr).1
      obtain ⟨s', r, t, hruns, hpc, hdb, hf, hlog⟩ := ih q.rank (hm ▸ hlt)
        (s := s.sent databases E op s.pc (some q) s.log) (hfind.of_runs (.one hstep)) hc hin' rfl
      refine ⟨s', r, t, .step hstep hruns, hpc, hdb, hf, ?_⟩
      rw [hlog]
      simp only [State.sent, hconn]
    · exact ⟨_, r, _, .one (step_done hc hr), rfl, rfl, rfl, rfl⟩

def Valid (databases : ℕ) (index : ℤ) : Prop := 0 ≤ index ∧ index < databases

instance (databases : ℕ) (index : ℤ) : Decidable (Valid databases index) := inferInstanceAs (Decidable (_ ∧ _))

/-- The thread has gone from the state `s` through a `SelectDB` of `index` that has succeeded. -/
structure Selected (cfg : Cfg) (databases : ℕ) (E : Env) (s s₁ : State) (n : Option ℕ) (index : ℤ) : Prop where
  runs : Runs (State.step cfg databases E) s s₁
  db : s₁.db = none
  fields : s₁.fields = s.fields
  conn : s₁.conn = index
  now : s₁.now = (E.world s.cmds s.now s.srv).1
  srv : s₁.srv = (E.world s.cmds s.now s.srv).2
  clks : s₁.clks = s.clks
  log : ∃ t, s₁.log = s.log ++ [⟨n, s.conn, .selectDB index, .kSelectDBSucceed, t⟩]

/-- **A `SelectDB` of a valid index succeeds.** -/
theorem select_returns (E : Env) {index : ℤ} (hc : code cfg s.fields s.pc = .call (.selectDB index) k)
    (hdb : s.db = none) (hvalid : Valid databases index) :
    ∃ s', s.step cfg databases E = some s' ∧ s'.pc = k .kSelectDBSucceed ∧
      Selected cfg databases E s s' (position s.pc) index := by
  have hsend : s.send databases E (.selectDB index) =
      ⟨.done .kSelectDBSucceed, index, (E.world s.cmds s.now s.srv).2⟩ :=
    (send_eq (point_of_none hdb _)).trans (answered_select hvalid)
  have hstep := step_done hc (congrArg Outcome.resp hsend)
  refine ⟨_, hstep, rfl, .one hstep, rfl, rfl, ?_, rfl, ?_, rfl, _, rfl⟩
  · simp only [State.sent, hsend]
  · simp only [State.sent, hsend]

/-- Steps before a `SelectDB` that only move the thread. -/
theorem Selected.of_goto {s₁ : State} {pc : Pc} {n : Option ℕ} {index : ℤ}
    (hr : Runs (State.step cfg databases E) s { s with pc := pc, db := none })
    (h : Selected cfg databases E { s with pc := pc, db := none } s₁ n index) :
    Selected cfg databases E s s₁ n index :=
  ⟨hr.trans h.runs, h.db, h.fields, h.conn, h.now, h.srv, h.clks, h.log⟩

end DistributedLock.Sequential
