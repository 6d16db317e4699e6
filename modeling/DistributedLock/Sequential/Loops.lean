import DistributedLock.Sequential.Operations

/-!
# The loops, round by round

How a thread gets from one round of the loops of `MainLockFunction`, `UnlockAll` and `KeepLock` to its call of the
database operation, and from its return to the next round.  What the operation does in between depends on the world.
-/

set_option linter.unusedSectionVars false

namespace DistributedLock.Sequential

open Lib Redis DMutex

variable {cfg : Cfg} {databases : ℕ} {E : Env} {s : State} {i : ℕ} {r : DBResult}

/-! ## `MainLockFunction` -/

section Main

variable {c : Caller} {start : ℕ} {vec : List ℤ}

/-- The pass over `vec` is at the position `i`, and `lck` does not own `mtx_`. -/
abbrev passAt (start : ℕ) (vec : List ℤ) (i : ℕ) : Pass := ⟨start, vec, i, false⟩

theorem main_selects (cfg : Cfg) (E : Env) (hpc : s.pc = .mainTest c (passAt start vec i)) (hi : i < vec.length)
    (hvalid : Valid databases (passAt start vec i).host) :
    ∃ s₁, code cfg s₁.fields s₁.pc = .call (setOp cfg) (fun r => .mainUnlock c (passAt start vec i) r) ∧
      position s₁.pc = some i ∧ Selected cfg databases E s s₁ (some i) (passAt start vec i).host := by
  have htest : code cfg s.fields s.pc = .tau s.fields (.mainLock c (passAt start vec i)) := by
    rw [hpc]
    exact if_pos hi
  have hruns : Runs (State.step cfg databases E) s
      { s with pc := .mainSelect c (passAt start vec i), db := none } := by
    refine .step (step_tau (by rw [hpc]; rfl) htest) (.one ?_)
    exact step_lock rfl rfl rfl
  obtain ⟨s₁, -, hpc₁, hsel⟩ :=
    select_returns E (s := { s with pc := .mainSelect c (passAt start vec i), db := none }) rfl rfl hvalid
  refine ⟨s₁, ?_, ?_, hsel.of_goto hruns⟩
  · rw [hpc₁]
    rfl
  · rw [hpc₁]
    rfl

theorem main_goes_on {f : Fields} (hpc : s.pc = .mainUnlock c (passAt start vec i) r)
    (hr : mainResult c (passAt start vec i) r s.fields = .tau f (.mainTest c (passAt start vec (i + 1)))) :
    Runs (State.step cfg databases E) s
      { s with fields := f, pc := .mainTest c (passAt start vec (i + 1)), db := none } := by
  have hunlock : code cfg s.fields s.pc = .unlock (.mainResult c (passAt start vec i) r) := by
    rw [hpc]
    rfl
  refine .step (step_unlock (by rw [hpc]; rfl) hunlock) (.one ?_)
  exact step_tau rfl hr

end Main

/-! ## `UnlockAll` -/

section Unlock

variable {c : Option Caller} {host : ℤ} {rest : List ℤ} {m : ℕ}

/-- A thread that enters `UnlockAll`, from `unlock` or from the rollback of `MainLockFunction`. -/
def State.unlocking (now : ℤ) (srv : Store) (conn : ℤ) (f : Fields) (c : Option Caller) : State :=
  { now, srv, conn, fields := f, pc := .unlockLock c false }

theorem unlock_enters (hpc : s.pc = .unlockLock c false) :
    Runs (State.step cfg databases E) s
      { s with
        fields := { s.fields with lockContinue := false, lockStatus := false }
        pc := .unlockSelect c cfg.hosts 0
        db := none } := by
  have hlock : code cfg s.fields s.pc = .lock (.unlockFlags c) := by
    rw [hpc]
    rfl
  refine .step (step_lock (by rw [hpc]; rfl) hlock (by rw [hpc]; rfl)) (.one ?_)
  exact step_tau rfl rfl

theorem unlock_selects (cfg : Cfg) (E : Env) (hpc : s.pc = .unlockSelect c (host :: rest) m) (hdb : s.db = none)
    (hvalid : Valid databases host) :
    ∃ s₁, code cfg s₁.fields s₁.pc = .call (delOp cfg) (fun r =>
        .unlockSelect c rest (if r = .kDelKeySucceed then m + 1 else m)) ∧
      Selected cfg databases E s s₁ none host := by
  have hselect : code cfg s.fields s.pc = .call (.selectDB host) fun r =>
      if r = .kSelectDBSucceed then .unlockDel c host rest m else .unlockSelect c rest m := by
    rw [hpc]
    rfl
  obtain ⟨s₁, -, hpc₁, hsel⟩ := select_returns E hselect hdb hvalid
  rw [hpc] at hsel
  refine ⟨s₁, ?_, hsel⟩
  rw [hpc₁]
  rfl

theorem unlock_leaves (hpc : s.pc = .unlockSelect c [] m) :
    s.step cfg databases E =
      some { s with pc := afterUnlockAll (m = s.fields.haveLockNum.length) c, db := none } := by
  have hcode : code cfg s.fields s.pc = .unlock (afterUnlockAll (m = s.fields.haveLockNum.length) c) := by
    rw [hpc]
    rfl
  exact step_unlock (by rw [hpc]; rfl) hcode

end Unlock

/-! ## `KeepLock` -/

/-- A worker that enters `KeepLock`. -/
def State.keeping (now : ℤ) (srv : Store) (conn : ℤ) (f : Fields) : State :=
  { now, srv, conn, fields := f, pc := .keepLock }

theorem keep_enters (cfg : Cfg) (databases : ℕ) (E : Env) (now : ℤ) (srv : Store) (conn : ℤ) {f : Fields}
    (hcontinue : f.lockContinue = true) (hstatus : f.lockStatus = true) :
    Runs (State.step cfg databases E) (.keeping now srv conn f)
      { State.keeping now srv conn f with pc := .keepTest false 0 } := by
  have hcheck : keepCheck f = .unlock (.keepTest false 0) := by
    simp [keepCheck, hcontinue, hstatus]
  exact .step (step_lock rfl rfl rfl) (.one (step_unlock rfl hcheck))

theorem keepSelect_code {f : Fields} (hi : i < f.haveLockNum.length) :
    code cfg f (.keepSelect i) = .call (.selectDB f.haveLockNum[i]) fun r =>
      if r = .kSelectDBSucceed then .keepUpdate i f.haveLockNum[i] else .keepTest true (i + 1) := by
  simp only [code, List.getElem?_eq_getElem hi]

theorem keep_selects (cfg : Cfg) (E : Env) (hpc : s.pc = .keepTest false i) (hi : i < s.fields.haveLockNum.length)
    (hvalid : Valid databases s.fields.haveLockNum[i]) :
    ∃ s₁, code cfg s₁.fields s₁.pc = .call (updateOp cfg) (fun r => .keepUnlock i r) ∧ position s₁.pc = some i ∧
      Selected cfg databases E s s₁ (some i) s.fields.haveLockNum[i] := by
  have htest : code cfg s.fields s.pc = .tau s.fields (.keepRelock false i) := by
    rw [hpc]
    exact if_pos hi
  have hruns : Runs (State.step cfg databases E) s { s with pc := .keepSelect i, db := none } := by
    refine .step (step_tau (by rw [hpc]; rfl) htest) (.one ?_)
    exact step_lock rfl rfl rfl
  obtain ⟨s₁, -, hpc₁, hsel⟩ :=
    select_returns E (s := { s with pc := .keepSelect i, db := none }) (keepSelect_code hi) rfl hvalid
  refine ⟨s₁, ?_, ?_, hsel.of_goto hruns⟩
  · rw [hpc₁]
    rfl
  · rw [hpc₁]
    rfl

/-- From the return of `UpdateExpire` to the next round, at the next position only after a renewal. -/
theorem keep_goes_on (hpc : s.pc = .keepUnlock i r) :
    s.step cfg databases E = some { s with
      pc := .keepTest false (if r = .kUpdateKeySucceed then i + 1 else i), db := none } := by
  have hunlock : code cfg s.fields s.pc =
      .unlock (.keepTest false (if r = .kUpdateKeySucceed then i + 1 else i)) := by
    rw [hpc]
    rfl
  exact step_unlock (by rw [hpc]; rfl) hunlock

theorem keep_leaves (hpc : s.pc = .keepTest false i) (hi : s.fields.haveLockNum.length ≤ i) :
    s.step cfg databases E = some { s with pc := .kept true, db := none } := by
  have htest : code cfg s.fields s.pc = .tau s.fields (.kept true) := by
    rw [hpc]
    exact if_neg (by omega)
  exact step_tau (by rw [hpc]; rfl) htest

end DistributedLock.Sequential
