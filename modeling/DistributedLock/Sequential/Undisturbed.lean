import DistributedLock.Sequential.Loops

/-!
# The operations of an undisturbed call

A call is undisturbed if, whenever the world acts during it, no command could tell the difference: no other client
changes a live entry, and no entry expires.  Then every operation is determined by what the databases show (`view`)
when it starts, and so is what they show when it returns (`Returned`).
-/

set_option linter.unusedSectionVars false

namespace DistributedLock.Redis

/-- The entries that are not dead at the time `now`. -/
def Store.alive (s : Store) (now : ℤ) : Store := fun d k => s.live now d k

theorem Store.alive_put {s : Store} {now db : ℤ} {key : String} {x : Option Entry}
    (hx : ∀ e, x = some e → now ≤ e.expireAt) : (s.put db key x).alive now = (s.alive now).put db key x := by
  funext d k
  by_cases h : d = db ∧ k = key
  · obtain ⟨rfl, rfl⟩ := h
    cases x with
    | none => simp [Store.alive, Store.put]
    | some e => simp [Store.alive, Store.put, Option.filter, hx e rfl]
  · rw [Store.alive, Store.live_put_of_ne x h, Store.put, if_neg h, Store.alive]

end DistributedLock.Redis

namespace DistributedLock.Sequential

open Lib Redis DMutex

variable {cfg : Cfg} {databases : ℕ} {E : Env} {s s' s₀ : State} {op : DBOp} {k : DBResult → Pc} {q q' : DBRedisPc}
  {r : DBResult} {v : Store}

def State.view (s : State) : Store := s.srv.alive s.now

/-- Nothing that the world does during the call can be seen. -/
def Undisturbed (cfg : Cfg) (databases : ℕ) (E : Env) (s₀ : State) : Prop :=
  ∀ s, Runs (State.step cfg databases E) s₀ s →
    (E.world s.cmds s.now s.srv).2.alive (E.world s.cmds s.now s.srv).1 = s.view

theorem Undisturbed.of_runs (h : Undisturbed cfg databases E s) (hr : Runs (State.step cfg databases E) s s') :
    Undisturbed cfg databases E s' := fun t ht => h t (hr.trans ht)

theorem still_undisturbed (shuffle : List ℤ) (s₀ : State) : Undisturbed cfg databases (.still shuffle) s₀ :=
  fun _ _ => rfl

theorem Undisturbed.live (h : Undisturbed cfg databases E s) (d : ℤ) (key : String) :
    (E.world s.cmds s.now s.srv).2.live (E.world s.cmds s.now s.srv).1 d key = s.view d key :=
  congrFun (congrFun (h s .refl) d) key

/-- A call of the operation `op` from the state `s` has returned `r` in the state `s'`, where the databases show
`v`. -/
structure Returned (cfg : Cfg) (databases : ℕ) (E : Env) (s s' : State) (op : DBOp) (r : DBResult) (v : Store) :
    Prop where
  runs : Runs (State.step cfg databases E) s s'
  db : s'.db = none
  fields : s'.fields = s.fields
  conn : s'.conn = s.conn
  clks : s'.clks = s.clks
  log : s'.log = s.log ++ [⟨position s.pc, s.conn, op, r, s'.now⟩]
  view : s'.view = v

/-! ## One command -/

theorem returns_now (databases : ℕ) {srv : Store} (hc : code cfg s.fields s.pc = .call op k) (hp : s.point op = q)
    (h : s.answer databases E q = ⟨.done r, s.conn, srv⟩) :
    Returned cfg databases E s (s.returned E op k r srv) op r (srv.alive (E.world s.cmds s.now s.srv).1) :=
  ⟨.one (step_returns databases hc hp h), rfl, rfl, rfl, rfl, rfl, rfl⟩

theorem returns_same (hu : Undisturbed cfg databases E s) (hc : code cfg s.fields s.pc = .call op k)
    (hp : s.point op = q) (h : s.answer databases E q = ⟨.done r, s.conn, (E.world s.cmds s.now s.srv).2⟩) :
    ∃ s', s'.pc = k r ∧ Returned cfg databases E s s' op r s.view := by
  have hret := returns_now databases hc hp h
  rw [hu s .refl] at hret
  exact ⟨_, rfl, hret⟩

theorem returns_after {v : State → Store} (hu : Undisturbed cfg databases E s)
    (hc : code cfg s.fields s.pc = .call op k) (hp : s.point op = q)
    (h : s.answer databases E q = ⟨.more q', s.conn, (E.world s.cmds s.now s.srv).2⟩)
    (hrest : ∀ s₁, Undisturbed cfg databases E s₁ → code cfg s₁.fields s₁.pc = .call op k → s₁.point op = q' →
      s₁.conn = s.conn → s₁.view = s.view → ∃ s', s'.pc = k r ∧ Returned cfg databases E s₁ s' op r (v s')) :
    ∃ s', s'.pc = k r ∧ Returned cfg databases E s s' op r (v s') := by
  have hstep := step_waits databases hc hp h
  obtain ⟨s', hpc, hret⟩ := hrest _ (hu.of_runs (.one hstep)) hc rfl rfl (hu s .refl)
  exact ⟨s', hpc, .step hstep hret.runs, hret.db, hret.fields, hret.conn, hret.clks, hret.log, hret.view⟩

/-! ## `SetKeyValue` -/

/-- The entry of the object with a lifetime that starts at the time of the state. -/
def State.fresh (s : State) (cfg : Cfg) : Entry := ⟨cfg.value, s.now + i32 cfg.lockValidityTime⟩

theorem alive_put_fresh {srv : Store} {now conn : ℤ} (hpx : 0 < i32 cfg.lockValidityTime) :
    (srv.put conn cfg.key (some ⟨cfg.value, now + i32 cfg.lockValidityTime⟩)).alive now =
      (srv.alive now).put conn cfg.key (some ⟨cfg.value, now + i32 cfg.lockValidityTime⟩) := by
  refine Store.alive_put ?_
  rintro _ ⟨⟩
  show now ≤ now + i32 cfg.lockValidityTime
  omega

theorem set_absent (hu : Undisturbed cfg databases E s) (hpx : 0 < i32 cfg.lockValidityTime)
    (hc : code cfg s.fields s.pc = .call op k) (hp : s.point op = .set cfg.key cfg.value cfg.lockValidityTime)
    (h : s.view s.conn cfg.key = none) :
    ∃ s', s'.pc = k .kSetKeySucceed ∧
      Returned cfg databases E s s' op .kSetKeySucceed (s.view.put s.conn cfg.key (some (s'.fresh cfg))) := by
  have hret := returns_now databases hc hp (answered_set_none hpx ((hu.live _ _).trans h))
  rw [alive_put_fresh hpx, hu s .refl] at hret
  exact ⟨_, rfl, hret⟩

theorem set_present {e : Entry} (hu : Undisturbed cfg databases E s) (hpx : 0 < i32 cfg.lockValidityTime)
    (hc : code cfg s.fields s.pc = .call op k) (hp : s.point op = .set cfg.key cfg.value cfg.lockValidityTime)
    (h : s.view s.conn cfg.key = some e) :
    ∃ s', s'.pc = k .kKeyExist ∧ Returned cfg databases E s s' op .kKeyExist s.view :=
  returns_same hu hc hp (answered_set_some hpx ((hu.live _ _).trans h))

/-! ## `UpdateExpire` -/

/-- `UpdateExpire` of a key that is not there sets it, and reports another success than that of a renewal. -/
theorem update_absent (hu : Undisturbed cfg databases E s) (hpx : 0 < i32 cfg.lockValidityTime)
    (hc : code cfg s.fields s.pc = .call (updateOp cfg) k) (hdb : s.db = none) (h : s.view s.conn cfg.key = none) :
    ∃ s', s'.pc = k .kSetKeySucceed ∧ Returned cfg databases E s s' (updateOp cfg) .kSetKeySucceed
      (s.view.put s.conn cfg.key (some (s'.fresh cfg))) := by
  refine returns_after hu hc (point_of_none hdb _) (answered_updateExists_none ((hu.live _ _).trans h)) ?_
  intro s₁ hu₁ hc₁ hp₁ hconn₁ hview₁
  rw [← hview₁, ← hconn₁] at h ⊢
  exact set_absent hu₁ hpx hc₁ hp₁ h

theorem update_own {e : Entry} (hu : Undisturbed cfg databases E s) (hpx : 0 < i32 cfg.lockValidityTime)
    (hc : code cfg s.fields s.pc = .call (updateOp cfg) k) (hdb : s.db = none)
    (h : s.view s.conn cfg.key = some e) (hv : e.value = cfg.value) :
    ∃ s', s'.pc = k .kUpdateKeySucceed ∧ Returned cfg databases E s s' (updateOp cfg) .kUpdateKeySucceed
      (s.view.put s.conn cfg.key (some (s'.fresh cfg))) := by
  refine returns_after hu hc (point_of_none hdb _) (answered_updateExists_some ((hu.live _ _).trans h)) ?_
  intro s₁ hu₁ hc₁ hp₁ hconn₁ hview₁
  rw [← hview₁, ← hconn₁] at h ⊢
  refine returns_after hu₁ hc₁ hp₁ (answered_updateGet_own ((hu₁.live _ _).trans h) hv) ?_
  intro s₂ hu₂ hc₂ hp₂ hconn₂ hview₂
  rw [← hview₂, ← hconn₂] at h ⊢
  have hret := returns_now databases hc₂ hp₂ (answered_updatePexpire_some ((hu₂.live _ _).trans h))
  rw [if_neg (by omega), hv, alive_put_fresh hpx, hu₂ s₂ .refl] at hret
  exact ⟨_, rfl, hret⟩

/-! ## `DelKeyValue` -/

theorem del_own {e : Entry} (hu : Undisturbed cfg databases E s)
    (hc : code cfg s.fields s.pc = .call (delOp cfg) k) (hdb : s.db = none)
    (h : s.view s.conn cfg.key = some e) (hv : e.value = cfg.value) :
    ∃ s', s'.pc = k .kDelKeySucceed ∧
      Returned cfg databases E s s' (delOp cfg) .kDelKeySucceed (s.view.put s.conn cfg.key none) := by
  refine returns_after hu hc (point_of_none hdb _) (answered_delExists_some ((hu.live _ _).trans h)) ?_
  intro s₁ hu₁ hc₁ hp₁ hconn₁ hview₁
  rw [← hview₁, ← hconn₁] at h ⊢
  refine returns_after hu₁ hc₁ hp₁ (answered_delGet_own ((hu₁.live _ _).trans h) hv) ?_
  intro s₂ hu₂ hc₂ hp₂ hconn₂ hview₂
  rw [← hview₂, ← hconn₂] at h ⊢
  have hret := returns_now databases hc₂ hp₂ (answered_delDel_some ((hu₂.live _ _).trans h))
  rw [Store.alive_put (by simp), hu₂ s₂ .refl] at hret
  exact ⟨_, rfl, hret⟩

theorem del_other (hu : Undisturbed cfg databases E s)
    (hc : code cfg s.fields s.pc = .call (delOp cfg) k) (hdb : s.db = none)
    (h : ∀ e, s.view s.conn cfg.key = some e → e.value ≠ cfg.value) :
    ∃ r, r ≠ .kDelKeySucceed ∧ ∃ s', s'.pc = k r ∧ Returned cfg databases E s s' (delOp cfg) r s.view := by
  cases he : s.view s.conn cfg.key with
  | none =>
    refine ⟨.kKeyDoesNotExist, by simp, ?_⟩
    exact returns_same hu hc (point_of_none hdb _) (answered_delExists_none ((hu.live _ _).trans he))
  | some e =>
    refine ⟨.kKeyValueWrong, by simp, ?_⟩
    refine returns_after hu hc (point_of_none hdb _) (answered_delExists_some ((hu.live _ _).trans he)) ?_
    intro s₁ hu₁ hc₁ hp₁ hconn₁ hview₁
    have hother := h e he
    rw [← hview₁, ← hconn₁] at he
    rw [← hview₁]
    exact returns_same hu₁ hc₁ hp₁ (answered_delGet_other ((hu₁.live _ _).trans he) hother)

/-! ## `SelectDB` -/

theorem Selected.view {n : Option ℕ} {index : ℤ} (h : Selected cfg databases E s s' n index)
    (hu : Undisturbed cfg databases E s) : s'.view = s.view := by
  rw [State.view, h.now, h.srv]
  exact hu s .refl

end DistributedLock.Sequential
