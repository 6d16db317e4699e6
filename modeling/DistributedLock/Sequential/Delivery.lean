import DistributedLock.Sequential.Loops

/-!
# Release and renewal reach every host

`UnlockAll` and `KeepLock` send `EXISTS` and then, if the key was there, `GET`; the code reads the reply of the `GET` as
a string, without looking at it first.  If the key has expired, or another client has deleted it, between the two
commands, the reply is nil and `as_string` throws.

* `Drops`: the world takes the key away between the `EXISTS` and the `GET` of one operation;
* `finds_iff_spares`: this is the only way in which a `GET` can miss its key;
* `release_and_renewal_reach_hosts`: `UnlockAll` and `KeepLock` run on every host and return, and no exception leaves
  them, if and only if this does not happen during the call.
-/

set_option linter.unusedSectionVars false

namespace DistributedLock.Sequential

open Lib Redis DMutex

variable {cfg : Cfg} {databases : ℕ} {E : Env} {s s' s₀ : State} {c : Option Caller} {op : DBOp}

/-! ## Between `EXISTS` and `GET` -/

/-- The thread is between the `EXISTS` and the `GET` of one operation, and before the `GET` arrives the key expires or
is deleted. -/
def Drops (E : Env) (s : State) : Prop :=
  ∃ q key, s.db = some q ∧ q.reads = some key ∧ s.srv.live s.now s.conn key ≠ none ∧
    (E.world s.cmds s.now s.srv).2.live (E.world s.cmds s.now s.srv).1 s.conn key = none

/-- No key that an operation of the call has found is taken away before the same operation reads it. -/
def Spares (cfg : Cfg) (databases : ℕ) (E : Env) (s₀ : State) : Prop :=
  ∀ s, Runs (State.step cfg databases E) s₀ s → ¬ Drops E s

/-- A thread inside an operation is at its call, and `EXISTS` has found the key that it is about to read. -/
def Found (cfg : Cfg) (s : State) : Prop :=
  ∀ q, s.db = some q → (∃ op k, code cfg s.fields s.pc = .call op k) ∧
    ∀ key, q.reads = some key → s.srv.live s.now s.conn key ≠ none

theorem found_of_none (h : s.db = none) : Found cfg s := by
  intro q hq
  rw [h] at hq
  cases hq

theorem found_step (h : s.step cfg databases E = some s') : Found cfg s' := by
  rcases step_cases h with ⟨op, k, hc⟩ | ⟨-, -, -, -, hdb⟩
  · rcases step_call_cases hc h with ⟨q, hr, rfl⟩ | ⟨r, -, rfl⟩
    · rintro _ ⟨⟩
      refine ⟨⟨op, k, hc⟩, fun key hg => ?_⟩
      obtain ⟨hstore, hconn, hlive⟩ := answered_reads hr hg
      have hstore' : (s.send databases E op).store = (E.world s.cmds s.now s.srv).2 := hstore
      have hconn' : (s.send databases E op).db = s.conn := hconn
      simp only [State.sent, hstore', hconn']
      exact hlive
    · exact found_of_none rfl
  · exact found_of_none hdb

theorem misses_iff_drops (h : Found cfg s) : Misses cfg E s ↔ Drops E s := by
  constructor
  · rintro ⟨op, k, hc, hmiss⟩
    obtain ⟨key, hg, hnone⟩ := DBRedisPc.misses_iff.mp hmiss
    cases hdb : s.db with
    | none =>
      rw [State.point, hdb, Option.getD_none, DBRedisPc.reads_start] at hg
      cases hg
    | some q =>
      rw [State.point, hdb, Option.getD_some] at hg
      exact ⟨q, key, hdb, hg, (h q hdb).2 key hg, hnone⟩
  · rintro ⟨q, key, hdb, hg, -, hnone⟩
    obtain ⟨op, k, hc⟩ := (h q hdb).1
    have hpoint : s.point op = q := by rw [State.point, hdb, Option.getD_some]
    exact ⟨op, k, hc, DBRedisPc.misses_iff.mpr ⟨key, hpoint ▸ hg, hnone⟩⟩

theorem found_of_runs (h₀ : Found cfg s₀) (h : Runs (State.step cfg databases E) s₀ s) : Found cfg s :=
  h.invariant (fun _ _ _ hs => found_step hs) h₀

/-- **A `GET` misses its key only if the world takes it away after the `EXISTS`.** -/
theorem finds_iff_spares (h₀ : Found cfg s₀) : Finds cfg databases E s₀ ↔ Spares cfg databases E s₀ := by
  constructor
  · intro h s hs hd
    exact h s hs ((misses_iff_drops (found_of_runs h₀ hs)).mpr hd)
  · intro h s hs hm
    exact h s hs ((misses_iff_drops (found_of_runs h₀ hs)).mp hm)

/-! ## Delivery -/

/-- The databases in which the operation `op` has returned, in order. -/
def ran (op : DBOp) (log : List Return) : List ℤ := (log.filter fun e => e.op = op).map Return.db

/-- The call runs the operation `op` in every database of `hosts`, each time to its return, and comes to its end; no
exception leaves it. -/
structure Delivers (cfg : Cfg) (databases : ℕ) (E : Env) (s₀ : State) (op : DBOp) (hosts : List ℤ)
    (last : Pc → Prop) : Prop where
  returns : ∃ s, Runs (State.step cfg databases E) s₀ s ∧ last s.pc ∧ ran op s.log = hosts
  safe : ∀ s, Runs (State.step cfg databases E) s₀ s → ∀ what, s.next cfg databases E ≠ .raise what

theorem Delivers.finds {hosts : List ℤ} {last : Pc → Prop} (h : Delivers cfg databases E s₀ op hosts last) :
    Finds cfg databases E s₀ := by
  intro s hs hm
  obtain ⟨what, hw⟩ := raises_iff.mpr hm
  exact h.safe s hs what hw

theorem Finds.safe (h : Finds cfg databases E s₀) (hs : Runs (State.step cfg databases E) s₀ s) (what : String) :
    s.next cfg databases E ≠ .raise what := fun hw => h s hs (raises_iff.mp ⟨what, hw⟩)

/-! ## `UnlockAll` -/

theorem unlock_loop {rest : List ℤ} {m : ℕ} (hfind : Finds cfg databases E s) (hpc : s.pc = .unlockSelect c rest m)
    (hdb : s.db = none) (hvalid : ∀ host ∈ rest, Valid databases host) :
    ∃ s' res, Runs (State.step cfg databases E) s s' ∧ s'.pc = afterUnlockAll res c ∧
      ran (delOp cfg) s'.log = ran (delOp cfg) s.log ++ rest := by
  induction rest generalizing s m with
  | nil => exact ⟨_, _, .one (unlock_leaves hpc), rfl, by simp⟩
  | cons host rest ih =>
    obtain ⟨s₁, hdel, hsel⟩ := unlock_selects cfg E hpc hdb (hvalid host List.mem_cons_self)
    have hin : DBRedisPc.Inside (delOp cfg) (s₁.point (delOp cfg)) := by
      rw [point_of_none hsel.db]
      exact (dbRedis_lawful databases).start (delOp cfg)
    obtain ⟨s₂, r, t₂, hs₂, hpc₂, hdb₂, -, hlog₂⟩ :=
      call_returns (hfind.of_runs hsel.runs) hdel hin (by simp [delOp])
    obtain ⟨s', res, hs', hpc', hran⟩ := ih ((hfind.of_runs hsel.runs).of_runs hs₂) hpc₂ hdb₂
      fun h hmem => hvalid h (List.mem_cons_of_mem _ hmem)
    obtain ⟨t₁, hlog₁⟩ := hsel.log
    refine ⟨s', res, hsel.runs.trans (hs₂.trans hs'), hpc', ?_⟩
    rw [hran, hlog₂, hlog₁]
    simp [ran, delOp, hsel.conn]

theorem unlocking_delivers {now : ℤ} {srv : Store} {conn : ℤ} {f : Fields}
    (hfind : Finds cfg databases E (.unlocking now srv conn f c)) (hvalid : ∀ host ∈ cfg.hosts, Valid databases host) :
    Delivers cfg databases E (.unlocking now srv conn f c) (delOp cfg) cfg.hosts
      fun pc => ∃ res, pc = afterUnlockAll res c := by
  refine ⟨?_, fun s hs what => hfind.safe hs what⟩
  have hruns : Runs (State.step cfg databases E) (.unlocking now srv conn f c) _ := unlock_enters rfl
  obtain ⟨s', res, hs', hpc', hran⟩ := unlock_loop (hfind.of_runs hruns) rfl rfl hvalid
  exact ⟨s', hruns.trans hs', ⟨res, hpc'⟩, hran⟩

/-! ## `KeepLock` -/

/-- Every `UpdateExpire` that has returned has renewed the entry. -/
def Renews (cfg : Cfg) (databases : ℕ) (E : Env) (s₀ : State) : Prop :=
  ∀ s, Runs (State.step cfg databases E) s₀ s → ∀ e ∈ s.log, e.op = updateOp cfg → e.res = .kUpdateKeySucceed

theorem Renews.of_runs (h : Renews cfg databases E s) (hr : Runs (State.step cfg databases E) s s') :
    Renews cfg databases E s' := fun t ht => h t (hr.trans ht)

/-- The loop of `KeepLock` runs on the hosts that are left, if each renewal succeeds. -/
theorem keep_loop {i m : ℕ} (hfind : Finds cfg databases E s) (hrenew : Renews cfg databases E s)
    (hpc : s.pc = .keepTest false i) (hm : i + m = s.fields.haveLockNum.length)
    (hvalid : ∀ host ∈ s.fields.haveLockNum, Valid databases host) :
    ∃ s', Runs (State.step cfg databases E) s s' ∧ s'.pc = .kept true ∧
      ran (updateOp cfg) s'.log = ran (updateOp cfg) s.log ++ s.fields.haveLockNum.drop i := by
  induction m generalizing s i with
  | zero =>
    have hi : s.fields.haveLockNum.length ≤ i := by omega
    exact ⟨_, .one (keep_leaves hpc hi), rfl, by simp [List.drop_of_length_le hi]⟩
  | succ m ih =>
    have hi : i < s.fields.haveLockNum.length := by omega
    obtain ⟨s₁, hupd, -, hsel⟩ := keep_selects cfg E hpc hi (hvalid _ (List.getElem_mem hi))
    have hin : DBRedisPc.Inside (updateOp cfg) (s₁.point (updateOp cfg)) := by
      rw [point_of_none hsel.db]
      exact (dbRedis_lawful databases).start (updateOp cfg)
    obtain ⟨s₂, r, t₂, hs₂, hpc₂, hdb₂, hf₂, hlog₂⟩ :=
      call_returns (hfind.of_runs hsel.runs) hupd hin (by simp [updateOp])
    have hruns₂ := hsel.runs.trans hs₂
    have hmem : (⟨position s₁.pc, s₁.conn, updateOp cfg, r, t₂⟩ : Return) ∈ s₂.log := by
      rw [hlog₂]
      simp
    obtain rfl : r = .kUpdateKeySucceed := hrenew s₂ hruns₂ _ hmem rfl
    have hs₃ : s₂.step cfg databases E = some { s₂ with pc := .keepTest false (i + 1), db := none } :=
      keep_goes_on hpc₂
    have hruns₃ := hruns₂.trans (.one hs₃)
    have hf : s₂.fields = s.fields := hf₂.trans hsel.fields
    obtain ⟨s', hs', hpc', hran⟩ := ih (hfind.of_runs hruns₃) (hrenew.of_runs hruns₃) rfl
      (by simp only [hf]; omega) (by simpa only [hf] using hvalid)
    obtain ⟨t₁, hlog₁⟩ := hsel.log
    refine ⟨s', hruns₃.trans hs', hpc', ?_⟩
    simp only [hran, hlog₂, hlog₁, hsel.conn, hf, List.drop_eq_getElem_cons hi]
    simp [ran, updateOp]

theorem keeping_delivers {now : ℤ} {srv : Store} {conn : ℤ} {f : Fields}
    (hfind : Finds cfg databases E (.keeping now srv conn f))
    (hrenew : Renews cfg databases E (.keeping now srv conn f))
    (hcontinue : f.lockContinue = true) (hstatus : f.lockStatus = true)
    (hvalid : ∀ host ∈ f.haveLockNum, Valid databases host) :
    Delivers cfg databases E (.keeping now srv conn f) (updateOp cfg) f.haveLockNum fun pc => pc = .kept true := by
  refine ⟨?_, fun s hs what => hfind.safe hs what⟩
  have hruns := keep_enters cfg databases E now srv conn hcontinue hstatus
  obtain ⟨s', hs', hpc', hran⟩ :=
    keep_loop (hfind.of_runs hruns) (hrenew.of_runs hruns) rfl (Nat.zero_add _) hvalid
  exact ⟨s', hruns.trans hs', hpc', hran⟩

/-! ## The result -/

/-- **Release and renewal reach every host**, and no exception leaves them, exactly if no key that an operation of the
call has found is taken away before the operation reads it. -/
theorem release_and_renewal_reach_hosts (cfg : Cfg) (databases : ℕ) (E : Env) (now : ℤ) (srv : Store) (conn : ℤ)
    (f : Fields) (hhosts : ∀ host ∈ cfg.hosts, Valid databases host)
    (hhave : ∀ host ∈ f.haveLockNum, Valid databases host) :
    (∀ c, Delivers cfg databases E (.unlocking now srv conn f c) (delOp cfg) cfg.hosts
        (fun pc => ∃ res, pc = afterUnlockAll res c) ↔ Spares cfg databases E (.unlocking now srv conn f c)) ∧
    (f.lockContinue = true → f.lockStatus = true → Renews cfg databases E (.keeping now srv conn f) →
      (Delivers cfg databases E (.keeping now srv conn f) (updateOp cfg) f.haveLockNum (fun pc => pc = .kept true) ↔
        Spares cfg databases E (.keeping now srv conn f))) := by
  constructor
  · intro c
    rw [← finds_iff_spares (found_of_none rfl)]
    exact ⟨fun h => h.finds, fun h => unlocking_delivers h hhosts⟩
  · intro hcontinue hstatus hrenew
    rw [← finds_iff_spares (found_of_none rfl)]
    exact ⟨fun h => h.finds, fun h => keeping_delivers h hrenew hcontinue hstatus hhave⟩

/-- One host, one entry that lives until the time 10. -/
def oneEntry : Store := fun d k => if d = 0 ∧ k = "k" then some ⟨"1", 10⟩ else none

def onHost : Cfg := ⟨[0], "k", "1", 10, 6⟩

def acquired : Fields := ⟨[0], true, true⟩

theorem still_spares (shuffle : List ℤ) (s₀ : State) : Spares cfg databases (.still shuffle) s₀ := by
  rintro s - ⟨q, key, -, -, hlive, hnone⟩
  exact hlive hnone

theorem release_and_renewal_reach_hosts_one :
    Delivers onHost 1 (.still [0]) (.unlocking 5 oneEntry 0 acquired none) (delOp onHost) [0]
      (fun pc => ∃ res, pc = afterUnlockAll res none) ∧
    Delivers onHost 1 (.still [0]) (.keeping 5 oneEntry 0 acquired) (updateOp onHost) [0]
      (fun pc => pc = .kept true) := by
  have h := release_and_renewal_reach_hosts onHost 1 (.still [0]) 5 oneEntry 0 acquired (by decide) (by decide)
  refine ⟨(h.1 none).mpr (still_spares [0] _), (h.2 rfl rfl ?_).mpr (still_spares [0] _)⟩
  intro s hs e he hop
  have hall := forall_runs 11 (fun s : State =>
    s.log.all fun e => decide (e.op = updateOp onHost → e.res = .kUpdateKeySucceed)) (by decide) hs
  simpa [hop] using List.all_eq_true.mp hall e he

/-- The entry expires after the `EXISTS`, before the `GET`. -/
def expiring : Env := { Env.still [0] with world := fun k _ srv => (if k ≤ 1 then 10 else 11, srv) }

def raises (cfg : Cfg) (databases : ℕ) (E : Env) (s : State) : Bool :=
  match s.next cfg databases E with
  | .raise _ => true
  | _ => false

theorem not_delivers {hosts : List ℤ} {last : Pc → Prop}
    (h : ∃ s, Runs (State.step cfg databases E) s₀ s ∧ raises cfg databases E s = true) :
    ¬ Delivers cfg databases E s₀ op hosts last := by
  obtain ⟨s, hs, hr⟩ := h
  intro hd
  unfold raises at hr
  split at hr
  · rename_i what hw
    exact hd.safe s hs what hw
  · cases hr

/-- `UnlockAll` and `KeepLock` throw on an entry that expires during the call. -/
theorem release_and_renewal_throw :
    ¬ Delivers onHost 1 expiring (.unlocking 5 oneEntry 0 acquired none) (delOp onHost) [0]
      (fun pc => ∃ res, pc = afterUnlockAll res none) ∧
    ¬ Delivers onHost 1 expiring (.keeping 5 oneEntry 0 acquired) (updateOp onHost) [0] (fun pc => pc = .kept true) :=
  ⟨not_delivers (exists_runs 4 _ (by decide)), not_delivers (exists_runs 6 _ (by decide))⟩

end DistributedLock.Sequential
