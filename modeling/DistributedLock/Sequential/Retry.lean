import DistributedLock.Sequential.Delivery
import DistributedLock.Sequential.Repair
import DistributedLock.Redis.Ownership

/-!
# Whether a renewal pass ends

The loop of `KeepLock` visits a position again on every result but `kUpdateKeySucceed`.  No other client acts during
the pass; the clock goes on, so the entries of the object may expire.

* If a listed database holds another client's value, which does not expire, `UpdateExpire` reports `kKeyValueWrong`
  there each time, and the pass never ends (`keep_never_ends`).
* If none does, each position takes at most three calls (`keep_settles`): one that finds the entry expired under its
  hands, one that sets it anew, one that renews it.
-/

set_option linter.unusedSectionVars false

namespace DistributedLock.Sequential

open Lib Redis DMutex

variable {cfg : Cfg} {databases : ℕ} {E : Env} {s s' s₀ : State} {f : Fields} {i : ℕ} {d : ℤ} {e : Entry}

/-- No other client acts, and the clock does not go back. -/
def Env.Quiet (E : Env) : Prop := ∀ k now srv, now ≤ (E.world k now srv).1 ∧ (E.world k now srv).2 = srv

/-- A worker that enters the loop of `KeepLock`. -/
def State.looping (now : ℤ) (srv : Store) (conn : ℤ) (f : Fields) : State :=
  { now, srv, conn, fields := f, pc := .keepTest false 0 }

/-! ## A foreign value -/

/-- The thread is in the loop, and has not passed the position `i`. -/
def Before (f : Fields) (i : ℕ) (conn : ℤ) : Pc → Prop
  | .keepTest owns j | .keepRelock owns j => owns = false ∧ j ≤ i
  | .keepSelect j => j ≤ i
  | .keepUpdate j _ => j ≤ i ∧ f.haveLockNum[j]? = some conn
  | .keepUnlock j r => j ≤ i ∧ (j = i → r ≠ .kUpdateKeySucceed)
  | _ => False

/-- The thread has not passed the position `i`, whose database `d` holds a foreign entry. -/
structure Stuck (cfg : Cfg) (f : Fields) (i : ℕ) (d : ℤ) (e : Entry) (s : State) : Prop where
  fields : s.fields = f
  entry : s.srv d cfg.key = some e
  before : Before f i s.conn s.pc
  /-- Inside `UpdateExpire` in `d`, the `EXISTS` has found the foreign entry. -/
  inside : ∀ q, s.db = some q → (∃ j h, s.pc = .keepUpdate j h) ∧ DBRedisPc.Inside (updateOp cfg) q ∧
    (s.conn = d → q = .updateGet cfg.key cfg.value cfg.lockValidityTime)

namespace Stuck

theorem live (h : Stuck cfg f i d e s) (hq : E.Quiet) (hlast : (E.world s.cmds s.now s.srv).1 ≤ e.expireAt) :
    (E.world s.cmds s.now s.srv).2.live (E.world s.cmds s.now s.srv).1 d cfg.key = some e := by
  rw [Store.live_eq_some, (hq _ _ _).2]
  exact ⟨h.entry, hlast⟩

theorem goto (h : Stuck cfg f i d e s) {pc : Pc} (hb : Before f i s.conn pc) :
    Stuck cfg f i d e { s with pc := pc, db := none } :=
  ⟨h.fields, h.entry, hb, by rintro _ ⟨⟩⟩

theorem select (h : Stuck cfg f i d e s) (hq : E.Quiet) (hi : f.haveLockNum[i]? = some d)
    (hvalid : ∀ host ∈ f.haveLockNum, Valid databases host) {j : ℕ} (hpc : s.pc = .keepSelect j)
    (hs : s.step cfg databases E = some s') : Stuck cfg f i d e s' := by
  have hj : j ≤ i := by simpa only [hpc, Before] using h.before
  have hlen : i < f.haveLockNum.length := List.getElem?_eq_some_iff.mp hi |>.1
  have hj' : j < s.fields.haveLockNum.length := by
    rw [h.fields]
    omega
  have hdb : s.db = none := by
    by_contra hne
    obtain ⟨q, hdb⟩ := Option.ne_none_iff_exists'.mp hne
    obtain ⟨⟨j', h', hpc'⟩, -⟩ := h.inside q hdb
    rw [hpc] at hpc'
    cases hpc'
  have hmem : s.fields.haveLockNum[j] ∈ f.haveLockNum := by
    rw [← h.fields]
    exact List.getElem_mem hj'
  have hselect : code cfg s.fields s.pc = .call (.selectDB s.fields.haveLockNum[j]) fun r =>
      if r = .kSelectDBSucceed then .keepUpdate j s.fields.haveLockNum[j] else .keepTest true (j + 1) := by
    rw [hpc]
    exact keepSelect_code hj'
  obtain ⟨s₁, hs₁, hpc₁, hsel⟩ := select_returns E hselect hdb (hvalid _ hmem)
  obtain rfl : s₁ = s' := Option.some.inj (hs₁.symm.trans hs)
  refine ⟨hsel.fields.trans h.fields, ?_, ?_, ?_⟩
  · rw [hsel.srv, (hq _ _ _).2]
    exact h.entry
  · rw [hpc₁, hsel.conn]
    refine ⟨hj, ?_⟩
    rw [← h.fields]
    exact List.getElem?_eq_getElem hj'
  · intro q hq'
    rw [hsel.db] at hq'
    cases hq'

theorem update_there (h : Stuck cfg f i d e s) (hq : E.Quiet) (hv : e.value ≠ cfg.value)
    (hlast : (E.world s.cmds s.now s.srv).1 ≤ e.expireAt) {j : ℕ} {host : ℤ} (hpc : s.pc = .keepUpdate j host)
    (hconn : s.conn = d) (hs : s.step cfg databases E = some s') : Stuck cfg f i d e s' := by
  have hlive := h.live hq hlast
  rw [← hconn] at hlive
  have hb : j ≤ i ∧ f.haveLockNum[j]? = some s.conn := by simpa only [hpc, Before] using h.before
  have hupdate : code cfg s.fields s.pc = .call (updateOp cfg) fun r => .keepUnlock j r := by
    rw [hpc]
    rfl
  have hsrv : (E.world s.cmds s.now s.srv).2 = s.srv := (hq _ _ _).2
  cases hdb : s.db with
  | none =>
    -- `EXISTS`
    have hs₁ := step_waits databases hupdate (point_of_none hdb _) (answered_updateExists_some hlive)
    obtain rfl := Option.some.inj (hs₁.symm.trans hs)
    refine ⟨h.fields, ?_, h.before, ?_⟩
    · show (E.world s.cmds s.now s.srv).2 d cfg.key = some e
      rw [hsrv, h.entry]
    · rintro _ ⟨⟩
      exact ⟨⟨j, host, hpc⟩, .inr (.inr (.inl rfl)), fun _ => rfl⟩
  | some q =>
    -- `GET`
    obtain rfl := (h.inside q hdb).2.2 hconn
    have hpoint : s.point (updateOp cfg) = .updateGet cfg.key cfg.value cfg.lockValidityTime := by
      rw [State.point, hdb, Option.getD_some]
    have hs₁ := step_returns databases hupdate hpoint (answered_updateGet_other hlive hv)
    obtain rfl := Option.some.inj (hs₁.symm.trans hs)
    refine ⟨h.fields, ?_, ⟨hb.1, fun _ => by simp⟩, ?_⟩
    · show (E.world s.cmds s.now s.srv).2 d cfg.key = some e
      rw [hsrv, h.entry]
    · rintro _ ⟨⟩

theorem update_elsewhere (h : Stuck cfg f i d e s) (hq : E.Quiet) (hi : f.haveLockNum[i]? = some d)
    (hlast : (E.world s.cmds s.now s.srv).1 ≤ e.expireAt) {j : ℕ} {host : ℤ} (hpc : s.pc = .keepUpdate j host)
    (hconn : s.conn ≠ d) (hs : s.step cfg databases E = some s') : Stuck cfg f i d e s' := by
  have hb : j ≤ i ∧ f.haveLockNum[j]? = some s.conn := by simpa only [hpc, Before] using h.before
  have hji : j ≠ i := by
    rintro rfl
    rw [hi] at hb
    exact hconn (Option.some.inj hb.2).symm
  have hupdate : code cfg s.fields s.pc = .call (updateOp cfg) fun r => .keepUnlock j r := by
    rw [hpc]
    rfl
  have hin : DBRedisPc.Inside (updateOp cfg) (s.point (updateOp cfg)) := by
    cases hdb : s.db with
    | none =>
      rw [point_of_none hdb]
      exact (dbRedis_lawful databases).start (updateOp cfg)
    | some q =>
      rw [State.point, hdb, Option.getD_some]
      exact (h.inside q hdb).2.1
  have hdb' : (s.send databases E (updateOp cfg)).db = s.conn := (dbRedis_lawful databases).db hin (by simp [updateOp])
  have hentry : (s.send databases E (updateOp cfg)).store d cfg.key = some e :=
    exec_leaves (h.live hq hlast) fun _ => Ne.symm hconn
  rcases step_call_cases hupdate hs with ⟨q, hr, rfl⟩ | ⟨r, hr, rfl⟩
  · refine ⟨h.fields, hentry, ?_, ?_⟩
    · show Before f i (s.send databases E (updateOp cfg)).db s.pc
      rw [hdb']
      exact h.before
    · rintro _ ⟨⟩
      refine ⟨⟨j, host, hpc⟩, ((dbRedis_lawful databases).more hin hr).1, ?_⟩
      intro hd
      exact absurd (hdb'.symm.trans hd) hconn
  · refine ⟨h.fields, hentry, ⟨hb.1, fun hj => absurd hj hji⟩, ?_⟩
    rintro _ ⟨⟩

theorem step (h : Stuck cfg f i d e s) (hq : E.Quiet) (hi : f.haveLockNum[i]? = some d)
    (hvalid : ∀ host ∈ f.haveLockNum, Valid databases host) (hv : e.value ≠ cfg.value)
    (hlast : (E.world s.cmds s.now s.srv).1 ≤ e.expireAt) (hs : s.step cfg databases E = some s') :
    Stuck cfg f i d e s' := by
  have hb := h.before
  have hlen : i < f.haveLockNum.length := List.getElem?_eq_some_iff.mp hi |>.1
  cases hpc : s.pc with
  | keepTest owns j =>
    rw [hpc] at hb
    obtain ⟨rfl, hj⟩ := hb
    have htest : code cfg s.fields s.pc = .tau s.fields (.keepRelock false j) := by
      rw [hpc]
      exact if_pos (by rw [h.fields]; omega)
    obtain rfl := Option.some.inj ((step_tau (by rw [hpc]; rfl) htest).symm.trans hs)
    exact h.goto ⟨rfl, hj⟩
  | keepRelock owns j =>
    rw [hpc] at hb
    obtain ⟨rfl, hj⟩ := hb
    have hlock : code cfg s.fields s.pc = .lock (.keepSelect j) := by
      rw [hpc]
      rfl
    obtain rfl := Option.some.inj ((step_lock (by rw [hpc]; rfl) hlock (by rw [hpc]; rfl)).symm.trans hs)
    exact h.goto hj
  | keepSelect j => exact h.select hq hi hvalid hpc hs
  | keepUpdate j host =>
    by_cases hconn : s.conn = d
    · exact h.update_there hq hv hlast hpc hconn hs
    · exact h.update_elsewhere hq hi hlast hpc hconn hs
  | keepUnlock j r =>
    rw [hpc] at hb
    obtain rfl := Option.some.inj ((keep_goes_on hpc).symm.trans hs)
    refine h.goto ⟨rfl, ?_⟩
    have hj := hb.1
    split
    · rename_i hr
      have hne : j ≠ i := fun hji => hb.2 hji hr
      omega
    · exact hj
  | _ =>
    rw [hpc] at hb
    exact hb.elim

end Stuck

/-- **A pass over a database with another client's value never ends.** -/
theorem keep_never_ends {now : ℤ} {srv : Store} {conn : ℤ} (hq : E.Quiet)
    (hvalid : ∀ host ∈ f.haveLockNum, Valid databases host) (hd : d ∈ f.haveLockNum)
    (he : srv.live now d cfg.key = some e) (hv : e.value ≠ cfg.value)
    (hlast : ∀ s, Runs (State.step cfg databases E) (.looping now srv conn f) s →
      (E.world s.cmds s.now s.srv).1 ≤ e.expireAt)
    (hs : Runs (State.step cfg databases E) (.looping now srv conn f) s) : s.pc ≠ .kept true := by
  obtain ⟨i, hi⟩ := List.mem_iff_getElem?.mp hd
  have hstuck : Stuck cfg f i d e s := by
    induction hs with
    | refl => exact ⟨rfl, (Store.live_eq_some.mp he).1, ⟨rfl, Nat.zero_le i⟩, by rintro _ ⟨⟩⟩
    | tail hr hn ih => exact ih.step hq hi hvalid hv (hlast _ hr) hn
  intro hpc
  have hb := hstuck.before
  rw [hpc] at hb
  exact hb

/-! ## No foreign value -/

/-- No database of `hosts` holds another client's value. -/
def Clean (cfg : Cfg) (hosts : List ℤ) (now : ℤ) (srv : Store) : Prop :=
  ∀ d ∈ hosts, ∀ e, srv.live now d cfg.key = some e → e.value = cfg.value

/-- An entry that the pass has set stays until the next call of the pass has returned. -/
def Settles (cfg : Cfg) (databases : ℕ) (E : Env) (s₀ : State) : Prop :=
  ∀ s, Runs (State.step cfg databases E) s₀ s → ∀ e, (updates cfg s.log).getLast? = some e →
    e.res = .kSetKeySucceed → s.srv.live s.now e.db cfg.key ≠ none →
    (E.world s.cmds s.now s.srv).2.live (E.world s.cmds s.now s.srv).1 e.db cfg.key ≠ none

/-- Redis does not refuse a `SET` of the pass. -/
def Accepts (cfg : Cfg) (databases : ℕ) (E : Env) (s₀ : State) : Prop :=
  ∀ s, Runs (State.step cfg databases E) s₀ s → s.db = some (.set cfg.key cfg.value cfg.lockValidityTime) →
    0 < i32 cfg.lockValidityTime

/-- The conditions on a pass, from the state `s` on. -/
structure Fair (cfg : Cfg) (databases : ℕ) (E : Env) (s : State) : Prop where
  quiet : E.Quiet
  spares : Spares cfg databases E s
  settles : Settles cfg databases E s
  accepts : Accepts cfg databases E s

theorem Fair.of_runs (h : Fair cfg databases E s) (hr : Runs (State.step cfg databases E) s s') :
    Fair cfg databases E s' where
  quiet := h.quiet
  spares := fun t ht => h.spares t (hr.trans ht)
  settles := fun t ht => h.settles t (hr.trans ht)
  accepts := fun t ht => h.accepts t (hr.trans ht)

section Clean

variable {hosts : List ℤ} {now now' : ℤ} {srv : Store}

theorem Clean.later (h : Clean cfg hosts now srv) (hle : now ≤ now') : Clean cfg hosts now' srv :=
  fun d hd e he => h d hd e (Store.live_of_le he hle)

theorem Clean.put (h : Clean cfg hosts now srv) {conn : ℤ} {x : Option Entry}
    (hx : ∀ e, x = some e → e.value = cfg.value) : Clean cfg hosts now (srv.put conn cfg.key x) := by
  intro d hd e he
  by_cases hdc : d = conn
  · subst hdc
    rw [Store.live_put_self, Option.filter_eq_some_iff] at he
    exact hx e he.1
  · rw [Store.live_put_of_ne x (fun hh => hdc hh.1)] at he
    exact h d hd e he

end Clean

/-- A call of `UpdateExpire` from the state `s` has returned `r` in the state `s'`: it has renewed the entry, or set it,
or found it expired when it was about to renew it. -/
structure Updated (cfg : Cfg) (databases : ℕ) (E : Env) (hosts : List ℤ) (s s' : State) (r : DBResult) : Prop where
  runs : Runs (State.step cfg databases E) s s'
  db : s'.db = none
  fields : s'.fields = s.fields
  conn : s'.conn = s.conn
  log : ∃ e, updates cfg s'.log = updates cfg s.log ++ [e] ∧ e.res = r ∧ e.db = s.conn
  clean : Clean cfg hosts s'.now s'.srv
  result : r = .kUpdateKeySucceed ∨ r = .kSetKeySucceed ∧ s'.srv.live s'.now s.conn cfg.key ≠ none ∨
    r = .kUpdateKeyFailed ∧ s'.srv.live s'.now s.conn cfg.key = none

/-- The last call of the pass has set the entry of the database `d`, which is still there. -/
def Fresh (cfg : Cfg) (d : ℤ) (s : State) : Prop :=
  (∃ e, (updates cfg s.log).getLast? = some e ∧ e.res = .kSetKeySucceed ∧ e.db = d) ∧
    s.srv.live s.now d cfg.key ≠ none

theorem Fresh.stays (h : Fresh cfg d s) (hfair : Fair cfg databases E s) :
    (E.world s.cmds s.now s.srv).2.live (E.world s.cmds s.now s.srv).1 d cfg.key ≠ none := by
  obtain ⟨⟨e, he, hres, hdb⟩, hlive⟩ := h
  rw [← hdb] at hlive ⊢
  exact hfair.settles s .refl e he hres hlive

section Calls

variable {hosts : List ℤ} {k : DBResult → Pc} {q q' : DBRedisPc} {r : DBResult} {srv : Store} {P : DBResult → Prop}

theorem updated_now (hosts : List ℤ) (hc : code cfg s.fields s.pc = .call (updateOp cfg) k)
    (hp : s.point (updateOp cfg) = q) (h : s.answer databases E q = ⟨.done r, s.conn, srv⟩)
    (hclean : Clean cfg hosts (E.world s.cmds s.now s.srv).1 srv)
    (hresult : r = .kUpdateKeySucceed ∨
      r = .kSetKeySucceed ∧ srv.live (E.world s.cmds s.now s.srv).1 s.conn cfg.key ≠ none ∨
      r = .kUpdateKeyFailed ∧ srv.live (E.world s.cmds s.now s.srv).1 s.conn cfg.key = none) :
    ∃ s', s'.pc = k r ∧ Updated cfg databases E hosts s s' r := by
  refine ⟨_, rfl, .one (step_returns databases hc hp h), rfl, rfl, rfl, ?_, hclean, hresult⟩
  refine ⟨s.returning E (updateOp cfg) r, ?_, rfl, rfl⟩
  show updates cfg (s.log ++ [s.returning E (updateOp cfg) r]) = _
  rw [updates_append]
  simp [updates, State.returning]

theorem updated_after (hfair : Fair cfg databases E s) (hc : code cfg s.fields s.pc = .call (updateOp cfg) k)
    (hp : s.point (updateOp cfg) = q)
    (h : s.answer databases E q = ⟨.more q', s.conn, (E.world s.cmds s.now s.srv).2⟩)
    (hrest : ∀ s₁, Fair cfg databases E s₁ → code cfg s₁.fields s₁.pc = .call (updateOp cfg) k → s₁.db = some q' →
      s₁.conn = s.conn → s₁.srv = s.srv → s₁.now = (E.world s.cmds s.now s.srv).1 → s₁.log = s.log →
      ∃ r s', s'.pc = k r ∧ Updated cfg databases E hosts s₁ s' r ∧ P r) :
    ∃ r s', s'.pc = k r ∧ Updated cfg databases E hosts s s' r ∧ P r := by
  have hstep := step_waits databases hc hp h
  obtain ⟨r, s', hpc, hret, hP⟩ :=
    hrest _ (hfair.of_runs (.one hstep)) hc rfl rfl (hfair.quiet _ _ _).2 rfl rfl
  exact ⟨r, s', hpc, ⟨.step hstep hret.runs, hret.db, hret.fields, hret.conn, hret.log, hret.clean, hret.result⟩, hP⟩

theorem updated_set (hfair : Fair cfg databases E s) (hclean : Clean cfg hosts s.now s.srv)
    (hc : code cfg s.fields s.pc = .call (updateOp cfg) k)
    (hdb : s.db = some (.set cfg.key cfg.value cfg.lockValidityTime))
    (habsent : s.srv.live s.now s.conn cfg.key = none) :
    ∃ s', s'.pc = k .kSetKeySucceed ∧ Updated cfg databases E hosts s s' .kSetKeySucceed := by
  obtain ⟨hle, hsrv⟩ := hfair.quiet s.cmds s.now s.srv
  have hpx := hfair.accepts s .refl hdb
  have hpoint : s.point (updateOp cfg) = .set cfg.key cfg.value cfg.lockValidityTime := by
    rw [State.point, hdb, Option.getD_some]
  have hlive : (E.world s.cmds s.now s.srv).2.live (E.world s.cmds s.now s.srv).1 s.conn cfg.key = none := by
    rw [hsrv]
    by_contra hne
    obtain ⟨e, he⟩ := Option.ne_none_iff_exists'.mp hne
    rw [Store.live_of_le he hle] at habsent
    cases habsent
  refine updated_now hosts hc hpoint (answered_set_none hpx hlive) ?_ (.inr (.inl ⟨rfl, ?_⟩))
  · rw [hsrv]
    refine (hclean.later hle).put ?_
    rintro _ ⟨⟩
    rfl
  · rw [Store.live_put_self]
    simp [Option.filter, hpx.le]

theorem updated_pexpire (hfair : Fair cfg databases E s) (hclean : Clean cfg hosts s.now s.srv)
    (hmem : s.conn ∈ hosts) (hc : code cfg s.fields s.pc = .call (updateOp cfg) k)
    (hdb : s.db = some (.updatePexpire cfg.key cfg.value cfg.lockValidityTime)) :
    ∃ r s', s'.pc = k r ∧ Updated cfg databases E hosts s s' r ∧ (Fresh cfg s.conn s → r = .kUpdateKeySucceed) := by
  obtain ⟨hle, hsrv⟩ := hfair.quiet s.cmds s.now s.srv
  have hpoint : s.point (updateOp cfg) = .updatePexpire cfg.key cfg.value cfg.lockValidityTime := by
    rw [State.point, hdb, Option.getD_some]
  cases hx : (E.world s.cmds s.now s.srv).2.live (E.world s.cmds s.now s.srv).1 s.conn cfg.key with
  | none =>
    obtain ⟨s', hpc, hupd⟩ := updated_now hosts hc hpoint (answered_updatePexpire_none hx)
      (by rw [hsrv]; exact hclean.later hle) (.inr (.inr ⟨rfl, hx⟩))
    exact ⟨_, s', hpc, hupd, fun hfresh => absurd hx (hfresh.stays hfair)⟩
  | some e =>
    have hv : e.value = cfg.value := (hclean.later hle) s.conn hmem e (by rw [← hx, hsrv])
    obtain ⟨s', hpc, hupd⟩ := updated_now hosts hc hpoint (answered_updatePexpire_some hx)
      (by
        rw [hsrv]
        refine (hclean.later hle).put ?_
        intro e' he'
        split at he'
        · cases he'
        · cases he'
          exact hv)
      (.inl rfl)
    exact ⟨_, s', hpc, hupd, fun _ => rfl⟩

theorem updated_get (hfair : Fair cfg databases E s) (hclean : Clean cfg hosts s.now s.srv)
    (hmem : s.conn ∈ hosts) (hc : code cfg s.fields s.pc = .call (updateOp cfg) k)
    (hdb : s.db = some (.updateGet cfg.key cfg.value cfg.lockValidityTime))
    (hfound : s.srv.live s.now s.conn cfg.key ≠ none) :
    ∃ r s', s'.pc = k r ∧ Updated cfg databases E hosts s s' r ∧ (Fresh cfg s.conn s → r = .kUpdateKeySucceed) := by
  obtain ⟨hle, hsrv⟩ := hfair.quiet s.cmds s.now s.srv
  have hpoint : s.point (updateOp cfg) = .updateGet cfg.key cfg.value cfg.lockValidityTime := by
    rw [State.point, hdb, Option.getD_some]
  have hstill : (E.world s.cmds s.now s.srv).2.live (E.world s.cmds s.now s.srv).1 s.conn cfg.key ≠ none :=
    fun hnone => hfair.spares s .refl ⟨_, cfg.key, hdb, rfl, hfound, hnone⟩
  obtain ⟨e, he⟩ := Option.ne_none_iff_exists'.mp hstill
  have hv : e.value = cfg.value := (hclean.later hle) s.conn hmem e (by rw [← he, hsrv])
  refine updated_after hfair hc hpoint (answered_updateGet_own he hv) ?_
  intro s₁ hfair₁ hc₁ hdb₁ hconn₁ hsrv₁ hnow₁ hlog₁
  have hclean₁ : Clean cfg hosts s₁.now s₁.srv := by
    rw [hsrv₁, hnow₁]
    exact hclean.later hle
  obtain ⟨r, s', hpc, hupd, hfresh⟩ := updated_pexpire hfair₁ hclean₁ (by rw [hconn₁]; exact hmem) hc₁ hdb₁
  refine ⟨r, s', hpc, hupd, fun h => hfresh ⟨?_, ?_⟩⟩
  · rw [hlog₁, hconn₁]
    exact h.1
  · rw [hsrv] at hstill
    rw [hsrv₁, hnow₁, hconn₁]
    exact hstill

/-- **A call of the pass returns**: it sets an entry that is not there, and renews one that it has just set. -/
theorem updated_call (hfair : Fair cfg databases E s) (hclean : Clean cfg hosts s.now s.srv) (hmem : s.conn ∈ hosts)
    (hc : code cfg s.fields s.pc = .call (updateOp cfg) k) (hdb : s.db = none) :
    ∃ r s', s'.pc = k r ∧ Updated cfg databases E hosts s s' r ∧
      ((s.srv.live s.now s.conn cfg.key = none → r = .kSetKeySucceed) ∧
        (Fresh cfg s.conn s → r = .kUpdateKeySucceed)) := by
  obtain ⟨hle, hsrv⟩ := hfair.quiet s.cmds s.now s.srv
  cases hx : (E.world s.cmds s.now s.srv).2.live (E.world s.cmds s.now s.srv).1 s.conn cfg.key with
  | none =>
    refine updated_after hfair hc (point_of_none hdb _) (answered_updateExists_none hx) ?_
    intro s₁ hfair₁ hc₁ hdb₁ hconn₁ hsrv₁ hnow₁ hlog₁
    have hclean₁ : Clean cfg hosts s₁.now s₁.srv := by
      rw [hsrv₁, hnow₁]
      exact hclean.later hle
    have habsent₁ : s₁.srv.live s₁.now s₁.conn cfg.key = none := by
      rw [hsrv₁, hnow₁, hconn₁, ← hx, hsrv]
    obtain ⟨s', hpc, hupd⟩ := updated_set hfair₁ hclean₁ hc₁ hdb₁ habsent₁
    exact ⟨_, s', hpc, hupd, fun _ => rfl, fun hfresh => absurd hx (hfresh.stays hfair)⟩
  | some e =>
    have hlive : s.srv.live (E.world s.cmds s.now s.srv).1 s.conn cfg.key = some e := by
      rw [hsrv] at hx
      exact hx
    have hfound : s.srv.live s.now s.conn cfg.key ≠ none := by
      rw [Store.live_of_le hlive hle]
      simp
    refine updated_after hfair hc (point_of_none hdb _) (answered_updateExists_some hx) ?_
    intro s₁ hfair₁ hc₁ hdb₁ hconn₁ hsrv₁ hnow₁ hlog₁
    have hclean₁ : Clean cfg hosts s₁.now s₁.srv := by
      rw [hsrv₁, hnow₁]
      exact hclean.later hle
    have hfound₁ : s₁.srv.live s₁.now s₁.conn cfg.key ≠ none := by
      rw [hsrv₁, hnow₁, hconn₁, hlive]
      simp
    obtain ⟨r, s', hpc, hupd, hfresh⟩ := updated_get hfair₁ hclean₁ (by rw [hconn₁]; exact hmem) hc₁ hdb₁ hfound₁
    refine ⟨r, s', hpc, hupd, fun habsent => absurd habsent hfound, fun h => hfresh ⟨?_, hfound₁⟩⟩
    rw [hlog₁, hconn₁]
    exact h.1

end Calls

/-! ## The pass -/

theorem keep_round {host : ℤ} (hfair : Fair cfg databases E s)
    (hclean : Clean cfg s.fields.haveLockNum s.now s.srv) (hpc : s.pc = .keepTest false i)
    (hhost : s.fields.haveLockNum[i]? = some host) (hvalid : Valid databases host) :
    ∃ (r : DBResult) (s' : State), Runs (State.step cfg databases E) s s' ∧ s'.fields = s.fields ∧
      s'.pc = .keepTest false (if r = .kUpdateKeySucceed then i + 1 else i) ∧
      Clean cfg s.fields.haveLockNum s'.now s'.srv ∧
      (s.srv.live s.now host cfg.key = none → r = .kSetKeySucceed) ∧
      (Fresh cfg host s → r = .kUpdateKeySucceed) ∧
      (r = .kUpdateKeySucceed ∨ r = .kSetKeySucceed ∧ Fresh cfg host s' ∨
        r = .kUpdateKeyFailed ∧ s'.srv.live s'.now host cfg.key = none) := by
  obtain ⟨hi, rfl⟩ := List.getElem?_eq_some_iff.mp hhost
  obtain ⟨hle, hsrv⟩ := hfair.quiet s.cmds s.now s.srv
  obtain ⟨s₁, hupdate, -, hsel⟩ := keep_selects cfg E hpc hi hvalid
  have hsrv' : s₁.srv = s.srv := hsel.srv.trans hsrv
  have hnow' := hsel.now
  have hupdates : updates cfg s₁.log = updates cfg s.log := by
    obtain ⟨t, hlog⟩ := hsel.log
    rw [hlog, updates_append]
    simp [updates, updateOp]
  have hclean₁ : Clean cfg s.fields.haveLockNum s₁.now s₁.srv := by
    rw [hsrv', hnow']
    exact hclean.later hle
  obtain ⟨r, s₂, hpc₂, hupd, habsent, hfresh⟩ :=
    updated_call (hfair.of_runs hsel.runs) hclean₁ (by rw [hsel.conn]; exact List.getElem_mem hi) hupdate hsel.db
  rw [hsel.conn] at habsent hfresh
  refine ⟨r, _, hsel.runs.trans (hupd.runs.trans (.one (keep_goes_on hpc₂))), hupd.fields.trans hsel.fields, rfl,
    hupd.clean, ?_, ?_, ?_⟩
  · intro hnone
    refine habsent ?_
    rw [hsrv', hnow']
    by_contra hne
    obtain ⟨e, he⟩ := Option.ne_none_iff_exists'.mp hne
    rw [Store.live_of_le he hle] at hnone
    cases hnone
  · intro hf
    refine hfresh ⟨?_, ?_⟩
    · rw [hupdates]
      exact hf.1
    · have hstays := hf.stays hfair
      rw [hsrv] at hstays
      rw [hsrv', hnow']
      exact hstays
  · have hresult := hupd.result
    rw [hsel.conn] at hresult
    rcases hresult with hr | ⟨hr, hlive⟩ | ⟨hr, hnone⟩
    · exact .inl hr
    · obtain ⟨e, hlast, hres, hdb⟩ := hupd.log
      refine .inr (.inl ⟨hr, ⟨e, ?_, hres.trans hr, hdb.trans hsel.conn⟩, hlive⟩)
      show (updates cfg s₂.log).getLast? = some e
      rw [hlast, List.getLast?_concat]
    · exact .inr (.inr ⟨hr, hnone⟩)

/-- The pass is at the position `i`. -/
structure Passing (cfg : Cfg) (databases : ℕ) (E : Env) (f : Fields) (i : ℕ) (s : State) : Prop where
  fair : Fair cfg databases E s
  pc : s.pc = .keepTest false i
  fields : s.fields = f
  clean : Clean cfg f.haveLockNum s.now s.srv

/-- **A position takes at most three rounds.** -/
theorem keep_settles (h : Passing cfg databases E f i s) (hvalid : ∀ d ∈ f.haveLockNum, Valid databases d)
    (hi : i < f.haveLockNum.length) :
    ∃ s', Runs (State.step cfg databases E) s s' ∧ Passing cfg databases E f (i + 1) s' := by
  obtain ⟨hfair, hpc, rfl, hclean⟩ := h
  obtain ⟨host, hhost⟩ : ∃ host, s.fields.haveLockNum[i]? = some host := ⟨_, List.getElem?_eq_getElem hi⟩
  have hval : Valid databases host := hvalid host (List.mem_of_getElem? hhost)
  -- a round that renews the entry ends the visit
  have hdone : ∀ {s₁ : State}, Runs (State.step cfg databases E) s s₁ → s₁.fields = s.fields →
      s₁.pc = .keepTest false i → Clean cfg s.fields.haveLockNum s₁.now s₁.srv → Fresh cfg host s₁ →
      ∃ s', Runs (State.step cfg databases E) s s' ∧ Passing cfg databases E s.fields (i + 1) s' := by
    intro s₁ hruns₁ hf₁ hpc₁ hclean₁ hfresh₁
    obtain ⟨r, s', hruns, hf, hpc', hclean', -, hfresh, -⟩ :=
      keep_round (hfair.of_runs hruns₁) (by rw [hf₁]; exact hclean₁) hpc₁ (by rw [hf₁]; exact hhost) hval
    rw [hfresh hfresh₁] at hpc'
    rw [hf₁] at hf hclean'
    have hruns' := hruns₁.trans hruns
    exact ⟨s', hruns', hfair.of_runs hruns', hpc', hf, hclean'⟩
  obtain ⟨r₁, s₁, hruns₁, hf₁, hpc₁, hclean₁, -, -, hresult₁⟩ := keep_round hfair hclean hpc hhost hval
  rcases hresult₁ with rfl | ⟨rfl, hfresh₁⟩ | ⟨rfl, habsent₁⟩
  · exact ⟨s₁, hruns₁, hfair.of_runs hruns₁, hpc₁, hf₁, hclean₁⟩
  · exact hdone hruns₁ hf₁ hpc₁ hclean₁ hfresh₁
  · -- the entry has expired since the `GET`: the second round sets it
    obtain ⟨r₂, s₂, hruns₂, hf₂, hpc₂, hclean₂, habsent, -, hresult₂⟩ :=
      keep_round (hfair.of_runs hruns₁) (by rw [hf₁]; exact hclean₁) hpc₁ (by rw [hf₁]; exact hhost) hval
    obtain rfl := habsent habsent₁
    rw [hf₁] at hf₂ hclean₂
    rcases hresult₂ with hr | ⟨-, hfresh₂⟩ | ⟨hr, -⟩
    · cases hr
    · exact hdone (hruns₁.trans hruns₂) hf₂ hpc₂ hclean₂ hfresh₂
    · cases hr

/-- The loop of `KeepLock` comes to its end. -/
def Ends (cfg : Cfg) (databases : ℕ) (E : Env) (s₀ : State) : Prop :=
  ∃ s, Runs (State.step cfg databases E) s₀ s ∧ s.pc = .kept true

theorem keep_ends_of_fair {now : ℤ} {srv : Store} {conn : ℤ} (hvalid : ∀ d ∈ f.haveLockNum, Valid databases d)
    (hfair : Fair cfg databases E (.looping now srv conn f)) (hclean : Clean cfg f.haveLockNum now srv) :
    Ends cfg databases E (.looping now srv conn f) := by
  have hinit : Passing cfg databases E f 0 (.looping now srv conn f) := ⟨hfair, rfl, rfl, hclean⟩
  obtain ⟨s, hruns, hpass⟩ := Runs.loop (fun i s hi hI => keep_settles hI hvalid hi) hinit
  have hlast : s.step cfg databases E = some { s with pc := .kept true, db := none } :=
    keep_leaves hpass.pc (by rw [hpass.fields])
  exact ⟨_, hruns.trans (.one hlast), rfl⟩

/-- **Whether a renewal pass ends.**  It does not if a listed database holds another client's value that does not
expire; it does if none does, provided that the entries of the object do not expire between `EXISTS` and `GET`, nor one
that the pass has just set before the next call returns. -/
theorem renewal_pass_ends (cfg : Cfg) (databases : ℕ) (E : Env) (now : ℤ) (srv : Store) (conn : ℤ) (f : Fields)
    (hvalid : ∀ d ∈ f.haveLockNum, Valid databases d) (hq : E.Quiet)
    (hlast : ∀ d ∈ f.haveLockNum, ∀ e, srv.live now d cfg.key = some e → e.value ≠ cfg.value →
      ∀ s, Runs (State.step cfg databases E) (.looping now srv conn f) s →
        (E.world s.cmds s.now s.srv).1 ≤ e.expireAt) :
    (Ends cfg databases E (.looping now srv conn f) → Clean cfg f.haveLockNum now srv) ∧
    (Clean cfg f.haveLockNum now srv → Spares cfg databases E (.looping now srv conn f) →
      Settles cfg databases E (.looping now srv conn f) → Accepts cfg databases E (.looping now srv conn f) →
      Ends cfg databases E (.looping now srv conn f)) := by
  constructor
  · rintro ⟨s, hs, hpc⟩ d hd e he
    by_contra hv
    exact keep_never_ends hq hvalid hd he hv (hlast d hd e he hv) hs hpc
  · intro hclean hspares hsettles haccepts
    exact keep_ends_of_fair hvalid ⟨hq, hspares, hsettles, haccepts⟩ hclean

theorem still_quiet (shuffle : List ℤ) : (Env.still shuffle).Quiet := fun _ now _ => ⟨le_refl now, rfl⟩

theorem renewal_pass_ends_three :
    Ends twoHosts 2 (.still []) (.looping 5 oneLapsed 0 ⟨[1, 0, 1], true, true⟩) := by
  have h := renewal_pass_ends twoHosts 2 (.still []) 5 oneLapsed 0 ⟨[1, 0, 1], true, true⟩ (by decide)
    (still_quiet []) (fun _ _ _ he hv => absurd (oneLapsed_own he) hv)
  refine h.2 (fun _ _ _ he => oneLapsed_own he) (still_spares [] _) ?_ ?_
  · intro s _ e _ _ hlive
    exact hlive
  · intro s _ _
    decide

theorem step_now (h : s.step cfg databases E = some s') :
    s'.now = s.now ∨ s'.now = (E.world s.cmds s.now s.srv).1 := by
  rcases step_cases h with ⟨op, k, hc⟩ | ⟨hnow, -⟩
  · rcases step_call_cases hc h with ⟨q, -, rfl⟩ | ⟨r, -, rfl⟩
    · exact .inr rfl
    · exact .inr rfl
  · exact .inl hnow

theorem still_now {shuffle : List ℤ} (h : Runs (State.step cfg databases (.still shuffle)) s₀ s) : s.now = s₀.now := by
  refine Runs.invariant (I := fun t => t.now = s₀.now) (fun t t' ht hstep => ?_) h rfl
  rcases step_now hstep with hnow | hnow
  · exact hnow.trans ht
  · exact hnow.trans ht

/-- The value of the object is 2, the database holds 1. -/
def outsider : Cfg := ⟨[0], "k", "2", 30000, 20000⟩

/-- The pass never ends. -/
theorem renewal_pass_hangs : ¬ Ends outsider 1 (.still []) (.looping 5 oneEntry 0 acquired) := by
  rintro ⟨s, hs, hpc⟩
  have hvalid : ∀ host ∈ acquired.haveLockNum, Valid 1 host := by decide
  refine keep_never_ends (d := 0) (e := ⟨"1", 10⟩) (still_quiet []) hvalid (by decide) (by decide) (by decide)
    ?_ hs hpc
  intro t ht
  show t.now ≤ 10
  rw [still_now ht]
  decide

end DistributedLock.Sequential
