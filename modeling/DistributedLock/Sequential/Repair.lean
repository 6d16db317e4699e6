import DistributedLock.Sequential.Undisturbed

/-!
# A renewal pass repairs the quorum

A renewal pass over databases that show the entry of the object or no entry for the key, undisturbed.  `UpdateExpire`
sets the entry where there is none, and reports `kSetKeySucceed`; the loop of `KeepLock` takes this for a failure and
visits the position again, and the second call renews the entry that the first one has set.  So each position takes one
call or two (`keep_position`), and each database ends with an entry that lives from its last renewal on
(`renewal_repairs`).
-/

set_option linter.unusedSectionVars false

namespace DistributedLock.Redis

theorem Store.put_put (s : Store) (db : ℤ) (key : String) (x y : Option Entry) :
    (s.put db key x).put db key y = s.put db key y := by
  funext d k
  unfold Store.put
  split <;> rfl

end DistributedLock.Redis

namespace DistributedLock.Sequential

open Lib Redis DMutex

variable {cfg : Cfg} {databases : ℕ} {E : Env} {s s' : State} {v₀ : Store} {i : ℕ} {host : ℤ}

/-- The `UpdateExpire` calls that have returned. -/
def updates (cfg : Cfg) (log : List Return) : List Return := log.filter fun e => e.op = updateOp cfg

theorem updates_append (log log' : List Return) :
    updates cfg (log ++ log') = updates cfg log ++ updates cfg log' := by
  simp [updates]

/-! ## One position -/

/-- One `UpdateExpire` call of the loop, where the database shows an entry of the object or none. -/
theorem keep_call (hu : Undisturbed cfg databases E s) (hpx : 0 < i32 cfg.lockValidityTime)
    (hpc : s.pc = .keepTest false i) (hi : i < s.fields.haveLockNum.length)
    (hvalid : Valid databases s.fields.haveLockNum[i])
    (hown : ∀ e, s.view s.fields.haveLockNum[i] cfg.key = some e → e.value = cfg.value) :
    ∃ s' r t, Runs (State.step cfg databases E) s s' ∧ s'.fields = s.fields ∧
      s'.pc = .keepTest false (if r = .kUpdateKeySucceed then i + 1 else i) ∧
      s'.view = s.view.put s.fields.haveLockNum[i] cfg.key (some ⟨cfg.value, t + i32 cfg.lockValidityTime⟩) ∧
      updates cfg s'.log = updates cfg s.log ++ [⟨some i, s.fields.haveLockNum[i], updateOp cfg, r, t⟩] ∧
      (s.view s.fields.haveLockNum[i] cfg.key ≠ none → r = .kUpdateKeySucceed) := by
  obtain ⟨s₁, hupdate, hposition, hsel⟩ := keep_selects cfg E hpc hi hvalid
  have hu₁ := hu.of_runs hsel.runs
  have hview₁ := hsel.view hu
  -- the call itself, in the two cases
  have hcall : ∃ r s₂, s₂.pc = .keepUnlock i r ∧ Returned cfg databases E s₁ s₂ (updateOp cfg) r
      (s₁.view.put s₁.conn cfg.key (some (s₂.fresh cfg))) ∧
      (s.view s.fields.haveLockNum[i] cfg.key ≠ none → r = .kUpdateKeySucceed) := by
    cases hx : s.view s.fields.haveLockNum[i] cfg.key with
    | none =>
      have hx₁ : s₁.view s₁.conn cfg.key = none := by
        rw [hview₁, hsel.conn, hx]
      obtain ⟨s₂, hpc₂, hret⟩ := update_absent hu₁ hpx hupdate hsel.db hx₁
      exact ⟨_, s₂, hpc₂, hret, fun hne => absurd rfl hne⟩
    | some e =>
      have hx₁ : s₁.view s₁.conn cfg.key = some e := by
        rw [hview₁, hsel.conn, hx]
      obtain ⟨s₂, hpc₂, hret⟩ := update_own hu₁ hpx hupdate hsel.db hx₁ (hown e hx)
      exact ⟨_, s₂, hpc₂, hret, fun _ => rfl⟩
  obtain ⟨r, s₂, hpc₂, hret, hr⟩ := hcall
  obtain ⟨t₁, hlog₁⟩ := hsel.log
  refine ⟨_, r, s₂.now, hsel.runs.trans (hret.runs.trans (.one (keep_goes_on hpc₂))), ?_, rfl, ?_, ?_, hr⟩
  · exact hret.fields.trans hsel.fields
  · show s₂.view = _
    rw [hret.view, hview₁, hsel.conn]
    rfl
  · show updates cfg s₂.log = _
    rw [hret.log, hlog₁, hsel.conn, hposition, updates_append, updates_append]
    simp [updates, updateOp]

/-- The calls of one position: one or two, the last of them a renewal at the time `t`. -/
structure Renewed (cfg : Cfg) (i : ℕ) (host t : ℤ) (calls : List Return) : Prop where
  length : calls.length ≤ 2
  here : ∀ e ∈ calls, e.position = some i ∧ e.db = host
  last : calls.getLast? = some ⟨some i, host, updateOp cfg, .kUpdateKeySucceed, t⟩

/-- **One position of the pass.** -/
theorem keep_position (hu : Undisturbed cfg databases E s) (hpx : 0 < i32 cfg.lockValidityTime)
    (hpc : s.pc = .keepTest false i) (hi : i < s.fields.haveLockNum.length)
    (hvalid : Valid databases s.fields.haveLockNum[i])
    (hown : ∀ e, s.view s.fields.haveLockNum[i] cfg.key = some e → e.value = cfg.value) :
    ∃ s' t calls, Runs (State.step cfg databases E) s s' ∧ s'.fields = s.fields ∧ s'.pc = .keepTest false (i + 1) ∧
      s'.view = s.view.put s.fields.haveLockNum[i] cfg.key (some ⟨cfg.value, t + i32 cfg.lockValidityTime⟩) ∧
      updates cfg s'.log = updates cfg s.log ++ calls ∧ Renewed cfg i s.fields.haveLockNum[i] t calls := by
  obtain ⟨s₁, r₁, t₁, hruns₁, hf₁, hpc₁, hview₁, hups₁, -⟩ := keep_call hu hpx hpc hi hvalid hown
  by_cases hr₁ : r₁ = .kUpdateKeySucceed
  · subst hr₁
    refine ⟨s₁, t₁, _, hruns₁, hf₁, hpc₁, hview₁, hups₁, ?_, ?_, ?_⟩
    · simp
    · simp
    · rfl
  · -- the first call has set the entry, the second one renews it
    rw [if_neg hr₁] at hpc₁
    have hfresh : s₁.view s.fields.haveLockNum[i] cfg.key = some ⟨cfg.value, t₁ + i32 cfg.lockValidityTime⟩ := by
      rw [hview₁, Store.put, if_pos ⟨rfl, rfl⟩]
    simp only [← hf₁] at hi hvalid hfresh hview₁ hups₁ ⊢
    have hown₁ : ∀ e, s₁.view s₁.fields.haveLockNum[i] cfg.key = some e → e.value = cfg.value := by
      intro e he
      rw [hfresh] at he
      cases he
      rfl
    obtain ⟨s₂, r₂, t₂, hruns₂, hf₂, hpc₂, hview₂, hups₂, hr₂⟩ :=
      keep_call (hu.of_runs hruns₁) hpx hpc₁ hi hvalid hown₁
    obtain rfl : r₂ = .kUpdateKeySucceed := hr₂ (by rw [hfresh]; simp)
    rw [hups₁, List.append_assoc] at hups₂
    refine ⟨s₂, t₂, _, hruns₁.trans hruns₂, hf₂, hpc₂, ?_, hups₂, ?_, ?_, ?_⟩
    · rw [hview₂, hview₁, Store.put_put]
    · simp
    · simp
    · rfl

/-! ## The pass -/

def callsAt (cfg : Cfg) (i : ℕ) (log : List Return) : List Return :=
  (updates cfg log).filter fun e => e.position = some i

/-- The last `UpdateExpire` in the database `d` was a renewal, and the database shows its entry with a lifetime from
then on. -/
def Refreshed (cfg : Cfg) (lifetime : ℤ) (s : State) (d : ℤ) : Prop :=
  ∃ e, ((updates cfg s.log).filter fun e => e.db = d).getLast? = some e ∧ e.res = .kUpdateKeySucceed ∧
    s.view d cfg.key = some ⟨cfg.value, e.time + lifetime⟩

/-- The pass is at the position `i`; `v₀` is what the databases showed before it. -/
structure Repairing (cfg : Cfg) (databases : ℕ) (E : Env) (v₀ : Store) (f : Fields) (i : ℕ) (s : State) : Prop where
  undisturbed : Undisturbed cfg databases E s
  pc : s.pc = .keepTest false i
  fields : s.fields = f
  calls : ∀ j, (callsAt cfg j s.log).length ≤ 2
  ahead : ∀ j, i ≤ j → callsAt cfg j s.log = []
  refreshed : ∀ d ∈ f.haveLockNum.take i, Refreshed cfg (i32 cfg.lockValidityTime) s d
  own : ∀ d ∈ f.haveLockNum, ∀ e, s.view d cfg.key = some e → e.value = cfg.value
  rest : ∀ d k, ¬ (d ∈ f.haveLockNum ∧ k = cfg.key) → s.view d k = v₀ d k

theorem Renewed.filter_position {t : ℤ} {calls : List Return} (h : Renewed cfg i host t calls) {j : ℕ} (hj : j ≠ i) :
    calls.filter (fun e => e.position = some j) = [] := by
  rw [List.filter_eq_nil_iff]
  intro e he
  rw [(h.here e he).1]
  simpa using Ne.symm hj

theorem Renewed.filter_db {t : ℤ} {calls : List Return} (h : Renewed cfg i host t calls) {d : ℤ} (hd : d ≠ host) :
    calls.filter (fun e => e.db = d) = [] := by
  rw [List.filter_eq_nil_iff]
  intro e he
  rw [(h.here e he).2]
  simpa using Ne.symm hd

theorem Renewed.filter_host {t : ℤ} {calls : List Return} (h : Renewed cfg i host t calls) :
    calls.filter (fun e => e.db = host) = calls := by
  rw [List.filter_eq_self]
  intro e he
  simpa using (h.here e he).2

theorem Repairing.step {f : Fields} (h : Repairing cfg databases E v₀ f i s) (hpx : 0 < i32 cfg.lockValidityTime)
    (hvalid : ∀ d ∈ f.haveLockNum, Valid databases d) (hi : i < f.haveLockNum.length) :
    ∃ s', Runs (State.step cfg databases E) s s' ∧ Repairing cfg databases E v₀ f (i + 1) s' := by
  obtain ⟨hu, hpc, rfl, hcalls, hahead, hrefreshed, hown, hrest⟩ := h
  have hmem := List.getElem_mem hi
  have htake := List.take_succ_eq_append_getElem hi
  obtain ⟨s', t, calls, hruns, hf, hpc', hview, hups, hren⟩ :=
    keep_position hu hpx hpc hi (hvalid _ hmem) (hown _ hmem)
  generalize s.fields.haveLockNum[i] = host at hmem htake hview hren
  have hcallsAt : ∀ j, callsAt cfg j s'.log =
      callsAt cfg j s.log ++ calls.filter fun e => e.position = some j := by
    intro j
    rw [callsAt, hups, List.filter_append, callsAt]
  refine ⟨s', hruns, hu.of_runs hruns, hpc', hf, ?_, ?_, ?_, ?_, ?_⟩
  · intro j
    rw [hcallsAt j]
    by_cases hj : j = i
    · have hle := List.length_filter_le (fun e : Return => decide (e.position = some j)) calls
      have hlen := hren.length
      rw [hahead j (by omega), List.nil_append]
      omega
    · rw [hren.filter_position hj, List.append_nil]
      exact hcalls j
  · intro j hj
    rw [hcallsAt j, hren.filter_position (by omega), List.append_nil]
    exact hahead j (by omega)
  · intro d hd
    rw [htake, List.mem_append, List.mem_singleton] at hd
    by_cases hdh : d = host
    · subst hdh
      refine ⟨⟨some i, d, updateOp cfg, .kUpdateKeySucceed, t⟩, ?_, rfl, ?_⟩
      · rw [hups, List.filter_append, hren.filter_host, List.getLast?_append, hren.last]
        rfl
      · rw [hview, Store.put, if_pos ⟨rfl, rfl⟩]
    · obtain ⟨e, he, hres, hv⟩ := hrefreshed d (hd.resolve_right hdh)
      refine ⟨e, ?_, hres, ?_⟩
      · rw [hups, List.filter_append, hren.filter_db hdh, List.append_nil]
        exact he
      · rw [hview, Store.put, if_neg (fun hh => hdh hh.1), hv]
  · intro d hd e he
    rw [hview, Store.put] at he
    split at he
    · cases he
      rfl
    · exact hown d hd e he
  · intro d k hdk
    have hne : ¬ (d = host ∧ k = cfg.key) := fun hh => hdk ⟨hh.1 ▸ hmem, hh.2⟩
    rw [hview, Store.put, if_neg hne]
    exact hrest d k hdk

/-- **A renewal pass repairs the quorum.** -/
theorem renewal_repairs (cfg : Cfg) (databases : ℕ) (E : Env) (now : ℤ) (srv : Store) (conn : ℤ) (f : Fields)
    (hvalid : ∀ d ∈ f.haveLockNum, Valid databases d) (hpos : 1 ≤ cfg.lockValidityTime)
    (hint : cfg.lockValidityTime ≤ 2 ^ 31 - 1) (hcontinue : f.lockContinue = true) (hstatus : f.lockStatus = true)
    (hown : ∀ d ∈ f.haveLockNum, ∀ e, srv.live now d cfg.key = some e → e.value = cfg.value)
    (hu : Undisturbed cfg databases E (.keeping now srv conn f)) :
    ∃ s, Runs (State.step cfg databases E) (.keeping now srv conn f) s ∧ s.pc = .kept true ∧
      (∀ i, (callsAt cfg i s.log).length ≤ 2) ∧
      (∀ d ∈ f.haveLockNum, Refreshed cfg cfg.lockValidityTime s d) ∧
      ∀ d k, ¬ (d ∈ f.haveLockNum ∧ k = cfg.key) → s.view d k = srv.live now d k := by
  have hi32 : i32 cfg.lockValidityTime = cfg.lockValidityTime := i32_of_lt (by omega) (by omega)
  have hpx : 0 < i32 cfg.lockValidityTime := by omega
  have hruns₀ := keep_enters cfg databases E now srv conn hcontinue hstatus
  have hinit : Repairing cfg databases E (srv.alive now) f 0
      { State.keeping now srv conn f with pc := .keepTest false 0 } := by
    refine ⟨hu.of_runs hruns₀, rfl, rfl, ?_, ?_, ?_, hown, ?_⟩
    · intro j
      exact Nat.zero_le 2
    · intro j _
      rfl
    · intro d hd
      cases hd
    · intro d k _
      rfl
  obtain ⟨s, hruns, hrep⟩ := Runs.loop (fun i s hi hI => Repairing.step hI hpx hvalid hi) hinit
  have hlast : s.step cfg databases E = some { s with pc := .kept true, db := none } :=
    keep_leaves hrep.pc (by rw [hrep.fields])
  refine ⟨_, hruns₀.trans (hruns.trans (.one hlast)), rfl, hrep.calls, ?_, hrep.rest⟩
  intro d hd
  have hrefreshed := hrep.refreshed d (by rw [List.take_length]; exact hd)
  rw [hi32] at hrefreshed
  exact hrefreshed

def twoHosts : Cfg := ⟨[0, 1], "k", "1", 30000, 20000⟩

/-- The database 0 holds the entry of the object, the database 1 has lost it. -/
def oneLapsed : Store := fun d k => if d = 0 ∧ k = "k" then some ⟨"1", 10⟩ else none

theorem oneLapsed_own {d : ℤ} {e : Entry} (he : oneLapsed.live 5 d twoHosts.key = some e) :
    e.value = twoHosts.value := by
  have hentry := (Store.live_eq_some.mp he).1
  unfold oneLapsed at hentry
  split at hentry
  · cases hentry
    rfl
  · cases hentry

/-- Three positions on the two databases. -/
theorem renewal_repairs_three :
    ∃ s, Runs (State.step twoHosts 2 (.still [])) (.keeping 5 oneLapsed 0 ⟨[1, 0, 1], true, true⟩) s ∧
      s.pc = .kept true ∧ ∀ d ∈ [1, 0, 1], Refreshed twoHosts 30000 s d := by
  obtain ⟨s, hruns, hpc, -, hrefreshed, -⟩ := renewal_repairs twoHosts 2 (.still []) 5 oneLapsed 0
    ⟨[1, 0, 1], true, true⟩ (by decide) (by decide) (by decide) rfl rfl (fun _ _ _ he => oneLapsed_own he)
    (still_undisturbed _ _)
  exact ⟨s, hruns, hpc, hrefreshed⟩

end DistributedLock.Sequential
