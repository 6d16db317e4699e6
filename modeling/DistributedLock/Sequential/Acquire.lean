import DistributedLock.Sequential.Undisturbed
import DistributedLock.DMutex.Counting

/-!
# The acquisition loop, undisturbed

The loop of `MainLockFunction` over a shuffled copy of `hosts_`.  `Acquiring` says what holds when the loop is at the
position `i`: `have_lock_num_` lists, without repetition, the databases among the first `i` that had no entry for the
key; they now hold the entry of the object, and nothing else has changed.  A database that is listed again is found
taken, by the object itself.
-/

set_option linter.unusedSectionVars false

namespace DistributedLock.Sequential

open Lib Redis DMutex

variable {cfg : Cfg} {databases : ℕ} {E : Env} {s s' : State} {c : Caller} {p : Pass} {start i : ℕ} {vec : List ℤ}
  {v₀ : Store}

/-- A `SetKeyValue` that has set the entry of the object in the database `d`. -/
def Return.Won (cfg : Cfg) (d : ℤ) (e : Return) : Prop := e.op = setOp cfg ∧ e.res = .kSetKeySucceed ∧ e.db = d

/-- The loop is at the position `i` of `vec`; `v₀` is what the databases showed before it. -/
structure Acquiring (cfg : Cfg) (databases : ℕ) (E : Env) (v₀ : Store) (c : Caller) (start : ℕ) (vec : List ℤ) (i : ℕ)
    (s : State) : Prop where
  undisturbed : Undisturbed cfg databases E s
  pc : s.pc = .mainTest c (passAt start vec i)
  clks : s.clks = 1
  nodup : s.fields.haveLockNum.Nodup
  mem : ∀ d, d ∈ s.fields.haveLockNum ↔ d ∈ vec.take i ∧ v₀ d cfg.key = none
  won : ∀ d ∈ s.fields.haveLockNum, ∃ e ∈ s.log, e.Won cfg d
  entry : ∀ d, ∀ e ∈ s.log, e.Won cfg d → s.view d cfg.key = some ⟨cfg.value, e.time + i32 cfg.lockValidityTime⟩
  rest : ∀ d k, ¬ (d ∈ s.fields.haveLockNum ∧ k = cfg.key) → s.view d k = v₀ d k

/-! ## One position -/

theorem mainTest_wins (hu : Undisturbed cfg databases E s) (hpx : 0 < i32 cfg.lockValidityTime)
    (hpc : s.pc = .mainTest c (passAt start vec i)) (hi : i < vec.length)
    (hvalid : Valid databases (passAt start vec i).host)
    (habsent : s.view (passAt start vec i).host cfg.key = none) :
    ∃ s' e t, Runs (State.step cfg databases E) s s' ∧ s'.pc = .mainTest c (passAt start vec (i + 1)) ∧
      s'.clks = s.clks ∧ s'.fields.haveLockNum = s.fields.haveLockNum ++ [(passAt start vec i).host] ∧
      s'.view = s.view.put (passAt start vec i).host cfg.key
        (some ⟨cfg.value, t + i32 cfg.lockValidityTime⟩) ∧
      s'.log = s.log ++ [e, ⟨some i, (passAt start vec i).host, setOp cfg, .kSetKeySucceed, t⟩] ∧
      e.op ≠ setOp cfg := by
  obtain ⟨s₁, hset, hposition, hsel⟩ := main_selects cfg E hpc hi hvalid
  have habsent₁ : s₁.view s₁.conn cfg.key = none := by
    rw [hsel.view hu, hsel.conn]
    exact habsent
  obtain ⟨s₂, hpc₂, hret⟩ := set_absent (hu.of_runs hsel.runs) hpx hset (point_of_none hsel.db _) habsent₁
  obtain ⟨t₁, hlog₁⟩ := hsel.log
  refine ⟨_, ⟨some i, s.conn, .selectDB (passAt start vec i).host, .kSelectDBSucceed, t₁⟩, s₂.now,
    hsel.runs.trans (hret.runs.trans (main_goes_on hpc₂ rfl)), rfl, ?_, ?_, ?_, ?_, ?_⟩
  · exact hret.clks.trans hsel.clks
  · show s₂.fields.haveLockNum ++ _ = _
    rw [hret.fields, hsel.fields]
  · show s₂.view = _
    rw [hret.view, hsel.view hu, hsel.conn]
    rfl
  · show s₂.log = _
    rw [hret.log, hlog₁, hsel.conn, hposition, List.append_assoc]
    rfl
  · simp [setOp]

theorem mainTest_taken {x : Entry} (hu : Undisturbed cfg databases E s) (hpx : 0 < i32 cfg.lockValidityTime)
    (hpc : s.pc = .mainTest c (passAt start vec i)) (hi : i < vec.length)
    (hvalid : Valid databases (passAt start vec i).host)
    (hpresent : s.view (passAt start vec i).host cfg.key = some x) :
    ∃ s' e e', Runs (State.step cfg databases E) s s' ∧ s'.pc = .mainTest c (passAt start vec (i + 1)) ∧
      s'.clks = s.clks ∧ s'.fields = s.fields ∧ s'.view = s.view ∧ s'.log = s.log ++ [e, e'] ∧
      e.res ≠ .kSetKeySucceed ∧ e'.res ≠ .kSetKeySucceed := by
  obtain ⟨s₁, hset, -, hsel⟩ := main_selects cfg E hpc hi hvalid
  have hpresent₁ : s₁.view s₁.conn cfg.key = some x := by
    rw [hsel.view hu, hsel.conn]
    exact hpresent
  obtain ⟨s₂, hpc₂, hret⟩ := set_present (hu.of_runs hsel.runs) hpx hset (point_of_none hsel.db _) hpresent₁
  obtain ⟨t₁, hlog₁⟩ := hsel.log
  refine ⟨_, ⟨some i, s.conn, .selectDB (passAt start vec i).host, .kSelectDBSucceed, t₁⟩,
    ⟨position s₁.pc, s₁.conn, setOp cfg, .kKeyExist, s₂.now⟩,
    hsel.runs.trans (hret.runs.trans (main_goes_on hpc₂ rfl)), rfl, ?_, ?_, ?_, ?_, ?_, ?_⟩
  · exact hret.clks.trans hsel.clks
  · exact hret.fields.trans hsel.fields
  · exact hret.view.trans (hsel.view hu)
  · show s₂.log = _
    rw [hret.log, hlog₁, List.append_assoc]
    rfl
  · simp
  · simp

/-! ## The loop -/

theorem Acquiring.wins (h : Acquiring cfg databases E v₀ c start vec i s) (hpx : 0 < i32 cfg.lockValidityTime)
    (hi : i < vec.length) (hvalid : Valid databases ((passAt start vec i).host))
    (habsent : s.view ((passAt start vec i).host) cfg.key = none) :
    ∃ s', Runs (State.step cfg databases E) s s' ∧ Acquiring cfg databases E v₀ c start vec (i + 1) s' := by
  obtain ⟨s', e, t, hruns, hpc, hclks, hhave, hview, hlog, he⟩ :=
    mainTest_wins h.undisturbed hpx h.pc hi hvalid habsent
  have htake := Pass.take_next (p := passAt start vec i) hi
  generalize (passAt start vec i).host = host at habsent hhave hview hlog htake
  -- the position is the first one of its database
  have hnew : host ∉ s.fields.haveLockNum := by
    intro hmem
    obtain ⟨w, hw, hwon⟩ := h.won host hmem
    rw [h.entry host w hw hwon] at habsent
    cases habsent
  have hfree : v₀ host cfg.key = none := by
    rw [← h.rest host cfg.key (fun hh => hnew hh.1), habsent]
  refine ⟨s', hruns, h.undisturbed.of_runs hruns, hpc, hclks.trans h.clks, ?_, ?_, ?_, ?_, ?_⟩
  · rw [hhave, ← List.concat_eq_append]
    exact h.nodup.concat hnew
  · intro d
    have hmem := h.mem d
    rw [hhave, htake, List.mem_append, List.mem_append, List.mem_singleton, hmem]
    constructor
    · rintro (⟨hd, hnone⟩ | rfl)
      · exact ⟨.inl hd, hnone⟩
      · exact ⟨.inr rfl, hfree⟩
    · rintro ⟨hd | rfl, hnone⟩
      · exact .inl ⟨hd, hnone⟩
      · exact .inr rfl
  · intro d hd
    rw [hhave, List.mem_append, List.mem_singleton] at hd
    rw [hlog]
    rcases hd with hd | rfl
    · obtain ⟨w, hw, hwon⟩ := h.won d hd
      exact ⟨w, List.mem_append_left _ hw, hwon⟩
    · exact ⟨_, List.mem_append_right _ (List.mem_cons_of_mem _ List.mem_cons_self), rfl, rfl, rfl⟩
  · intro d w hw hwon
    rw [hlog, List.mem_append] at hw
    rw [hview]
    rcases hw with hw | hw
    · -- an earlier success, of another database
      have hentry := h.entry d w hw hwon
      have hne : d ≠ host := by
        rintro rfl
        rw [habsent] at hentry
        cases hentry
      rw [Store.put, if_neg (fun hh => hne hh.1), hentry]
    · rcases List.mem_pair.mp hw with rfl | rfl
      · exact absurd hwon.1 he
      · obtain rfl : host = d := hwon.2.2
        rw [Store.put, if_pos ⟨rfl, rfl⟩]
  · intro d k hdk
    rw [hhave, List.mem_append, List.mem_singleton] at hdk
    have hne : ¬ (d = host ∧ k = cfg.key) := fun hh => hdk ⟨.inr hh.1, hh.2⟩
    rw [hview, Store.put, if_neg hne]
    exact h.rest d k fun hh => hdk ⟨.inl hh.1, hh.2⟩

theorem Acquiring.taken {x : Entry} (h : Acquiring cfg databases E v₀ c start vec i s)
    (hpx : 0 < i32 cfg.lockValidityTime) (hi : i < vec.length)
    (hvalid : Valid databases ((passAt start vec i).host))
    (hpresent : s.view ((passAt start vec i).host) cfg.key = some x) :
    ∃ s', Runs (State.step cfg databases E) s s' ∧ Acquiring cfg databases E v₀ c start vec (i + 1) s' := by
  obtain ⟨s', e, e', hruns, hpc, hclks, hf, hview, hlog, he, he'⟩ :=
    mainTest_taken h.undisturbed hpx h.pc hi hvalid hpresent
  have htake := Pass.take_next (p := passAt start vec i) hi
  generalize (passAt start vec i).host = host at hpresent htake
  -- a database without an entry before the loop that has one now was taken by the loop
  have hheld : v₀ host cfg.key = none → host ∈ vec.take i := by
    intro hnone
    by_contra hnot
    have hrest := h.rest host cfg.key fun hh => hnot ((h.mem host).mp hh.1).1
    rw [hpresent, hnone] at hrest
    cases hrest
  refine ⟨s', hruns, h.undisturbed.of_runs hruns, hpc, hclks.trans h.clks, hf ▸ h.nodup, ?_, ?_, ?_, ?_⟩
  · intro d
    rw [hf, h.mem d, htake, List.mem_append, List.mem_singleton]
    constructor
    · rintro ⟨hd, hnone⟩
      exact ⟨.inl hd, hnone⟩
    · rintro ⟨hd | rfl, hnone⟩
      · exact ⟨hd, hnone⟩
      · exact ⟨hheld hnone, hnone⟩
  · intro d hd
    obtain ⟨w, hw, hwon⟩ := h.won d (hf ▸ hd)
    exact ⟨w, by rw [hlog]; exact List.mem_append_left _ hw, hwon⟩
  · intro d w hw hwon
    rw [hview]
    rw [hlog, List.mem_append] at hw
    rcases hw with hw | hw
    · exact h.entry d w hw hwon
    · rcases List.mem_pair.mp hw with rfl | rfl
      · exact absurd hwon.2.1 he
      · exact absurd hwon.2.1 he'
  · intro d k hdk
    rw [hview]
    exact h.rest d k (hf ▸ hdk)

/-- **The acquisition loop.** -/
theorem acquiring_loop (hpx : 0 < i32 cfg.lockValidityTime) (hvalid : ∀ host ∈ vec, Valid databases host)
    (h : Acquiring cfg databases E v₀ c start vec 0 s) :
    ∃ s', Runs (State.step cfg databases E) s s' ∧ Acquiring cfg databases E v₀ c start vec vec.length s' := by
  refine Runs.loop ?_ h
  intro i s hi hI
  have hhost := hvalid _ (Pass.host_mem (p := passAt start vec i) hi)
  cases hx : s.view ((passAt start vec i).host) cfg.key with
  | none => exact hI.wins hpx hi hhost hx
  | some x => exact hI.taken hpx hi hhost hx

end DistributedLock.Sequential
