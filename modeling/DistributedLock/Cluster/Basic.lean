import DistributedLock.Cluster.Defs
import DistributedLock.DMutex.Points

/-!
# What a step can do, and the discipline of `mtx_`

* `Acts`: the cases of an instruction step, with everything each of them changes; `act_cases` is the inversion
  every invariant is proved from;
* `MutexInv`: a thread owns `mtx_` of its process exactly at the program points that say so (`Pc.owned`), and
  so never two threads of one process at once.
-/

set_option linter.unusedSectionVars false

namespace DistributedLock.Cluster

open Lib Redis DMutex

variable {D : DBInterface} {ι π ω : Type} [DecidableEq ι] [DecidableEq π] [DecidableEq ω] {O : Objects ι π}
  {s s' : State D ι π ω} {θ : Thread ι ω} {fr : Frame D} {inp : Input}

/-! ## Inversion -/

/-- The instruction steps of the thread `θ` at the frame `fr`. -/
inductive Acts (O : Objects ι π) (s : State D ι π ω) (θ : Thread ι ω) (fr : Frame D) :
    Input → State D ι π ω → Prop
  | tau {f : Fields} {pc : Pc} (hc : code (O.cfg θ.obj) (s.fields θ.obj) fr.pc = .tau f pc) :
      Acts O s θ fr .none ((s.setFields θ.obj f).goto θ pc none)
  | lock {pc : Pc} (hc : code (O.cfg θ.obj) (s.fields θ.obj) fr.pc = .lock pc)
      (hfree : s.mtx (O.proc θ.obj) = none) :
      Acts O s θ fr .none ((s.setMtx (O.proc θ.obj) (some θ)).goto θ pc none)
  | unlock {pc : Pc} (hc : code (O.cfg θ.obj) (s.fields θ.obj) fr.pc = .unlock pc) :
      Acts O s θ fr .none ((s.setMtx (O.proc θ.obj) none).goto θ pc none)
  | more {op : DBOp} {k : DBResult → Pc} {fault : Fault} {q : D.Pc}
      (hc : code (O.cfg θ.obj) (s.fields θ.obj) fr.pc = .call op k)
      (hr : (dbStep s θ.obj fr.db op fault).resp = .more q) :
      Acts O s θ fr (.db fault) ((afterDb s θ.obj fr.db op fault).goto θ fr.pc (some q))
  | done {op : DBOp} {k : DBResult → Pc} {fault : Fault} {r : DBResult}
      (hc : code (O.cfg θ.obj) (s.fields θ.obj) fr.pc = .call op k)
      (hr : (dbStep s θ.obj fr.db op fault).resp = .done r) :
      Acts O s θ fr (.db fault) ((afterDb s θ.obj fr.db op fault).goto θ (k r) none)
  | raise {op : DBOp} {k : DBResult → Pc} {fault : Fault} {what : String}
      (hc : code (O.cfg θ.obj) (s.fields θ.obj) fr.pc = .call op k)
      (hr : (dbStep s θ.obj fr.db op fault).resp = .raise what) :
      Acts O s θ fr (.db fault) ((afterDb s θ.obj fr.db op fault).leave (O.proc θ.obj) θ)
  | clock {k : ℤ → Pc} {t : ℤ} (hc : code (O.cfg θ.obj) (s.fields θ.obj) fr.pc = .clock k) :
      Acts O s θ fr (.clock t) (s.goto θ (k t) none)
  | shuffle {k : List ℤ → Pc} {v : List ℤ} (hc : code (O.cfg θ.obj) (s.fields θ.obj) fr.pc = .shuffle k)
      (hv : v.Perm (O.cfg θ.obj).hosts) : Acts O s θ fr (.shuffle v) (s.goto θ (k v) none)
  | pushEvent {f : Fields} {period : ℤ} {pc : Pc}
      (hc : code (O.cfg θ.obj) (s.fields θ.obj) fr.pc = .pushEvent f period pc) :
      Acts O s θ fr .none ((s.setFields θ.obj f).goto θ pc none)
  | ret {res : Bool} (hc : code (O.cfg θ.obj) (s.fields θ.obj) fr.pc = .ret res) :
      Acts O s θ fr .none
        ((s.setHeld θ.obj (heldAfter fr.pc (s.held θ.obj))).leave (O.proc θ.obj) θ)
  | throw (hc : code (O.cfg θ.obj) (s.fields θ.obj) fr.pc = .throw) :
      Acts O s θ fr .none (s.leave (O.proc θ.obj) θ)

/-- **Inversion of an instruction step.** -/
theorem act_cases (h : act O s θ inp = some s') : ∃ fr, s.thr θ = some fr ∧ Acts O s θ fr inp s' := by
  unfold act at h
  cases hfr : s.thr θ with
  | none => simp [hfr] at h
  | some fr =>
    refine ⟨fr, rfl, ?_⟩
    simp only [hfr] at h
    cases hc : code (O.cfg θ.obj) (s.fields θ.obj) fr.pc with
    | tau f pc =>
      cases inp <;> simp only [hc, Option.some.injEq, reduceCtorEq] at h
      subst h; exact .tau hc
    | lock pc =>
      cases inp <;> simp only [hc, reduceCtorEq] at h
      split at h
      · rename_i hfree
        simp only [Option.some.injEq] at h
        subst h; exact .lock hc hfree
      · cases h
    | unlock pc =>
      cases inp <;> simp only [hc, Option.some.injEq, reduceCtorEq] at h
      subst h; exact .unlock hc
    | call op k =>
      cases inp with
      | db fault =>
        simp only [hc] at h
        cases hr : (dbStep s θ.obj fr.db op fault).resp with
        | more q =>
          simp only [hr, Option.some.injEq] at h
          subst h; exact .more hc hr
        | done r =>
          simp only [hr, Option.some.injEq] at h
          subst h; exact .done hc hr
        | raise what =>
          simp only [hr, Option.some.injEq] at h
          subst h; exact .raise hc hr
      | _ => simp [hc] at h
    | clock k =>
      cases inp <;> simp only [hc, Option.some.injEq, reduceCtorEq] at h
      subst h; exact .clock hc
    | shuffle k =>
      cases inp <;> simp only [hc, reduceCtorEq] at h
      split at h
      · rename_i hv
        simp only [Option.some.injEq] at h
        subst h; exact .shuffle hc hv
      · cases h
    | pushEvent f period pc =>
      cases inp <;> simp only [hc, Option.some.injEq, reduceCtorEq] at h
      subst h; exact .pushEvent hc
    | ret res =>
      cases inp <;> simp only [hc, Option.some.injEq, reduceCtorEq] at h
      subst h; exact .ret hc
    | throw =>
      cases inp <;> simp only [hc, Option.some.injEq, reduceCtorEq] at h
      subst h; exact .throw hc

theorem act_thr (h : act O s θ inp = some s') {θ' : Thread ι ω} (hθ : θ' ≠ θ) : s'.thr θ' = s.thr θ' := by
  obtain ⟨fr, -, ha⟩ := act_cases h
  have hthr : ∃ x, s'.thr = Function.update s.thr θ x := by
    cases ha <;> exact ⟨_, rfl⟩
  obtain ⟨x, hx⟩ := hthr
  rw [hx, Function.update_of_ne hθ]

theorem act_ret (h : act O s θ inp = some s') (hfr : s.thr θ = some fr) {res : Bool}
    (hcode : code (O.cfg θ.obj) (s.fields θ.obj) fr.pc = .ret res) :
    s' = (s.setHeld θ.obj (heldAfter fr.pc (s.held θ.obj))).leave (O.proc θ.obj) θ := by
  unfold act at h
  simp only [hfr, hcode] at h
  cases inp <;> cases h
  rfl

theorem act_tau (h : act O s θ inp = some s') (hfr : s.thr θ = some fr) {f : Fields} {pc : Pc}
    (hcode : code (O.cfg θ.obj) (s.fields θ.obj) fr.pc = .tau f pc) :
    s' = (s.setFields θ.obj f).goto θ pc none := by
  unfold act at h
  simp only [hfr, hcode] at h
  cases inp <;> cases h
  rfl

theorem act_clock (h : act O s θ inp = some s') (hfr : s.thr θ = some fr) {k : ℤ → Pc}
    (hcode : code (O.cfg θ.obj) (s.fields θ.obj) fr.pc = .clock k) :
    ∃ t, inp = .clock t ∧ s' = s.goto θ (k t) none := by
  unfold act at h
  simp only [hfr, hcode] at h
  cases inp <;> cases h
  exact ⟨_, rfl, rfl⟩

theorem leadsTo_of_act (hs : act O s θ inp = some s') (hfr : s.thr θ = some fr) {fr' : Frame D}
    (hfr' : s'.thr θ = some fr') :
    fr'.pc = fr.pc ∨ (code (O.cfg θ.obj) (s.fields θ.obj) fr.pc).LeadsTo fr'.pc := by
  obtain ⟨fr₀, hfr₀, ha⟩ := act_cases hs
  rw [hfr] at hfr₀
  cases hfr₀
  cases ha with
  | tau hc | lock hc _ | unlock hc | pushEvent hc =>
    simp only [State.goto_thr, Function.update_self, Option.some.injEq] at hfr'
    subst hfr'
    rw [hc]
    exact .inr rfl
  | done hc hr | clock hc | shuffle hc hr =>
    simp only [State.goto_thr, Function.update_self, Option.some.injEq] at hfr'
    subst hfr'
    rw [hc]
    exact .inr ⟨_, rfl⟩
  | more hc hr =>
    simp only [State.goto_thr, Function.update_self, Option.some.injEq] at hfr'
    subst hfr'
    exact .inl rfl
  | raise hc hr | ret hc | throw hc => simp at hfr'

/-- **Inversion of a step.** -/
theorem next_cases {l : Label ι ω} (h : next O s l = some s') :
    (∃ t, l = .tick t ∧ s.now ≤ t ∧ s' = { s with now := t }) ∨
    (∃ i c, l = .call i c ∧ s.thr (.caller i) = none ∧ s' = s.enter i c) ∨
    (∃ i w, l = .keep i w ∧ s.thr (.worker i w) = none ∧ s' = s.goto (.worker i w) .keepLock none) ∨
    ∃ θ inp, l = .act θ inp ∧ act O s θ inp = some s' := by
  cases l with
  | tick t =>
    simp only [next] at h
    split at h
    · rename_i ht; cases h; exact .inl ⟨t, rfl, ht, rfl⟩
    · cases h
  | call i c =>
    simp only [next] at h
    split at h
    · rename_i hn; cases h
      exact .inr (.inl ⟨i, c, rfl, Option.isNone_iff_eq_none.mp hn, rfl⟩)
    · cases h
  | keep i w =>
    simp only [next] at h
    split at h
    · rename_i hn; cases h
      exact .inr (.inr (.inl ⟨i, w, rfl, Option.isNone_iff_eq_none.mp hn, rfl⟩))
    · cases h
  | act θ inp => exact .inr (.inr (.inr ⟨θ, inp, rfl, h⟩))

theorem next_clock {t : ℤ} (h : next O s (.act θ (.clock t)) = some s') :
    ∃ fr k, s.thr θ = some fr ∧ code (O.cfg θ.obj) (s.fields θ.obj) fr.pc = .clock k ∧
      s' = s.goto θ (k t) none := by
  obtain ⟨fr, hfr, ha⟩ := act_cases h
  cases ha with
  | clock hc => exact ⟨fr, _, hfr, hc, rfl⟩

theorem next_srv {l : Label ι ω} (h : next O s l = some s') :
    (∃ t, l = .tick t ∧ s.now ≤ t ∧ s'.now = t ∧ s'.srv = s.srv ∧ s'.conn = s.conn) ∨
    (s'.now = s.now ∧ s'.srv = s.srv ∧ s'.conn = s.conn) ∨
    ∃ θ fr fault op k, l = .act θ (.db fault) ∧ s.thr θ = some fr ∧
      code (O.cfg θ.obj) (s.fields θ.obj) fr.pc = .call op k ∧ s'.now = s.now ∧
      s'.srv = (dbStep s θ.obj fr.db op fault).store ∧
      s'.conn = Function.update s.conn θ.obj (dbStep s θ.obj fr.db op fault).db := by
  rcases next_cases h with ⟨t, rfl, ht, rfl⟩ | ⟨i, c, rfl, hn, rfl⟩ | ⟨i, w, rfl, hn, rfl⟩ | ⟨θ, inp, rfl, ha⟩
  · exact .inl ⟨t, rfl, ht, rfl, rfl, rfl⟩
  · exact .inr (.inl ⟨rfl, rfl, rfl⟩)
  · exact .inr (.inl ⟨rfl, rfl, rfl⟩)
  · obtain ⟨fr, hfr, ha⟩ := act_cases ha
    cases ha with
    | @more op k fault q hc hr => exact .inr (.inr ⟨θ, fr, fault, op, k, rfl, hfr, hc, rfl, rfl, rfl⟩)
    | @done op k fault r hc hr => exact .inr (.inr ⟨θ, fr, fault, op, k, rfl, hfr, hc, rfl, rfl, rfl⟩)
    | @raise op k fault what hc hr => exact .inr (.inr ⟨θ, fr, fault, op, k, rfl, hfr, hc, rfl, rfl, rfl⟩)
    | _ => exact .inr (.inl ⟨rfl, rfl, rfl⟩)

/-! ## Who owns `mtx_` -/

/-- The owner of `mtx_` is the thread whose program point says so. -/
structure MutexInv (O : Objects ι π) (s : State D ι π ω) : Prop where
  owner : ∀ θ fr, s.thr θ = some fr → fr.pc.owned = true → s.mtx (O.proc θ.obj) = some θ
  runs : ∀ p θ, s.mtx p = some θ → p = O.proc θ.obj ∧ ∃ fr, s.thr θ = some fr ∧ fr.pc.owned = true

namespace MutexInv

/-- A thread goes on without touching `mtx_`. -/
theorem goto (h : MutexInv O s) (hfr : s.thr θ = some fr) {t : State D ι π ω} (hthr : t.thr = s.thr)
    (hmtx : t.mtx = s.mtx) {pc : Pc} (hpc : pc.owned = fr.pc.owned) (q : Option D.Pc) :
    MutexInv O (t.goto θ pc q) := by
  refine ⟨fun θ' fr' h1 h2 => ?_, fun p θ' h1 => ?_⟩
  · simp only [State.goto_thr, State.goto_mtx, hthr, hmtx] at h1 ⊢
    by_cases hθ : θ' = θ
    · subst hθ
      simp only [Function.update_self, Option.some.injEq] at h1
      subst h1
      exact h.owner _ fr hfr (hpc ▸ h2)
    · rw [Function.update_of_ne hθ] at h1
      exact h.owner _ fr' h1 h2
  · simp only [State.goto_thr, State.goto_mtx, hthr, hmtx] at h1 ⊢
    obtain ⟨hp, fr', h2, h3⟩ := h.runs p θ' h1
    refine ⟨hp, ?_⟩
    by_cases hθ : θ' = θ
    · subst hθ
      rw [hfr] at h2
      cases h2
      exact ⟨⟨pc, q⟩, by simp, hpc.trans h3⟩
    · exact ⟨fr', by rw [Function.update_of_ne hθ]; exact h2, h3⟩

theorem lock (h : MutexInv O s) (hfree : s.mtx (O.proc θ.obj) = none) {pc : Pc} (hpc : pc.owned = true)
    (q : Option D.Pc) : MutexInv O ((s.setMtx (O.proc θ.obj) (some θ)).goto θ pc q) := by
  refine ⟨fun θ' fr' h1 h2 => ?_, fun p θ' h1 => ?_⟩
  · simp only [State.goto_thr, State.goto_mtx, State.setMtx_mtx] at h1 ⊢
    by_cases hθ : θ' = θ
    · subst hθ; simp
    · rw [Function.update_of_ne hθ] at h1
      have hown := h.owner _ fr' h1 h2
      have hp : O.proc θ'.obj ≠ O.proc θ.obj := fun hp => by rw [hp, hfree] at hown; cases hown
      rw [Function.update_of_ne hp]
      exact hown
  · simp only [State.goto_thr, State.goto_mtx, State.setMtx_mtx] at h1 ⊢
    by_cases hp : p = O.proc θ.obj
    · subst hp
      simp only [Function.update_self, Option.some.injEq] at h1
      subst h1
      exact ⟨rfl, ⟨pc, q⟩, by simp, hpc⟩
    · rw [Function.update_of_ne hp] at h1
      obtain ⟨hp', fr', h2, h3⟩ := h.runs p θ' h1
      have hθ : θ' ≠ θ := fun e => hp (e ▸ hp')
      exact ⟨hp', fr', by rw [Function.update_of_ne hθ]; exact h2, h3⟩

theorem unlock (h : MutexInv O s) (hfr : s.thr θ = some fr) (hown : fr.pc.owned = true) {pc : Pc}
    (hpc : pc.owned = false) (q : Option D.Pc) :
    MutexInv O ((s.setMtx (O.proc θ.obj) none).goto θ pc q) := by
  have hθ := h.owner _ _ hfr hown
  refine ⟨fun θ' fr' h1 h2 => ?_, fun p θ' h1 => ?_⟩
  · simp only [State.goto_thr, State.goto_mtx, State.setMtx_mtx] at h1 ⊢
    by_cases hne : θ' = θ
    · subst hne
      simp only [Function.update_self, Option.some.injEq] at h1
      subst h1
      simp [hpc] at h2
    · rw [Function.update_of_ne hne] at h1
      have hown' := h.owner _ fr' h1 h2
      have hp : O.proc θ'.obj ≠ O.proc θ.obj := fun hp => by
        rw [hp, hθ] at hown'
        exact hne (Option.some.inj hown').symm
      rw [Function.update_of_ne hp]
      exact hown'
  · simp only [State.goto_thr, State.goto_mtx, State.setMtx_mtx] at h1 ⊢
    by_cases hp : p = O.proc θ.obj
    · subst hp; simp at h1
    · rw [Function.update_of_ne hp] at h1
      obtain ⟨hp', fr', h2, h3⟩ := h.runs p θ' h1
      have hne : θ' ≠ θ := fun e => hp (e ▸ hp')
      exact ⟨hp', fr', by rw [Function.update_of_ne hne]; exact h2, h3⟩

theorem leave (h : MutexInv O s) {t : State D ι π ω} (hthr : t.thr = s.thr) (hmtx : t.mtx = s.mtx) :
    MutexInv O (t.leave (O.proc θ.obj) θ) := by
  refine ⟨fun θ' fr' h1 h2 => ?_, fun p θ' h1 => ?_⟩
  · simp only [State.leave_thr, State.leave_mtx, hthr, hmtx] at h1 ⊢
    by_cases hne : θ' = θ
    · subst hne; simp at h1
    · rw [Function.update_of_ne hne] at h1
      have hown' := h.owner _ fr' h1 h2
      split
      · rename_i hθ
        have hp : O.proc θ'.obj ≠ O.proc θ.obj := fun hp => by
          rw [hp, hθ] at hown'
          exact hne (Option.some.inj hown').symm
        rw [Function.update_of_ne hp]
        exact hown'
      · exact hown'
  · simp only [State.leave_thr, State.leave_mtx, hthr, hmtx] at h1 ⊢
    have hne : θ' ≠ θ := by
      rintro rfl
      split at h1
      · rename_i hθ
        by_cases hp : p = O.proc θ'.obj
        · subst hp; simp at h1
        · rw [Function.update_of_ne hp] at h1
          exact hp (h.runs p θ' h1).1
      · rename_i hθ
        exact hθ ((h.runs p θ' h1).1 ▸ h1)
    have h1' : s.mtx p = some θ' := by
      split at h1
      · by_cases hp : p = O.proc θ.obj
        · subst hp; simp at h1
        · rwa [Function.update_of_ne hp] at h1
      · exact h1
    obtain ⟨hp', fr', h2, h3⟩ := h.runs p θ' h1'
    exact ⟨hp', fr', by rw [Function.update_of_ne hne]; exact h2, h3⟩

/-- A thread that is in no method enters one, at a program point outside the critical sections. -/
theorem enter (h : MutexInv O s) (hfr : s.thr θ = none) {pc : Pc} {q : Option D.Pc}
    (hthr : s'.thr = Function.update s.thr θ (some ⟨pc, q⟩)) (hmtx : s'.mtx = s.mtx)
    (hpc : pc.owned = false) : MutexInv O s' := by
  refine ⟨fun θ' fr' h1 h2 => ?_, fun p θ' h1 => ?_⟩
  · rw [hthr] at h1
    rw [hmtx]
    by_cases hθ : θ' = θ
    · subst hθ
      rw [Function.update_self] at h1
      cases h1
      simp [hpc] at h2
    · rw [Function.update_of_ne hθ] at h1
      exact h.owner _ fr' h1 h2
  · rw [hmtx] at h1
    obtain ⟨hp, fr', h2, h3⟩ := h.runs p θ' h1
    have hθ : θ' ≠ θ := fun e => by rw [e, hfr] at h2; cases h2
    exact ⟨hp, fr', by rw [hthr, Function.update_of_ne hθ]; exact h2, h3⟩

theorem init (h : Initial s) : MutexInv O s :=
  ⟨fun θ fr h1 => by simp [h.thr θ] at h1, fun p θ h1 => by simp [h.mtx p] at h1⟩

theorem act (h : MutexInv O s) (hs : Cluster.act O s θ inp = some s') : MutexInv O s' := by
  obtain ⟨fr, hfr, ha⟩ := act_cases hs
  have hk := code_keeps (O.cfg θ.obj) (s.fields θ.obj) fr.pc
  cases ha with
  | tau hc => rw [hc] at hk; refine h.goto hfr ?_ ?_ hk none <;> rfl
  | lock hc hfree => rw [hc] at hk; exact h.lock hfree hk none
  | unlock hc => rw [hc] at hk; exact h.unlock hfr hk.1 hk.2 none
  | more hc hr => refine h.goto hfr ?_ ?_ rfl _ <;> rfl
  | done hc hr => rw [hc] at hk; refine h.goto hfr ?_ ?_ ((hk.2 _).trans hk.1.symm) none <;> rfl
  | raise hc hr => exact h.leave rfl rfl
  | clock hc => rw [hc] at hk; exact h.goto hfr rfl rfl (hk _) none
  | shuffle hc hv => rw [hc] at hk; exact h.goto hfr rfl rfl (hk _) none
  | pushEvent hc => rw [hc] at hk; refine h.goto hfr ?_ ?_ (hk.2.trans hk.1.symm) none <;> rfl
  | ret hc => exact h.leave rfl rfl
  | throw hc => exact h.leave rfl rfl

theorem step (h : MutexInv O s) {l : Label ι ω} (hs : next O s l = some s') : MutexInv O s' := by
  rcases next_cases hs with ⟨t, rfl, -, rfl⟩ | ⟨i, c, rfl, hn, rfl⟩ | ⟨i, w, rfl, hn, rfl⟩ | ⟨θ, inp, rfl, ha⟩
  · exact ⟨h.owner, h.runs⟩
  · exact h.enter hn rfl rfl (by cases c <;> rfl)
  · exact h.enter hn rfl rfl rfl
  · exact h.act ha

/-- **The discipline of `mtx_`**, in every reachable state. -/
theorem of_reach {ok : State D ι π ω → Label ι ω → Prop} (h : (system O D ω).Reach ok s) : MutexInv O s :=
  h.invariant (I := MutexInv O) (fun _ h₀ => init h₀) (fun _ _ _ _ hi _ hn => hi.step hn)

/-- Two threads of one process are never both inside their critical sections. -/
theorem unique (h : MutexInv O s) {θ' : Thread ι ω} {fr' : Frame D} (hp : O.proc θ.obj = O.proc θ'.obj)
    (hfr : s.thr θ = some fr) (hown : fr.pc.owned = true) (hfr' : s.thr θ' = some fr')
    (hown' : fr'.pc.owned = true) : θ = θ' := by
  have h1 := h.owner _ _ hfr hown
  have h2 := h.owner _ _ hfr' hown'
  rw [hp, h2] at h1
  exact (Option.some.inj h1).symm

end MutexInv

end DistributedLock.Cluster
