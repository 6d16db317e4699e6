import DistributedLock.Cluster.Connection
import DistributedLock.DMutex.Counting

/-!
# What is known of the hosts counted, in every interleaving

An assertion `C s i p xs` speaks of the state `s` and of the hosts `xs` that the pass `p` of the object `i` has
counted.  `CallersOk.step` is the rule by which such an assertion is kept: while the pass goes on it has to
survive the steps of all threads, and it has to hold of a new pass and of a host that `SetKeyValue` reports
success for.
-/

set_option linter.unusedSectionVars false

namespace DistributedLock.Cluster

open Lib Redis DMutex

variable {D : DBInterface} {ι π ω : Type} [DecidableEq ι] [DecidableEq π] [DecidableEq ω] {O : Objects ι π}
  {s s' : State D ι π ω} {θ : Thread ι ω} {fr : Frame D} {inp : Input}

/-! ## Callers and workers of an object -/

theorem isWorker_of_ne {j : ι} (hne : θ ≠ .caller j) (hj : j = θ.obj) : θ.isWorker = true := by
  cases θ with
  | caller i => exact absurd (congrArg Thread.caller hj.symm) hne
  | worker i w => rfl

theorem fields_setFields {f : Fields} (hkind : KindInv s) (hfr : s.thr θ = some fr)
    (hk : fr.pc.keep = true → f = s.fields θ.obj) {j : ι} (hne : θ ≠ .caller j) :
    Function.update s.fields θ.obj f j = s.fields j := by
  by_cases hj : j = θ.obj
  · have hw := (hkind θ fr hfr).trans (isWorker_of_ne hne hj)
    rw [hj, Function.update_self, hk hw]
  · rw [Function.update_of_ne hj]

/-- The steps of other threads change neither where a caller stands nor the members of its object. -/
theorem next_other (hkind : KindInv s) {l : Label ι ω} (hs : next O s l = some s') {i : ι}
    (hcall : ∀ c, l ≠ .call i c) (hact : ∀ inp, l ≠ .act (.caller i) inp) :
    s'.thr (.caller i) = s.thr (.caller i) ∧ s'.fields i = s.fields i := by
  have hmove : ∀ {θ : Thread ι ω} {x : Option (Frame D)} {t : State D ι π ω},
      t.thr = Function.update s.thr θ x → θ ≠ .caller i → t.thr (.caller i) = s.thr (.caller i) := by
    intro θ x t ht hne
    rw [ht, Function.update_of_ne (Ne.symm hne)]
  rcases next_cases hs with ⟨t, rfl, -, rfl⟩ | ⟨j, c, rfl, -, rfl⟩ | ⟨j, w, rfl, -, rfl⟩ | ⟨θ, inp, rfl, ha⟩
  · exact ⟨rfl, rfl⟩
  · exact ⟨hmove rfl (by rintro ⟨⟩; exact hcall c rfl), rfl⟩
  · exact ⟨hmove rfl (by rintro ⟨⟩), rfl⟩
  · obtain ⟨fr, hfr, ha⟩ := act_cases ha
    have hne : θ ≠ .caller i := by
      rintro rfl
      exact hact inp rfl
    have hk := code_keep (O.cfg θ.obj) (s.fields θ.obj) fr.pc
    cases ha with
    | tau hc => rw [hc] at hk; exact ⟨hmove rfl hne, fields_setFields hkind hfr hk.2 hne⟩
    | pushEvent hc =>
      rw [hc] at hk
      refine ⟨hmove rfl hne, fields_setFields hkind hfr (fun he => ?_) hne⟩
      rw [hk.2] at he
      cases he
    | _ => exact ⟨hmove rfl hne, rfl⟩

theorem next_worker {l : Label ι ω} (hs : next O s l = some s') {i : ι} {w : ω} (hkeep : l ≠ .keep i w)
    (hact : ∀ inp, l ≠ .act (.worker i w) inp) : s'.thr (.worker i w) = s.thr (.worker i w) := by
  rcases next_cases hs with ⟨t, rfl, -, rfl⟩ | ⟨j, c, rfl, -, rfl⟩ | ⟨j, w', rfl, -, rfl⟩ | ⟨θ, inp, rfl, ha⟩
  · rfl
  · have hne : Thread.worker i w ≠ Thread.caller j := by rintro ⟨⟩
    rw [State.enter_thr, Function.update_of_ne hne]
  · have hne : Thread.worker i w ≠ Thread.worker j w' := by
      rintro ⟨⟩
      exact hkeep rfl
    rw [State.goto_thr, Function.update_of_ne hne]
  · exact act_thr ha (by rintro rfl; exact hact inp rfl)

theorem next_idle (hkind : KindInv s) {l : Label ι ω} (hs : next O s l = some s') {i : ι}
    (hthr : s.thr (.caller i) = none) (hl : ∀ c, l ≠ .call i c) :
    s'.thr (.caller i) = none ∧ s'.fields i = s.fields i := by
  rw [← hthr]
  refine next_other hkind hs hl ?_
  rintro inp rfl
  obtain ⟨fr, hfr, -⟩ := act_cases hs
  rw [hthr] at hfr
  cases hfr

/-- An object that is held after a step was held before it, or its caller returns success. -/
theorem next_held (hkind : KindInv s) {l : Label ι ω} (hs : next O s l = some s') {i : ι} (hi : s'.held i = true) :
    (s.held i = true ∧ l ≠ .call i .unlock) ∨
    ∃ fr, s.thr (.caller i) = some fr ∧ fr.pc = .done true ∧ s'.thr (.caller i) = none ∧
      s'.fields = s.fields := by
  rcases next_cases hs with ⟨t, rfl, -, rfl⟩ | ⟨j, c, rfl, -, rfl⟩ | ⟨j, w, rfl, -, rfl⟩ | ⟨θ, inp, rfl, ha⟩
  · exact .inl ⟨hi, by simp⟩
  · simp only [State.enter_held] at hi
    split at hi
    · rename_i hc
      by_cases hij : i = j
      · subst hij; simp at hi
      · rw [Function.update_of_ne hij] at hi
        refine .inl ⟨hi, ?_⟩
        rintro ⟨⟩
        exact hij rfl
    · rename_i hc
      refine .inl ⟨hi, ?_⟩
      rintro ⟨⟩
      exact hc rfl
  · exact .inl ⟨hi, by simp⟩
  · obtain ⟨fr, hfr, ha⟩ := act_cases ha
    cases ha with
    | ret hc =>
      simp only [State.leave_held, State.setHeld_held] at hi
      by_cases hij : i = θ.obj
      · subst hij
        rw [Function.update_self] at hi
        have hw := hkind θ fr hfr
        cases θ with
        | caller i =>
          cases hpc : fr.pc with
          | done res =>
            rw [hpc] at hi
            obtain rfl : res = true := hi
            exact .inr ⟨fr, hfr, hpc, by simp [Thread.obj], rfl⟩
          | _ => rw [hpc] at hi; exact .inl ⟨hi, by simp⟩
        | worker i w =>
          cases hpc : fr.pc <;> rw [hpc] at hi hw <;> first | exact .inl ⟨hi, by simp⟩ | cases hw
      · rw [Function.update_of_ne hij] at hi
        exact .inl ⟨hi, by simp⟩
    | _ => exact .inl ⟨hi, by simp⟩

/-! ## History variables of an object -/

section History

variable {γ : Type} {g : ι → γ} {u : State D ι π ω → State D ι π ω → ι → γ → Pc → Option Pc → γ} {i : ι}
  {l : Label ι ω}

/-- A history variable for each object, which the steps of its caller update: from the states before and after, the
value before, the program point and the next one. -/
def atCaller (u : State D ι π ω → State D ι π ω → ι → γ → Pc → Option Pc → γ) (s : State D ι π ω)
    (l : Label ι ω) (s' : State D ι π ω) (g : ι → γ) (i : ι) : γ :=
  match l with
  | .act θ _ =>
    if θ = .caller i then
      match s.thr (.caller i) with
      | some fr => u s s' i (g i) fr.pc ((s'.thr (.caller i)).map Frame.pc)
      | none => g i
    else g i
  | _ => g i

theorem atCaller_other (hact : ∀ inp, l ≠ .act (.caller i) inp) : atCaller u s l s' g i = g i := by
  unfold atCaller
  split
  · rename_i θ inp
    rw [if_neg (by rintro rfl; exact hact inp rfl)]
  · rfl

theorem atCaller_self (hfr : s.thr (.caller i) = some fr) :
    atCaller u s (.act (.caller i) inp) s' g i =
      u s s' i (g i) fr.pc ((s'.thr (.caller i)).map Frame.pc) := by
  simp [atCaller, hfr]

end History

/-! ## Callers that delete -/

/-- The caller of `i` is about to delete. -/
def Deleting (s : State D ι π ω) (i : ι) : Prop :=
  ∃ fr c host rest m, s.thr (.caller i) = some fr ∧ fr.pc = .unlockDel c host rest m

theorem not_deleting_of_passing {i : ι} (hfr : s.thr (.caller i) = some fr) (hp : fr.pc.passing = true) :
    ¬ Deleting s i := by
  rintro ⟨fr', _, _, _, _, h1, h2⟩
  rw [hfr] at h1
  cases h1
  rw [h2] at hp
  cases hp

/-- The caller of `i` is in a pass, which has counted the hosts `xs`, and maybe more. -/
def Counting (s : State D ι π ω) (i : ι) (xs : List ℤ) : Prop :=
  ∃ fr, s.thr (.caller i) = some fr ∧ fr.pc.passing = true ∧ xs <+: (s.fields i).haveLockNum ++ fr.pc.pending

theorem Counting.not_deleting {i : ι} {xs : List ℤ} (h : Counting s i xs) : ¬ Deleting s i := by
  obtain ⟨fr, hfr, hp, -⟩ := h
  exact not_deleting_of_passing hfr hp

theorem not_deleting_of_none {i : ι} (hfr : s.thr (.caller i) = none) : ¬ Deleting s i := by
  rintro ⟨fr', _, _, _, _, h1, -⟩
  rw [hfr] at h1
  cases h1

theorem not_del (hkind : KindInv s) (hfr : s.thr θ = some fr) {op : DBOp} {k : DBResult → Pc}
    (hc : code (O.cfg θ.obj) (s.fields θ.obj) fr.pc = .call op k) (hdel : ¬ Deleting s θ.obj) (key value : String) :
    op ≠ .delKeyValue key value := by
  rintro rfl
  have hkeep := hkind θ fr hfr
  rcases code_call hc with ⟨_, h⟩ | ⟨_, _, _, h⟩ | ⟨c, host, rest, m, hpc, -⟩ | ⟨_, _, _, h⟩ <;> try cases h
  cases θ with
  | caller i => exact hdel ⟨fr, c, host, rest, m, hfr, hpc⟩
  | worker i w => rw [hpc] at hkeep; cases hkeep

/-! ## The rule -/

/-- The step of `SetKeyValue` in a pass of the object `i`. -/
def setStep (O : Objects ι π) (s : State D ι π ω) (i : ι) (fr : Frame D) (fault : Fault) : Outcome D.Pc :=
  dbStep s i fr.db (.setKeyValue (O.cfg i).key (O.cfg i).value (O.cfg i).lockValidityTime) fault

variable {C : State D ι π ω → ι → Pass → List ℤ → Prop}

/-- Every caller has what its program point says of the hosts it has counted. -/
def CallersOk (O : Objects ι π) (C : State D ι π ω → ι → Pass → List ℤ → Prop) (s : State D ι π ω) : Prop :=
  ∀ i fr, s.thr (.caller i) = some fr → CallerOk (O.cfg i) (C s i) (s.fields i) fr.pc

namespace CallersOk

theorem init (h : Initial s) : CallersOk O C s := by
  intro i fr h1
  simp [h.thr] at h1

theorem callerOk_mono (h : CallersOk O C s) {i : ι} (hfr : s.thr (.caller i) = some fr)
    (hkeep : ∀ p xs, Counting s i xs → C s i p xs → C s' i p xs) :
    CallerOk (O.cfg i) (C s' i) (s.fields i) fr.pc :=
  (h i fr hfr).mono fun hp p xs hxs => hkeep p xs ⟨fr, hfr, hp, hxs⟩

theorem frame (h : CallersOk O C s) {x : Option (Frame D)} (hthr : s'.thr = Function.update s.thr θ x)
    (hf : ∀ j, θ ≠ .caller j → s'.fields j = s.fields j)
    (hkeep : ∀ j p xs, Counting s j xs → C s j p xs → C s' j p xs)
    (hown : ∀ j, θ = .caller j → ∀ fr', x = some fr' → CallerOk (O.cfg j) (C s' j) (s'.fields j) fr'.pc) :
    CallersOk O C s' := by
  intro j fr' h1
  rw [hthr] at h1
  by_cases hθ : θ = .caller j
  · rw [hθ, Function.update_self] at h1
    exact hown j hθ fr' h1
  · rw [Function.update_of_ne (Ne.symm hθ)] at h1
    rw [hf j hθ]
    exact h.callerOk_mono h1 (hkeep j)

/-- What `SetKeyValue` has to give when it reports success. -/
def Sets (O : Objects ι π) (C : State D ι π ω → ι → Pass → List ℤ → Prop) (s s' : State D ι π ω) (i : ι)
    (fault : Fault) : Prop :=
  ∀ fr c p, s.thr (.caller i) = some fr → fr.pc = .mainSet c p →
    (setStep O s i fr fault).resp = .done .kSetKeySucceed →
    s'.now = s.now → s'.srv = (setStep O s i fr fault).store →
    C s i p (s.fields i).haveLockNum → p.tempVec.Perm (O.cfg i).hosts → p.lockIndex < p.tempVec.length →
    C s' i p.next ((s.fields i).haveLockNum ++ [p.host])

theorem act (h : CallersOk O C s) (hkind : KindInv s) (hs : Cluster.act O s θ inp = some s')
    (hC : ∀ i, PassAssertion (C s' i))
    (hkeep : ∀ j p xs, Counting s j xs → C s j p xs → C s' j p xs)
    (hstart : ∀ i t v, θ = .caller i → inp = .clock t → v.Perm (O.cfg i).hosts → C s' i ⟨u64 t, v, 0, false⟩ [])
    (hset : ∀ i fault, θ = .caller i → inp = .db fault → Sets O C s s' i fault) : CallersOk O C s' := by
  obtain ⟨fr, hfr, ha⟩ := act_cases hs
  have hk := code_keep (O.cfg θ.obj) (s.fields θ.obj) fr.pc
  -- where a caller stands, over the state after the step, and what its instruction makes of it
  have hok : ∀ j, θ = .caller j → CallerOk (O.cfg j) (C s' j) (s.fields j) fr.pc := by
    rintro j rfl
    exact h.callerOk_mono hfr (hkeep j)
  have hcode : ∀ {instr : Instr}, code (O.cfg θ.obj) (s.fields θ.obj) fr.pc = instr → ∀ j, θ = .caller j →
      CountsOn (O.cfg j) (C s' j) (s.fields j) fr.pc instr := by
    rintro instr hc j rfl
    rw [← hc]
    exact code_callerOk (hC j) (hok j rfl)
  cases ha with
  | @tau f pc hc =>
    rw [hc] at hk
    refine h.frame rfl (fun j hne => fields_setFields hkind hfr hk.2 hne) hkeep ?_
    rintro j rfl _ ⟨⟩
    simpa [Thread.obj] using show CallerOk _ _ _ _ from hcode hc j rfl
  | lock hc hfree =>
    refine h.frame rfl (fun _ _ => rfl) hkeep ?_
    rintro j rfl _ ⟨⟩
    exact hcode hc j rfl
  | unlock hc =>
    refine h.frame rfl (fun _ _ => rfl) hkeep ?_
    rintro j rfl _ ⟨⟩
    exact hcode hc j rfl
  | more hc hr =>
    refine h.frame rfl (fun _ _ => rfl) hkeep ?_
    rintro j rfl _ ⟨⟩
    exact hok j rfl
  | @done op k fault r hc hr =>
    refine h.frame rfl (fun _ _ => rfl) hkeep ?_
    rintro j rfl _ ⟨⟩
    refine hcode hc j rfl r ?_
    rintro rfl c p hpc
    have hold := h j fr hfr
    rw [hpc] at hc hold
    simp only [code, Instr.call.injEq] at hc
    obtain ⟨rfl, -⟩ := hc
    exact hset j fault rfl rfl fr c p hfr hpc hr rfl rfl hold.1 hold.2.1 hold.2.2
  | raise hc hr => exact h.frame rfl (fun _ _ => rfl) hkeep (by rintro j rfl _ ⟨⟩)
  | @clock k t hc =>
    refine h.frame rfl (fun _ _ => rfl) hkeep ?_
    rintro j rfl _ ⟨⟩
    exact hcode hc j rfl t fun v => hstart j t v rfl rfl
  | shuffle hc hv =>
    refine h.frame rfl (fun _ _ => rfl) hkeep ?_
    rintro j rfl _ ⟨⟩
    exact hcode hc j rfl _ hv
  | pushEvent hc =>
    rw [hc] at hk
    refine h.frame rfl (fun j hne => fields_setFields hkind hfr (fun he => ?_) hne) hkeep ?_
    · rw [hk.2] at he; cases he
    rintro j rfl _ ⟨⟩
    simpa [Thread.obj] using show CallerOk _ _ _ _ from hcode hc j rfl
  | ret hc => exact h.frame rfl (fun _ _ => rfl) hkeep (by rintro j rfl _ ⟨⟩)
  | throw hc => exact h.frame rfl (fun _ _ => rfl) hkeep (by rintro j rfl _ ⟨⟩)

/-- **The rule for an assertion about the counted hosts.** -/
theorem step (h : CallersOk O C s) (hkind : KindInv s) {l : Label ι ω} (hs : next O s l = some s')
    (hC : ∀ i, PassAssertion (C s' i))
    (hkeep : ∀ j p xs, Counting s j xs → C s j p xs → C s' j p xs)
    (hstart : ∀ i t v, l = .act (.caller i) (.clock t) → v.Perm (O.cfg i).hosts →
      C s' i ⟨u64 t, v, 0, false⟩ [])
    (hset : ∀ i fault, l = .act (.caller i) (.db fault) → Sets O C s s' i fault)
    (htry : ∀ i, l = .call i .tryLock → (s.fields i).haveLockNum = []) : CallersOk O C s' := by
  rcases next_cases hs with ⟨t, rfl, ht, rfl⟩ | ⟨i, c, rfl, hn, rfl⟩ | ⟨i, w, rfl, hn, rfl⟩ | ⟨θ, inp, rfl, ha⟩
  · intro i fr h1
    exact h.callerOk_mono h1 (hkeep i)
  · refine h.frame (θ := .caller i) rfl (fun _ _ => rfl) hkeep ?_
    rintro j ⟨⟩ _ ⟨⟩
    cases c with
    | tryLock => exact htry i rfl
    | _ => trivial
  · exact h.frame (θ := .worker i w) rfl (fun _ _ => rfl) hkeep (by rintro j ⟨⟩)
  · refine h.act hkind ha hC hkeep ?_ ?_
    · rintro i t v rfl rfl; exact hstart i t v rfl
    · rintro i fault rfl rfl; exact hset i fault rfl

end CallersOk

end DistributedLock.Cluster
