import DistributedLock.Cluster.Held

/-!
# The bounds of `have_lock_num_` in `KeepLock`

`KeepLock` tests `lock_index < have_lock_num_.size()` without `mtx_`, then waits for `mtx_`, and then reads
`have_lock_num_[lock_index]`.  `Lock` and `TryLock(expire)` clear the vector without `mtx_`: a worker that has passed the
test may be overtaken by `unlock()` and the clearing of the next `lock()`, and reads behind the end
(`renewal_out_of_bounds`).

Nothing else makes the vector shorter, so if it is not cleared while a pass of `KeepLock` stands between the test and
the access (`Apart`), every access is within the bounds (`renewal_in_bounds`).
-/

set_option linter.unusedSectionVars false

namespace DistributedLock.DMutex

open Redis

/-- The position that `KeepLock` has tested and not read yet. -/
def Pc.tested : Pc → Option ℕ
  | .keepRelock _ lockIndex | .keepSelect lockIndex => some lockIndex
  | _ => none

variable {cfg : Cfg} {f f' : Fields} {pc pc' : Pc} {m : ℕ}

theorem tested_of_leadsTo (h : (code cfg f pc).LeadsTo pc') (hm : pc'.tested = some m) :
    pc.tested = some m ∨ ∃ owns, pc = .keepTest owns m ∧ m < f.haveLockNum.length := by
  have hkeep' : pc'.keep = true := by
    cases pc' <;> first | rfl | cases hm
  have hkeep : pc.keep = true := (keep_of_leadsTo h).symm.trans hkeep'
  cases pc with
  | keepLock =>
    obtain rfl : pc' = .keepCheck := h
    cases hm
  | keepCheck =>
    simp only [code, keepCheck] at h
    split at h
    · obtain rfl : pc' = .kept false := h
      cases hm
    · split at h
      · obtain rfl : pc' = .kept true := h
        cases hm
      · obtain rfl : pc' = .keepTest false 0 := h
        cases hm
  | keepTest owns m' =>
    simp only [code, keepTest] at h
    split at h
    · rename_i hlt
      obtain rfl : pc' = .keepRelock owns m' := h
      cases hm
      exact .inr ⟨owns, rfl, hlt⟩
    · split at h
      all_goals
        obtain rfl : pc' = .kept true := h
        cases hm
  | keepRelock owns m' =>
    simp only [code] at h
    split at h
    · exact h.elim
    · obtain rfl : pc' = .keepSelect m' := h
      exact .inl hm
  | keepSelect m' =>
    simp only [code] at h
    split at h
    · exact h.elim
    · obtain ⟨r, rfl⟩ := h
      beta_reduce at hm
      split at hm <;> cases hm
  | keepUpdate m' host =>
    obtain ⟨r, rfl⟩ := h
    cases hm
  | keepUnlock m' r =>
    obtain rfl : pc' = .keepTest false (if r = .kUpdateKeySucceed then m' + 1 else m') := h
    cases hm
  | kept res => exact h.elim
  | _ => cases hkeep

theorem length_of_tau (h : code cfg f pc = .tau f' pc') (hne : ∀ c, pc ≠ .clear c) :
    f.haveLockNum.length ≤ f'.haveLockNum.length := by
  cases pc with
  | clear c => exact absurd rfl (hne c)
  | failed c =>
    cases c with
    | tryLockFor expire start => cases h
    | _ => cases h; exact le_refl _
  | mainTest c p => simp only [code, mainTest] at h; split at h <;> (cases h; exact le_refl _)
  | mainLock c p | mainAcceptLock c p => simp only [code] at h; split at h <;> cases h
  | mainResult c p r =>
    simp only [code, mainResult] at h
    split at h <;> (cases h; simp)
  | mainQuorum c p => simp only [code] at h; split at h <;> (cases h; exact le_refl _)
  | unlockFlags c => cases h; exact le_refl _
  | unlockSelect c rest m => cases rest <;> cases h
  | keepCheck =>
    simp only [code, keepCheck] at h
    split at h
    · cases h
    · split at h <;> cases h
  | keepTest owns m =>
    simp only [code, keepTest] at h
    split at h
    · cases h; exact le_refl _
    · split at h <;> (cases h; try exact le_refl _)
  | keepRelock owns m => simp only [code] at h; split at h <;> cases h
  | keepSelect m => simp only [code] at h; split at h <;> cases h
  | _ => cases h

end DistributedLock.DMutex

namespace DistributedLock.Cluster

open Lib Redis DMutex

variable {D : DBInterface} {ι π ω : Type} [DecidableEq ι] [DecidableEq π] [DecidableEq ω] {O : Objects ι π}
  {s s' : State D ι π ω} {θ : Thread ι ω} {fr fr' : Frame D} {i : ι} {l : Label ι ω} {m : ℕ}

/-- The step clears `have_lock_num_` of the object `i`. -/
def Clears (i : ι) (s : State D ι π ω) (l : Label ι ω) : Prop :=
  ∃ θ inp fr c, l = .act θ inp ∧ θ.obj = i ∧ s.thr θ = some fr ∧ fr.pc = .clear c

/-- `have_lock_num_` is not cleared while a pass of `KeepLock` stands between its test and its access. -/
def Apart (i : ι) (s : State D ι π ω) (l : Label ι ω) : Prop :=
  Clears i s l → ∀ θ fr, θ.obj = i → s.thr θ = some fr → fr.pc.tested = none

/-- Every position that is about to be read is within the bounds. -/
def InBounds (i : ι) (s : State D ι π ω) : Prop :=
  ∀ θ fr m, θ.obj = i → s.thr θ = some fr → fr.pc.tested = some m → m < (s.fields i).haveLockNum.length

theorem length_of_next (hs : next O s l = some s') (hl : ¬ Clears i s l) :
    (s.fields i).haveLockNum.length ≤ (s'.fields i).haveLockNum.length := by
  have hset : ∀ {j : ι} {f : Fields}, (j = i → (s.fields i).haveLockNum.length ≤ f.haveLockNum.length) →
      (s.fields i).haveLockNum.length ≤ (Function.update s.fields j f i).haveLockNum.length := by
    intro j f hf
    by_cases hj : i = j
    · subst hj
      rw [Function.update_self]
      exact hf rfl
    · rw [Function.update_of_ne hj]
  rcases next_cases hs with ⟨t, rfl, -, rfl⟩ | ⟨j, c, rfl, -, rfl⟩ | ⟨j, w, rfl, -, rfl⟩ | ⟨θ, inp, rfl, ha⟩
  · exact le_refl _
  · exact le_refl _
  · exact le_refl _
  · obtain ⟨fr, hfr, ha⟩ := act_cases ha
    cases ha with
    | tau hc =>
      refine hset fun hj => ?_
      subst hj
      exact length_of_tau hc fun c hpc => hl ⟨θ, _, fr, c, rfl, rfl, hfr, hpc⟩
    | pushEvent hc =>
      refine hset fun hj => ?_
      subst hj
      obtain ⟨c, p, -, rfl, -⟩ := code_pushEvent hc
      exact le_refl _
    | _ => exact le_refl _

/-- A position that is about to be read was so before the step, or has just been tested. -/
theorem tested_of_next (hs : next O s l = some s') (hfr' : s'.thr θ = some fr') (hm : fr'.pc.tested = some m) :
    (∃ fr, s.thr θ = some fr ∧ fr.pc.tested = some m) ∨
    (m < (s.fields θ.obj).haveLockNum.length ∧ s'.fields = s.fields) := by
  have hmove : ∀ {θ' : Thread ι ω} {pc : Pc} {q : Option D.Pc}, s'.thr = Function.update s.thr θ' (some ⟨pc, q⟩) →
      pc.tested = none → ∃ fr, s.thr θ = some fr ∧ fr.pc.tested = some m := by
    intro θ' pc q hthr hpc
    rw [hthr] at hfr'
    by_cases hθ : θ = θ'
    · subst hθ
      rw [Function.update_self] at hfr'
      cases hfr'
      rw [hpc] at hm
      cases hm
    · rw [Function.update_of_ne hθ] at hfr'
      exact ⟨fr', hfr', hm⟩
  rcases next_cases hs with ⟨t, rfl, -, rfl⟩ | ⟨j, c, rfl, -, rfl⟩ | ⟨j, w, rfl, -, rfl⟩ | ⟨θ', inp, rfl, ha⟩
  · exact .inl ⟨fr', hfr', hm⟩
  · exact .inl (hmove rfl (by cases c <;> rfl))
  · exact .inl (hmove rfl rfl)
  · by_cases hθ : θ = θ'
    · subst hθ
      obtain ⟨fr, hfr, -⟩ := act_cases ha
      rcases leadsTo_of_act ha hfr hfr' with hpc | hlead
      · exact .inl ⟨fr, hfr, hpc ▸ hm⟩
      · rcases tested_of_leadsTo hlead hm with htested | ⟨owns, hpc, hlt⟩
        · exact .inl ⟨fr, hfr, htested⟩
        · refine .inr ⟨hlt, ?_⟩
          -- the test writes no member
          have hcode : code (O.cfg θ.obj) (s.fields θ.obj) fr.pc = .tau (s.fields θ.obj) (.keepRelock owns m) := by
            rw [hpc]
            exact if_pos hlt
          rw [act_tau ha hfr hcode]
          exact Function.update_eq_self _ _
    · rw [act_thr ha hθ] at hfr'
      exact .inl ⟨fr', hfr', hm⟩

theorem inBounds_step (h : InBounds i s) (hok : Apart i s l) (hs : next O s l = some s') : InBounds i s' := by
  rintro θ fr' m rfl hfr' hm
  rcases tested_of_next hs hfr' hm with ⟨fr, hfr, htested⟩ | ⟨hlt, hf⟩
  · have hl : ¬ Clears θ.obj s l := by
      intro hl
      rw [hok hl θ fr rfl hfr] at htested
      cases htested
    exact lt_of_lt_of_le (h θ fr m rfl hfr htested) (length_of_next hs hl)
  · rw [hf]
    exact hlt

/-- **The renewal stays within the bounds**, in every run in which `have_lock_num_` is not cleared while a pass of
`KeepLock` stands between its test and its access. -/
theorem renewal_in_bounds (h : (system O D ω).Reach (Apart i) s) (hθ : θ.obj = i) (hfr : s.thr θ = some fr)
    (hpc : fr.pc = .keepSelect m) : m < (s.fields i).haveLockNum.length := by
  have hinv : InBounds i s := by
    refine h.invariant (I := InBounds i) (fun s h₀ θ fr m _ hfr _ => ?_) fun s l s' _ hi hok hn => inBounds_step hi hok hn
    rw [h₀.thr θ] at hfr
    cases hfr
  exact hinv θ fr m hθ hfr (by rw [hpc]; rfl)

theorem out_of_bounds_of_clears (hl : Clears θ.obj s l) (hs : next O s l = some s') (hfr : s.thr θ = some fr)
    (hm : fr.pc.tested = some m) : s'.thr θ = some fr ∧ ¬ m < (s'.fields θ.obj).haveLockNum.length := by
  obtain ⟨θ', inp, fr₀, c, rfl, hobj, hfr₀, hpc⟩ := hl
  have hne : θ ≠ θ' := by
    rintro rfl
    rw [hfr] at hfr₀
    cases hfr₀
    rw [hpc] at hm
    cases hm
  refine ⟨(act_thr hs hne).trans hfr, ?_⟩
  have hcode : code (O.cfg θ'.obj) (s.fields θ'.obj) fr₀.pc =
      .tau { s.fields θ'.obj with haveLockNum := [] } (.mainStart c) := by
    rw [hpc]
    rfl
  rw [act_tau hs hfr₀ hcode]
  simp [hobj]

/-! ## Two runs -/

/-- The worker of the first object is about to read the position 0. -/
def reading (s : State (dbRedis 16) Bool Unit Unit) : Bool :=
  match s.thr (.worker false ()) with
  | some ⟨.keepSelect 0, _⟩ => true
  | _ => false

theorem reading_iff {s : State (dbRedis 16) Bool Unit Unit} (h : reading s = true) :
    ∃ fr, s.thr (.worker false ()) = some fr ∧ fr.pc = .keepSelect 0 := by
  unfold reading at h
  split at h
  · exact ⟨_, by assumption, rfl⟩
  · cases h

def clearing (fr : Frame (dbRedis 16)) : Bool :=
  match fr.pc with
  | .clear _ => true
  | _ => false

/-- `Apart`, as a test: nothing is cleared while the worker of the first object is in `KeepLock`. -/
def apart (s : State (dbRedis 16) Bool Unit Unit) : Label Bool Unit → Bool
  | .act θ _ => (s.thr (.worker false ())).isNone || !(s.thr θ).any clearing
  | _ => true

theorem apart_of_test (s : State (dbRedis 16) Bool Unit Unit) (l : Label Bool Unit) (h : apart s l = true) :
    Apart false s l := by
  rintro ⟨θ, inp, fr, c, rfl, hobj, hfr, hpc⟩ θ' fr' hobj' hfr'
  have hclear : clearing fr = true := by
    unfold clearing
    rw [hpc]
  have hworker : s.thr (.worker false ()) = none := by
    simpa [apart, hfr, hclear] using h
  have hcaller : ∀ {θ : Thread Bool Unit} {fr : Frame (dbRedis 16)}, θ.obj = false → s.thr θ = some fr →
      θ = .caller false := by
    intro θ fr hobj hfr
    cases θ with
    | caller j => exact congrArg Thread.caller hobj
    | worker j w =>
      obtain rfl : j = false := hobj
      rw [hworker] at hfr
      cases hfr
  rw [hcaller hobj' hfr', ← hcaller hobj hfr, hfr] at hfr'
  cases hfr'
  rw [hpc]
  rfl

/-- The labels of a pass of `KeepLock` of the first object up to the test of its first position. -/
def keepTestLabels : List (Label Bool Unit) := .keep false () :: List.replicate 3 (.act (.worker false ()) .none)

/-- The first object is held, and a renewal of it is about to read its only position. -/
theorem renewal_in_bounds_one : ∃ s : State (dbRedis 16) Bool Unit Unit,
    (system (twoObjects [0]) (dbRedis 16) Unit).Reach (Apart false) s ∧ reading s = true ∧
      0 < (s.fields false).haveLockNum.length := by
  obtain ⟨s, hr, hs⟩ := Machine.exists_reach (system (twoObjects [0]) (dbRedis 16) Unit)
    (lockPass false [0] 0 ++ accept false 0 ++ keepTestLabels ++ [.act (.worker false ()) .none]) reading apart_of_test
    State.blank_initial (by decide)
  obtain ⟨fr, hfr, hpc⟩ := reading_iff hs
  exact ⟨s, hr, hs, renewal_in_bounds hr rfl hfr hpc⟩

def alternating (s : State (dbRedis 16) Bool Unit Unit) : Label Bool Unit → Bool
  | .call i c => decide (Alternates (s.held i) c)
  | _ => true

theorem alternating_of_test (s : State (dbRedis 16) Bool Unit Unit) (l : Label Bool Unit)
    (h : alternating s l = true) : Alternating s l := by
  rintro i c rfl
  exact of_decide_eq_true h

/-- `unlock()` and the clearing of the next `lock()` come between the test of the worker and its access. -/
theorem renewal_out_of_bounds : ¬ ∀ s : State (dbRedis 16) Bool Unit Unit,
    (system (twoObjects [0]) (dbRedis 16) Unit).Reach Alternating s →
      ∀ θ fr m, θ.obj = false → s.thr θ = some fr → fr.pc = .keepSelect m →
        m < (s.fields false).haveLockNum.length := by
  intro hall
  obtain ⟨s, hr, hs⟩ := Machine.exists_reach (system (twoObjects [0]) (dbRedis 16) Unit)
    [lockPass false [0] 0, accept false 0, keepTestLabels, unlockAll false [0],
      [.call false .lock, .act (.caller false) .none, .act (.worker false ()) .none]].flatten
    (fun s => reading s && (s.fields false).haveLockNum.isEmpty) alternating_of_test State.blank_initial (by decide)
  obtain ⟨hread, hempty⟩ := Bool.and_eq_true_iff.mp hs
  obtain ⟨fr, hfr, hpc⟩ := reading_iff hread
  have hlt := hall s hr (.worker false ()) fr 0 rfl hfr hpc
  rw [List.isEmpty_iff.mp hempty] at hlt
  exact absurd hlt (Nat.lt_irrefl 0)

end DistributedLock.Cluster
