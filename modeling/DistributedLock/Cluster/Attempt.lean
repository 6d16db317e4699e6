import DistributedLock.Cluster.Basic

/-!
# One attempt, whichever method makes it

`State.onBehalf i c s` is the state `s` with `c` for the method of the object `i` that called
`MainLockFunction`.  Nothing else of the state depends on it, so as long as `MainLockFunction` has not returned
the two states make the same steps (`next_onBehalf`, `run_onBehalf`): the same answers of the server, the same
store, the same result.
-/

set_option linter.unusedSectionVars false

namespace DistributedLock.Cluster

open Lib Redis DMutex

variable {D : DBInterface} {ι π ω : Type} [DecidableEq ι] [DecidableEq π] [DecidableEq ω] {O : Objects ι π}
  {s s' : State D ι π ω} {i : ι} {c : Caller}

def Frame.onBehalf (c : Caller) (fr : Frame D) : Frame D := ⟨fr.pc.onBehalf c, fr.db⟩

@[simps] def State.onBehalf (i : ι) (c : Caller) (s : State D ι π ω) : State D ι π ω :=
  { s with thr := Function.update s.thr (.caller i) ((s.thr (.caller i)).map (Frame.onBehalf c)) }

/-- The caller of the object `i` is inside `MainLockFunction`. -/
def State.inMain (i : ι) (s : State D ι π ω) : Bool :=
  match s.thr (.caller i) with
  | some fr => fr.pc.inMain
  | none => false

theorem inMain_onBehalf (i : ι) (c : Caller) (s : State D ι π ω) :
    (s.onBehalf i c).inMain i = s.inMain i := by
  unfold State.inMain
  cases h : s.thr (.caller i) with
  | none => simp [State.onBehalf, h]
  | some fr => simp [State.onBehalf, Frame.onBehalf, h]

theorem heldAfter_onBehalf (c : Caller) (pc : Pc) (b : Bool) : heldAfter (pc.onBehalf c) b = heldAfter pc b := by
  cases pc with
  | unlockLock o _ | unlockFlags o | unlockSelect o _ _ | unlockDel o _ _ _ => cases o <;> rfl
  | _ => rfl

section Commute

variable {θ : Thread ι ω} (x : Option (Frame D))

theorem setThr_onBehalf (hθ : θ ≠ .caller i) {t : State D ι π ω} (ht : t.thr = Function.update s.thr θ x) :
    Function.update (s.onBehalf i c).thr θ x = (t.onBehalf i c).thr := by
  unfold State.onBehalf
  simp only [ht]
  rw [Function.update_comm hθ.symm, Function.update_of_ne hθ.symm]

theorem setThr_onBehalf_self {t : State D ι π ω} (ht : t.thr = Function.update s.thr (.caller i) x) :
    Function.update (s.onBehalf i c).thr (.caller i) (x.map (Frame.onBehalf c)) = (t.onBehalf i c).thr := by
  unfold State.onBehalf
  simp [ht]

variable {t : State D ι π ω} (ht : t = s.onBehalf i c)
include ht

theorem goto_onBehalf (hθ : θ ≠ .caller i) (pc : Pc) (q : Option D.Pc) :
    t.goto θ pc q = (s.goto θ pc q).onBehalf i c := by
  subst ht
  have h := setThr_onBehalf (c := c) (some ⟨pc, q⟩) hθ (t := s.goto θ pc q) rfl
  exact congrArg (fun thr => { s with thr := thr }) h

theorem goto_onBehalf_self (pc : Pc) (q : Option D.Pc) :
    t.goto (.caller i) (pc.onBehalf c) q = (s.goto (.caller i) pc q).onBehalf i c := by
  subst ht
  have h := setThr_onBehalf_self (c := c) (some ⟨pc, q⟩) (t := s.goto (.caller i) pc q) rfl
  exact congrArg (fun thr => { s with thr := thr }) h

theorem leave_onBehalf (hθ : θ ≠ .caller i) (p : π) : t.leave p θ = (s.leave p θ).onBehalf i c := by
  subst ht
  have h := setThr_onBehalf (c := c) none hθ (t := s.leave p θ) rfl
  exact congrArg (fun thr => { s.leave p θ with thr := thr }) h

theorem leave_onBehalf_self (p : π) : t.leave p (.caller i) = (s.leave p (.caller i)).onBehalf i c := by
  subst ht
  have h := setThr_onBehalf_self (c := c) none (t := s.leave p (.caller i)) rfl
  exact congrArg (fun thr => { s.leave p (.caller i) with thr := thr }) h

end Commute

theorem act_onBehalf_other {θ : Thread ι ω} (hθ : θ ≠ .caller i) (inp : Input) :
    act O (s.onBehalf i c) θ inp = (act O s θ inp).map (State.onBehalf i c) := by
  have hthr : (s.onBehalf i c).thr θ = s.thr θ := by simp [State.onBehalf, hθ]
  unfold act
  rw [hthr]
  cases s.thr θ with
  | none => rfl
  | some fr =>
    simp only [State.onBehalf_fields, State.onBehalf_mtx]
    cases code (O.cfg θ.obj) (s.fields θ.obj) fr.pc with
    | tau f pc => cases inp <;> first | rfl | exact congrArg some (goto_onBehalf (by rfl) hθ _ _)
    | lock pc =>
      cases inp with
      | none =>
        simp only
        split
        · exact congrArg some (goto_onBehalf (by rfl) hθ _ _)
        · rfl
      | _ => rfl
    | unlock pc => cases inp <;> first | rfl | exact congrArg some (goto_onBehalf (by rfl) hθ _ _)
    | call op k =>
      cases inp with
      | db fault =>
        have hstep : dbStep (s.onBehalf i c) θ.obj fr.db op fault = dbStep s θ.obj fr.db op fault := rfl
        simp only [hstep]
        cases (dbStep s θ.obj fr.db op fault).resp with
        | more q => exact congrArg some (goto_onBehalf (by rfl) hθ _ _)
        | done r => exact congrArg some (goto_onBehalf (by rfl) hθ _ _)
        | raise what => exact congrArg some (leave_onBehalf (by rfl) hθ _)
      | _ => rfl
    | clock k => cases inp <;> first | rfl | exact congrArg some (goto_onBehalf (by rfl) hθ _ _)
    | shuffle k =>
      cases inp with
      | shuffle v =>
        simp only
        split
        · exact congrArg some (goto_onBehalf (by rfl) hθ _ _)
        · rfl
      | _ => rfl
    | pushEvent f period pc => cases inp <;> first | rfl | exact congrArg some (goto_onBehalf (by rfl) hθ _ _)
    | ret res => cases inp <;> first | rfl | exact congrArg some (leave_onBehalf (by rfl) hθ _)
    | throw => cases inp <;> first | rfl | exact congrArg some (leave_onBehalf (by rfl) hθ _)

theorem act_onBehalf_self (h : s.inMain i = true) (inp : Input) :
    act O (s.onBehalf i c) (.caller i) inp = (act O s (.caller i) inp).map (State.onBehalf i c) := by
  unfold State.inMain at h
  unfold act
  cases hfr : s.thr (.caller i) with
  | none => rw [hfr] at h; cases h
  | some fr =>
    rw [hfr] at h
    replace h : fr.pc.inMain = true := h
    have hthr : (s.onBehalf i c).thr (.caller i) = some (fr.onBehalf c) := by simp [State.onBehalf, hfr]
    rw [hthr]
    simp only [State.onBehalf_fields, State.onBehalf_mtx, Frame.onBehalf, code_onBehalf _ _ c h]
    cases code (O.cfg (Thread.caller i : Thread ι ω).obj) (s.fields (Thread.caller i : Thread ι ω).obj) fr.pc with
    | tau f pc => cases inp <;> first | rfl | exact congrArg some (goto_onBehalf_self (by rfl) _ _)
    | lock pc =>
      cases inp with
      | none =>
        simp only [Instr.map]
        split
        · exact congrArg some (goto_onBehalf_self (by rfl) _ _)
        · rfl
      | _ => rfl
    | unlock pc => cases inp <;> first | rfl | exact congrArg some (goto_onBehalf_self (by rfl) _ _)
    | call op k =>
      cases inp with
      | db fault =>
        have hstep : dbStep (s.onBehalf i c) (Thread.caller i : Thread ι ω).obj fr.db op fault =
            dbStep s (Thread.caller i : Thread ι ω).obj fr.db op fault := rfl
        simp only [Instr.map, hstep]
        cases (dbStep s (Thread.caller i : Thread ι ω).obj fr.db op fault).resp with
        | more q => exact congrArg some (goto_onBehalf_self (by rfl) _ _)
        | done r => exact congrArg some (goto_onBehalf_self (by rfl) _ _)
        | raise what => exact congrArg some (leave_onBehalf_self (by rfl) _)
      | _ => rfl
    | clock k => cases inp <;> first | rfl | exact congrArg some (goto_onBehalf_self (by rfl) _ _)
    | shuffle k =>
      cases inp with
      | shuffle v =>
        simp only [Instr.map]
        split
        · exact congrArg some (goto_onBehalf_self (by rfl) _ _)
        · rfl
      | _ => rfl
    | pushEvent f period pc => cases inp <;> first | rfl | exact congrArg some (goto_onBehalf_self (by rfl) _ _)
    | ret res =>
      cases inp with
      | none =>
        simp only [Instr.map, heldAfter_onBehalf]
        exact congrArg some (leave_onBehalf_self (by rfl) _)
      | _ => rfl
    | throw => cases inp <;> first | rfl | exact congrArg some (leave_onBehalf_self (by rfl) _)

/-- **Inside `MainLockFunction` every step is the same.** -/
theorem next_onBehalf (h : s.inMain i = true) (l : Label ι ω) :
    next O (s.onBehalf i c) l = (next O s l).map (State.onBehalf i c) := by
  have hnone : ∀ θ, ((s.onBehalf i c).thr θ).isNone = (s.thr θ).isNone := by
    intro θ
    by_cases hθ : θ = .caller i
    · subst hθ; simp [State.onBehalf]
    · simp [State.onBehalf, hθ]
  cases l with
  | tick t =>
    simp only [next, State.onBehalf_now]
    split <;> rfl
  | call j m =>
    simp only [next, hnone]
    split
    · rename_i hj
      have hne : Thread.caller j ≠ (.caller i : Thread ι ω) := by
        rintro ⟨⟩
        unfold State.inMain at h
        rw [Option.isNone_iff_eq_none.mp hj] at h
        cases h
      have hthr := setThr_onBehalf (c := c) (some ⟨m.entry, none⟩) hne (t := s.enter j m) rfl
      exact congrArg (fun thr => some { s.enter j m with thr := thr }) hthr
    · rfl
  | keep j w =>
    simp only [next, hnone]
    split
    · exact congrArg some (goto_onBehalf (by rfl) (by simp) _ _)
    · rfl
  | act θ inp =>
    by_cases hθ : θ = .caller i
    · subst hθ; exact act_onBehalf_self h inp
    · exact act_onBehalf_other hθ inp

/-- The runs of the system while the object `i` is inside `MainLockFunction`. -/
def attempt (O : Objects ι π) (D : DBInterface) (ω : Type) [DecidableEq ω] (i : ι) (s : State D ι π ω)
    (ls : List (Label ι ω)) : Option (State D ι π ω) :=
  (system O D ω).runWith (fun s _ => s.inMain i) s ls

/-- **Every run of an attempt is the same**, whichever method makes it. -/
theorem attempt_onBehalf (i : ι) (c : Caller) (ls : List (Label ι ω)) (s : State D ι π ω) :
    attempt O D ω i (s.onBehalf i c) ls = (attempt O D ω i s ls).map (State.onBehalf i c) := by
  induction ls generalizing s with
  | nil => rfl
  | cons l ls ih =>
    unfold attempt Machine.runWith
    rw [inMain_onBehalf]
    split
    · rename_i h
      have hnext : (system O D ω).next (s.onBehalf i c) l = _ := next_onBehalf h l
      rw [hnext]
      show _ = Option.map _ (((next O s l)).bind _)
      cases next O s l with
      | none => rfl
      | some s' => exact ih s'
    · rfl

end DistributedLock.Cluster
