import DistributedLock.Cluster.Basic
import DistributedLock.Redis.Steps

/-!
# Every operation on the key runs in the selected database

The database selected on a connection is hidden state of the object, shared by its caller and its workers.

* `KindInv`: the caller's thread is outside `KeepLock`, the workers are inside it;
* `ConnInv`: the selected database is the one the thread inside `mtx_` is working on (`Pc.target`), and a thread
  in the middle of a database operation is inside the operation its program point calls.
-/

set_option linter.unusedSectionVars false

namespace DistributedLock.Cluster

open Lib Redis DMutex

variable {D : DBInterface} {ι π ω : Type} [DecidableEq ι] [DecidableEq π] [DecidableEq ω] {O : Objects ι π}
  {s s' : State D ι π ω} {θ : Thread ι ω} {fr : Frame D} {inp : Input}

/-! ## Callers and workers -/

def Thread.isWorker : Thread ι ω → Bool
  | .caller _ => false
  | .worker _ _ => true

/-- The workers run `KeepLock`, the callers do not. -/
def KindInv (s : State D ι π ω) : Prop :=
  ∀ θ fr, s.thr θ = some fr → fr.pc.keep = θ.isWorker

namespace KindInv

theorem frame (h : KindInv s) {x : Option (Frame D)} (hthr : s'.thr = Function.update s.thr θ x)
    (hx : ∀ fr', x = some fr' → fr'.pc.keep = θ.isWorker) : KindInv s' := by
  intro θ' fr' h1
  rw [hthr] at h1
  by_cases hθ : θ' = θ
  · subst hθ
    rw [Function.update_self] at h1
    exact hx fr' h1
  · rw [Function.update_of_ne hθ] at h1
    exact h θ' fr' h1

theorem act (h : KindInv s) (hs : Cluster.act O s θ inp = some s') : KindInv s' := by
  obtain ⟨fr, hfr, ha⟩ := act_cases hs
  have hk := code_keep (O.cfg θ.obj) (s.fields θ.obj) fr.pc
  have hθ := h θ fr hfr
  cases ha with
  | tau hc => rw [hc] at hk; exact h.frame rfl (by rintro _ ⟨⟩; exact hk.1.trans hθ)
  | lock hc hfree => rw [hc] at hk; exact h.frame rfl (by rintro _ ⟨⟩; exact Eq.trans hk hθ)
  | unlock hc => rw [hc] at hk; exact h.frame rfl (by rintro _ ⟨⟩; exact Eq.trans hk hθ)
  | more hc hr => exact h.frame rfl (by rintro _ ⟨⟩; exact hθ)
  | done hc hr => rw [hc] at hk; exact h.frame rfl (by rintro _ ⟨⟩; exact (hk _).trans hθ)
  | raise hc hr => exact h.frame rfl (by rintro _ ⟨⟩)
  | clock hc => rw [hc] at hk; exact h.frame rfl (by rintro _ ⟨⟩; exact (hk _).trans hθ)
  | shuffle hc hv => rw [hc] at hk; exact h.frame rfl (by rintro _ ⟨⟩; exact (hk _).trans hθ)
  | pushEvent hc => rw [hc] at hk; exact h.frame rfl (by rintro _ ⟨⟩; exact hk.1.trans hθ)
  | ret hc => exact h.frame rfl (by rintro _ ⟨⟩)
  | throw hc => exact h.frame rfl (by rintro _ ⟨⟩)

theorem step (h : KindInv s) {l : Label ι ω} (hs : next O s l = some s') : KindInv s' := by
  rcases next_cases hs with ⟨t, rfl, -, rfl⟩ | ⟨i, c, rfl, -, rfl⟩ | ⟨i, w, rfl, -, rfl⟩ | ⟨θ, inp, rfl, ha⟩
  · exact h
  · exact h.frame rfl (by rintro _ ⟨⟩; cases c <;> rfl)
  · exact h.frame rfl (by rintro _ ⟨⟩; rfl)
  · exact h.act ha

theorem of_reach {ok : State D ι π ω → Label ι ω → Prop} (h : (system O D ω).Reach ok s) : KindInv s :=
  h.invariant (I := KindInv) (fun _ h₀ θ fr h1 => by simp [h₀.thr θ] at h1)
    (fun _ _ _ _ hi _ hn => hi.step hn)

end KindInv

/-! ## The selected database -/

variable {inside : DBOp → D.Pc → Prop}

structure ConnInv (inside : DBOp → D.Pc → Prop) (O : Objects ι π) (s : State D ι π ω) : Prop where
  selected : ∀ θ fr h, s.thr θ = some fr → fr.pc.target = some h → s.conn θ.obj = h
  within : ∀ θ fr q, s.thr θ = some fr → fr.db = some q →
    ∃ op, fr.pc.keyed (O.cfg θ.obj) = some op ∧ inside op q

namespace ConnInv

/-- A step that changes the frame of one thread; the connection of its object may have changed too, if the
thread owns `mtx_`. -/
theorem frame (h : ConnInv inside O s) (hm : MutexInv O s) {x : Option (Frame D)}
    (hthr : s'.thr = Function.update s.thr θ x)
    (hconn : ∀ i, s'.conn i = s.conn i ∨ (i = θ.obj ∧ ∃ fr, s.thr θ = some fr ∧ fr.pc.owned = true))
    (hx : ∀ fr', x = some fr' → (∀ h, fr'.pc.target = some h → s'.conn θ.obj = h) ∧
      ∀ q, fr'.db = some q → ∃ op, fr'.pc.keyed (O.cfg θ.obj) = some op ∧ inside op q) :
    ConnInv inside O s' := by
  refine ⟨fun θ' fr' x h1 h2 => ?_, fun θ' fr' q' h1 h2 => ?_⟩
  · rw [hthr] at h1
    by_cases hθ : θ' = θ
    · subst hθ
      rw [Function.update_self] at h1
      exact (hx fr' h1).1 x h2
    · rw [Function.update_of_ne hθ] at h1
      rcases hconn θ'.obj with hc | ⟨hi, fr, hfr, hown⟩
      · rw [hc]; exact h.selected θ' fr' x h1 h2
      · -- both threads would be inside `mtx_`
        exact absurd (hm.unique (by rw [hi]) h1 (Pc.owned_of_target h2) hfr hown) hθ
  · rw [hthr] at h1
    by_cases hθ : θ' = θ
    · subst hθ
      rw [Function.update_self] at h1
      exact (hx fr' h1).2 q' h2
    · rw [Function.update_of_ne hθ] at h1
      exact h.within θ' fr' q' h1 h2

/-- The program point of the database operation a thread is in belongs to the operation it calls. -/
theorem inside_getD (h : ConnInv inside O s) (hD : D.Lawful inside) (hfr : s.thr θ = some fr) {op : DBOp}
    {k : DBResult → Pc} (hc : code (O.cfg θ.obj) (s.fields θ.obj) fr.pc = .call op k) :
    inside op (fr.db.getD (D.start op)) := by
  cases hq : fr.db with
  | none => exact hD.start op
  | some q =>
    obtain ⟨op', h1, h2⟩ := h.within θ fr q hfr hq
    have ha := code_aims (O.cfg θ.obj) (s.fields θ.obj) fr.pc
    rw [hc] at ha
    rcases ha with ⟨index, rfl, -⟩ | ⟨-, hk, -⟩
    · -- a keyed program point calls no `SelectDB`
      cases hpc : fr.pc <;> rw [hpc] at h1 hc <;> simp [Pc.keyed, code] at h1 hc
    · rw [hk] at h1
      cases h1
      exact h2

theorem act (h : ConnInv inside O s) (hm : MutexInv O s) (hD : D.Lawful inside)
    (hs : Cluster.act O s θ inp = some s') : ConnInv inside O s' := by
  obtain ⟨fr, hfr, ha⟩ := act_cases hs
  have hk := code_keeps (O.cfg θ.obj) (s.fields θ.obj) fr.pc
  have haim := code_aims (O.cfg θ.obj) (s.fields θ.obj) fr.pc
  have hdb : ∀ {op : DBOp} {k : DBResult → Pc} (fault : Fault),
      code (O.cfg θ.obj) (s.fields θ.obj) fr.pc = .call op k →
      ∀ i, (afterDb s θ.obj fr.db op fault).conn i = s.conn i ∨
        (i = θ.obj ∧ ∃ fr, s.thr θ = some fr ∧ fr.pc.owned = true) := by
    intro op k fault hc i
    rw [hc] at hk
    by_cases hi : i = θ.obj
    · exact .inr ⟨hi, fr, hfr, hk.1⟩
    · exact .inl (by simp [afterDb, hi])
  -- a program point with no target asks nothing
  have hno : ∀ {pc : Pc} {t : State D ι π ω}, pc.target = none →
      ∀ fr', some (⟨pc, none⟩ : Frame D) = some fr' → (∀ h, fr'.pc.target = some h → t.conn θ.obj = h) ∧
        ∀ q, fr'.db = some q → ∃ op, fr'.pc.keyed (O.cfg θ.obj) = some op ∧ inside op q := by
    rintro pc t h1 _ ⟨⟩
    exact ⟨fun x h2 => (by rw [h1] at h2; cases h2), fun q h2 => by cases h2⟩
  cases ha with
  | tau hc => rw [hc] at haim; exact h.frame hm rfl (fun _ => .inl rfl) (hno haim)
  | lock hc hfree => rw [hc] at haim; exact h.frame hm rfl (fun _ => .inl rfl) (hno haim)
  | unlock hc => rw [hc] at haim; exact h.frame hm rfl (fun _ => .inl rfl) (hno haim)
  | @more op k fault q hc hr =>
    have hin := h.inside_getD hD hfr hc
    obtain ⟨hq, hop⟩ := hD.more hin hr
    rw [hc] at haim
    refine h.frame hm rfl (hdb fault hc) ?_
    rintro _ ⟨⟩
    refine ⟨fun x hx => ?_, ?_⟩
    · have hkeep : (afterDb s θ.obj fr.db op fault).conn θ.obj = s.conn θ.obj := by
        simp [afterDb, dbStep, hD.db hin hop]
      exact hkeep.trans (h.selected θ fr x hfr hx)
    · rintro q' ⟨⟩
      rcases haim with ⟨index, rfl, -⟩ | ⟨-, hkey, -⟩
      · exact absurd rfl (hop index)
      · exact ⟨op, hkey, hq⟩
  | @done op k fault r hc hr =>
    have hin := h.inside_getD hD hfr hc
    rw [hc] at haim
    refine h.frame hm rfl (hdb fault hc) ?_
    rintro _ ⟨⟩
    refine ⟨fun x hx => ?_, fun q hq => by cases hq⟩
    rcases haim with ⟨index, rfl, hsel⟩ | ⟨-, -, hnone⟩
    · obtain ⟨rfl, rfl⟩ := hsel r x hx
      simp [afterDb, dbStep, hD.select hin hr]
    · rw [hnone r] at hx; cases hx
  | @raise op k fault what hc hr => exact h.frame hm rfl (hdb fault hc) (by rintro _ ⟨⟩)
  | clock hc => rw [hc] at haim; exact h.frame hm rfl (fun _ => .inl rfl) (hno (haim _))
  | shuffle hc hv => rw [hc] at haim; exact h.frame hm rfl (fun _ => .inl rfl) (hno (haim _))
  | pushEvent hc => rw [hc] at haim; exact h.frame hm rfl (fun _ => .inl rfl) (hno haim)
  | ret hc => exact h.frame hm rfl (fun _ => .inl rfl) (by rintro _ ⟨⟩)
  | throw hc => exact h.frame hm rfl (fun _ => .inl rfl) (by rintro _ ⟨⟩)

theorem step (h : ConnInv inside O s) (hm : MutexInv O s) (hD : D.Lawful inside) {l : Label ι ω}
    (hs : next O s l = some s') : ConnInv inside O s' := by
  rcases next_cases hs with ⟨t, rfl, -, rfl⟩ | ⟨i, c, rfl, -, rfl⟩ | ⟨i, w, rfl, -, rfl⟩ | ⟨θ, inp, rfl, ha⟩
  · exact ⟨h.selected, h.within⟩
  · refine h.frame hm rfl (fun j => .inl rfl) ?_
    rintro _ ⟨⟩
    exact ⟨fun x hx => (by cases c <;> cases hx), fun q hq => by cases hq⟩
  · refine h.frame hm rfl (fun j => .inl rfl) ?_
    rintro _ ⟨⟩
    exact ⟨fun x hx => (by cases hx), fun q hq => by cases hq⟩
  · exact h.act hm hD ha

/-- **The selected database is the one worked on**, in every reachable state. -/
theorem of_reach {ok : State D ι π ω → Label ι ω → Prop} (hD : D.Lawful inside)
    (h : (system O D ω).Reach ok s) : ConnInv inside O s :=
  h.invariant (I := ConnInv inside O)
    (fun _ h₀ => ⟨fun θ fr x h1 => by simp [h₀.thr θ] at h1, fun θ fr q h1 => by simp [h₀.thr θ] at h1⟩)
    (fun _ _ _ hr hi _ hn => hi.step (MutexInv.of_reach hr) hD hn)

end ConnInv

end DistributedLock.Cluster
