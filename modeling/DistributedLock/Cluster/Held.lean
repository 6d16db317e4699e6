import DistributedLock.Cluster.Callers

/-!
# The flags of a held object

`lock_status_` and `lock_continue_` are raised together, at the acceptance, and lowered together, by `UnlockAll`.  In
the runs that use every object alternately, an object that is held has both flags up and its caller in no method
(`FlagsInv`).
-/

set_option linter.unusedSectionVars false

namespace DistributedLock.DMutex

open Redis

/-- The acceptance has raised the flags, and the call has not returned yet. -/
def Pc.accepted : Pc → Bool
  | .mainAcceptUnlock .. | .done true => true
  | _ => false

/-- What an instruction does to the flags: only the acceptance raises them. -/
def Raises (f : Fields) (pc : Pc) : Instr → Prop
  | .tau f' pc' => pc'.accepted = false ∧
      (f'.lockStatus = true → f.lockStatus = true ∧ f'.lockContinue = f.lockContinue)
  | .lock pc' => pc'.accepted = false
  | .unlock pc' => pc'.accepted = true → pc.accepted = true
  | .call _ k => ∀ r, (k r).accepted = false
  | .clock k => ∀ t, (k t).accepted = false
  | .shuffle k => ∀ v, (k v).accepted = false
  | .pushEvent f' _ _ => f'.lockStatus = true ∧ f'.lockContinue = true
  | .ret _ | .throw => True

theorem code_raises (cfg : Cfg) (f : Fields) (pc : Pc) : Raises f pc (code cfg f pc) := by
  cases pc with
  | failed c =>
    cases c with
    | tryLockFor expire start => simp only [code]; intro t; beta_reduce; split <;> rfl
    | _ => exact ⟨rfl, fun h => ⟨h, rfl⟩⟩
  | mainTest c p => simp only [code, mainTest]; split <;> exact ⟨rfl, fun h => ⟨h, rfl⟩⟩
  | mainLock c p => simp only [code]; split <;> trivial
  | mainSelect c p => simp only [code]; intro r; beta_reduce; split <;> rfl
  | mainResult c p r => simp only [code, mainResult]; split <;> exact ⟨rfl, fun h => ⟨h, rfl⟩⟩
  | mainTimeout c p => simp only [code]; intro t; beta_reduce; split <;> rfl
  | mainQuorum c p => simp only [code]; split <;> exact ⟨rfl, fun h => ⟨h, rfl⟩⟩
  | mainValidity c p => simp only [code]; intro t; beta_reduce; split <;> rfl
  | mainAcceptLock c p => simp only [code]; split <;> trivial
  | mainAcceptUnlock c p => exact fun _ => rfl
  | unlockSelect c rest m =>
    cases rest with
    | nil => cases c <;> (intro h; cases h)
    | cons host rest => simp only [code]; intro r; beta_reduce; split <;> rfl
  | keepCheck =>
    simp only [code, keepCheck]
    split
    · intro h; cases h
    · split <;> (intro h; cases h)
  | keepTest owns m =>
    simp only [code, keepTest]
    split
    · exact ⟨rfl, fun h => ⟨h, rfl⟩⟩
    · split
      · intro h; cases h
      · exact ⟨rfl, fun h => ⟨h, rfl⟩⟩
  | keepRelock owns m => simp only [code]; split <;> trivial
  | keepSelect m =>
    simp only [code]
    split
    · trivial
    · intro r; beta_reduce; split <;> rfl
  | _ => simp [code, Raises, Pc.accepted]

end DistributedLock.DMutex

namespace DistributedLock.Cluster

open Lib Redis DMutex

variable {D : DBInterface} {ι π ω : Type} [DecidableEq ι] [DecidableEq π] [DecidableEq ω] {O : Objects ι π}
  {s s' : State D ι π ω} {fr : Frame D} {inp : Input} {i : ι} {l : Label ι ω}

theorem status_step (hkind : KindInv s) (hs : next O s l = some s') (hst : (s'.fields i).lockStatus = true) :
    (s.fields i).lockStatus = true ∨ ∃ inp fr f period pc, l = .act (.caller i) inp ∧ s.thr (.caller i) = some fr ∧
      code (O.cfg i) (s.fields i) fr.pc = .pushEvent f period pc := by
  by_cases hact : ∃ inp, l = .act (.caller i) inp
  · obtain ⟨inp, rfl⟩ := hact
    obtain ⟨fr, hfr, ha⟩ := act_cases hs
    have hk : Raises (s.fields i) fr.pc (code (O.cfg i) (s.fields i) fr.pc) := code_raises _ _ _
    cases ha with
    | tau hc =>
      simp only [Thread.obj] at hc
      rw [hc] at hk
      simp only [State.goto_fields, State.setFields_fields, Thread.obj, Function.update_self] at hst
      exact .inl (hk.2 hst).1
    | pushEvent hc => exact .inr ⟨_, fr, _, _, _, rfl, hfr, hc⟩
    | _ => exact .inl hst
  · push Not at hact
    by_cases hcall : ∃ c, l = .call i c
    · obtain ⟨c, rfl⟩ := hcall
      rcases next_cases hs with ⟨_, hl, -⟩ | ⟨_, _, hl, -, rfl⟩ | ⟨_, _, hl, -⟩ | ⟨_, _, hl, -⟩ <;> cases hl
      exact .inl hst
    · push Not at hcall
      rw [(next_other hkind hs hcall hact).2] at hst
      exact .inl hst

def Alternating (s : State D ι π ω) (l : Label ι ω) : Prop := ∀ i c, l = .call i c → Alternates (s.held i) c

/-- The flags of the object `i`, when it has been accepted and when it is held. -/
structure FlagsInv (i : ι) (s : State D ι π ω) : Prop where
  flags : (s.fields i).lockStatus = true → (s.fields i).lockContinue = true
  accepted : ∀ fr, s.thr (.caller i) = some fr → fr.pc.accepted = true → (s.fields i).lockStatus = true
  held : s.held i = true → s.thr (.caller i) = none ∧ (s.fields i).lockStatus = true

namespace FlagsInv

theorem init (h : Initial s) : FlagsInv i s := by
  refine ⟨fun hst => ?_, fun fr hfr => ?_, fun hheld => ?_⟩
  · rw [h.fields] at hst
    cases hst
  · rw [h.thr] at hfr
    cases hfr
  · rw [h.held] at hheld
    cases hheld

theorem act_flags (h : FlagsInv i s) (hs : act O s (.caller i) inp = some s') :
    ((s'.fields i).lockStatus = true → (s'.fields i).lockContinue = true) ∧
    ∀ fr', s'.thr (.caller i) = some fr' → fr'.pc.accepted = true → (s'.fields i).lockStatus = true := by
  obtain ⟨fr, hfr, ha⟩ := act_cases hs
  have hk : Raises (s.fields i) fr.pc (code (O.cfg i) (s.fields i) fr.pc) := code_raises _ _ _
  -- the frame of the caller after the step, when its members are unchanged
  have hkeep : ∀ {pc : Pc} {q : Option D.Pc} {t : State D ι π ω}, t.fields = s.fields →
      t.thr = Function.update s.thr (.caller i) (some ⟨pc, q⟩) → (pc.accepted = true → fr.pc.accepted = true) →
      ((t.fields i).lockStatus = true → (t.fields i).lockContinue = true) ∧
      ∀ fr', t.thr (.caller i) = some fr' → fr'.pc.accepted = true → (t.fields i).lockStatus = true := by
    intro pc q t hf hthr hacc
    rw [hf, hthr, Function.update_self]
    refine ⟨h.flags, ?_⟩
    rintro _ ⟨⟩ hpc
    exact h.accepted fr hfr (hacc hpc)
  have hnone : ∀ {t : State D ι π ω}, t.fields = s.fields → t.thr = Function.update s.thr (.caller i) none →
      ((t.fields i).lockStatus = true → (t.fields i).lockContinue = true) ∧
      ∀ fr', t.thr (.caller i) = some fr' → fr'.pc.accepted = true → (t.fields i).lockStatus = true := by
    intro t hf hthr
    rw [hf, hthr, Function.update_self]
    exact ⟨h.flags, by rintro _ ⟨⟩⟩
  cases ha with
  | @tau f pc hc =>
    simp only [Thread.obj] at hc
    rw [hc] at hk
    refine ⟨fun hst => ?_, fun fr' hfr' hacc => ?_⟩
    · simp only [State.goto_fields, State.setFields_fields, Thread.obj, Function.update_self] at hst ⊢
      obtain ⟨h1, h2⟩ := hk.2 hst
      rw [h2]
      exact h.flags h1
    · simp only [State.goto_thr, Function.update_self, Option.some.injEq] at hfr'
      subst hfr'
      rw [hk.1] at hacc
      cases hacc
  | pushEvent hc =>
    simp only [Thread.obj] at hc
    rw [hc] at hk
    simp only [State.goto_fields, State.setFields_fields, Thread.obj, Function.update_self]
    exact ⟨fun _ => hk.2, fun _ _ _ => hk.1⟩
  | lock hc hfree =>
    simp only [Thread.obj] at hc
    rw [hc] at hk
    refine hkeep rfl rfl fun hacc => ?_
    rw [hk] at hacc
    cases hacc
  | unlock hc =>
    simp only [Thread.obj] at hc
    rw [hc] at hk
    exact hkeep rfl rfl hk
  | more hc hr => exact hkeep rfl rfl fun hacc => hacc
  | done hc hr =>
    simp only [Thread.obj] at hc
    rw [hc] at hk
    refine hkeep rfl rfl fun hacc => ?_
    rw [hk] at hacc
    cases hacc
  | clock hc =>
    simp only [Thread.obj] at hc
    rw [hc] at hk
    refine hkeep rfl rfl fun hacc => ?_
    rw [hk] at hacc
    cases hacc
  | shuffle hc hv =>
    simp only [Thread.obj] at hc
    rw [hc] at hk
    refine hkeep rfl rfl fun hacc => ?_
    rw [hk] at hacc
    cases hacc
  | raise hc hr | ret hc | throw hc => exact hnone rfl rfl

theorem step (h : FlagsInv i s) (hkind : KindInv s) (hok : Alternating s l) (hs : next O s l = some s') :
    FlagsInv i s' := by
  have hflags : ((s'.fields i).lockStatus = true → (s'.fields i).lockContinue = true) ∧
      ∀ fr', s'.thr (.caller i) = some fr' → fr'.pc.accepted = true → (s'.fields i).lockStatus = true := by
    by_cases hact : ∃ inp, l = .act (.caller i) inp
    · obtain ⟨inp, rfl⟩ := hact
      exact h.act_flags hs
    push Not at hact
    by_cases hcall : ∃ c, l = .call i c
    · obtain ⟨c, rfl⟩ := hcall
      rcases next_cases hs with ⟨_, hl, -⟩ | ⟨_, _, hl, -, rfl⟩ | ⟨_, _, hl, -⟩ | ⟨_, _, hl, -⟩ <;> cases hl
      refine ⟨h.flags, fun fr' hfr' hacc => ?_⟩
      simp only [State.enter_thr, Function.update_self, Option.some.injEq] at hfr'
      subst hfr'
      cases c <;> cases hacc
    · push Not at hcall
      obtain ⟨hthr, hf⟩ := next_other hkind hs hcall hact
      rw [hthr, hf]
      exact ⟨h.flags, h.accepted⟩
  refine ⟨hflags.1, hflags.2, fun hheld => ?_⟩
  rcases next_held hkind hs hheld with ⟨hheld, hne⟩ | ⟨fr, hfr, hpc, hnone, hf⟩
  · obtain ⟨hnone, hst⟩ := h.held hheld
    -- a held object can be unlocked only
    have hl : ∀ c, l ≠ .call i c := by
      rintro c rfl
      have halt := hok i c rfl
      rw [hheld] at halt
      cases c with
      | unlock => exact hne rfl
      | tryLock => exact halt
      | lock | tryLockFor _ => cases halt
    obtain ⟨hnone', hf⟩ := next_idle hkind hs hnone hl
    rw [hf]
    exact ⟨hnone', hst⟩
  · rw [hf]
    exact ⟨hnone, h.accepted fr hfr (by rw [hpc]; rfl)⟩

theorem of_reach (h : (system O D ω).Reach Alternating s) : FlagsInv i s :=
  h.invariant (I := FlagsInv i) (fun _ h₀ => init h₀) fun _ _ _ hr hi hok hn => hi.step (.of_reach hr) hok hn

end FlagsInv

end DistributedLock.Cluster
