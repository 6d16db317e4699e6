import DistributedLock.Cluster.Release

/-!
# Is `unlock()` final?

The history variable `released` says that `UnlockAll` has returned and that no attempt has begun since.  `KeepLock`
tests `lock_continue_` once and then gives up `mtx_` between the hosts, and `UpdateExpire` sets the key when it is
absent: a pass that has made its test before `UnlockAll` took `mtx_` sets the released key again
(`renewal_recreates_key`).

In the runs in which `UnlockAll` takes `mtx_` only when no pass of `KeepLock` has a host ahead (`Calm`), a released object
has no entry in any of its databases (`unlock_final`).
-/

set_option linter.unusedSectionVars false

namespace DistributedLock.Cluster

open Lib Redis DMutex

variable {n : ℕ} {ι π ω : Type} [DecidableEq ι] [DecidableEq π] [DecidableEq ω] {O : Objects ι π}
  {s s' : State (dbRedis n) ι π ω} {fr fr' : Frame (dbRedis n)} {inp : Input} {i : ι} {l : Label ι ω}

/-! ## The system with the release -/

/-- `UnlockAll` has returned, and no attempt has begun since. -/
def releasedPc (released : Bool) (pc : Pc) (_ : Option Pc) : Bool :=
  match pc with
  | .mainStart _ => false
  | .unlockSelect _ [] _ => true
  | _ => released

def releasing (O : Objects ι π) (n : ℕ) (ω : Type) [DecidableEq ω] :
    Machine (State (dbRedis n) ι π ω × (ι → Bool)) (Label ι ω) :=
  (system O (dbRedis n) ω).withHistory (fun _ => false) (atCaller fun _ _ _ => releasedPc)

/-- The commands of the object `i` are answered; and when `UnlockAll` takes `mtx_`, no pass of `KeepLock` has a host
ahead. -/
structure Calm (i : ι) (s : State (dbRedis n) ι π ω) (l : Label ι ω) : Prop where
  answered : ∀ θ fault, l = .act θ (.db fault) → θ.obj = i → fault = .none
  ahead : ∀ fr c owns inp, l = .act (.caller i) inp → s.thr (.caller i) = some fr → fr.pc = .unlockLock c owns →
    ∀ w fr', s.thr (.worker i w) = some fr' → ¬ fr'.pc.ahead (s.fields i)

/-! ## Steps of the caller -/

theorem still_of_act (hs : act O s (.caller i) inp = some s') (hfr : s.thr (.caller i) = some fr)
    (hp : fr.pc.passing = false) :
    (s'.fields i).haveLockNum.length ≤ (s.fields i).haveLockNum.length ∧
      ((s.fields i).lockContinue = false → (s'.fields i).lockContinue = false) := by
  obtain ⟨fr₀, hfr₀, ha⟩ := act_cases hs
  rw [hfr] at hfr₀
  cases hfr₀
  have hstill : Still (s.fields i) (code (O.cfg i) (s.fields i) fr.pc) := code_still hp
  cases ha with
  | tau hc =>
    simp only [Thread.obj] at hc
    rw [hc] at hstill
    simpa [Thread.obj, Still] using hstill
  | pushEvent hc =>
    simp only [Thread.obj] at hc
    rw [hc] at hstill
    exact hstill.elim
  | _ => exact ⟨le_refl _, fun h => h⟩

/-! ## The invariant -/

/-- The caller of `i` is inside `UnlockAll` and owns `mtx_`. -/
def InUnlock (s : State (dbRedis n) ι π ω) (i : ι) : Prop :=
  ∃ fr, s.thr (.caller i) = some fr ∧ fr.pc.inUnlock = true

theorem owned_of_inUnlock {pc : Pc} (h : pc.inUnlock = true) : pc.owned = true ∧ pc.passing = false := by
  cases pc <;> first | exact ⟨rfl, rfl⟩ | cases h

structure FinalInv (O : Objects ι π) (i : ι) (s : State (dbRedis n) ι π ω) (released : Bool) : Prop where
  calm : released = true ∨ InUnlock s i → ∀ w fr, s.thr (.worker i w) = some fr → ¬ fr.pc.ahead (s.fields i)
  down : released = true → (s.fields i).lockContinue = false
  outside : released = true → ∀ fr, s.thr (.caller i) = some fr → fr.pc.passing = false
  clean : released = true → ∀ h ∈ (O.cfg i).hosts, Clean O i s h

namespace FinalInv

variable {released : Bool}

theorem not_sets (h : FinalInv O i s released) (hkind : KindInv s) (hr : released = true) {θ : Thread ι ω}
    (hfr : s.thr θ = some fr) (hi : θ.obj = i) : ¬ Sets fr.pc := by
  intro hset
  have hk := hkind θ fr hfr
  cases θ with
  | caller j =>
    obtain rfl : j = i := hi
    rcases hset.passing_or_keep with hp | hkeep
    · rw [h.outside hr fr hfr] at hp; cases hp
    · rw [hk] at hkeep; cases hkeep
  | worker j w =>
    obtain rfl : j = i := hi
    refine h.calm (.inl hr) w fr hfr ?_
    cases hpc : fr.pc <;> rw [hpc] at hset hk <;> first | exact hset.elim | trivial

theorem clean_next (h : FinalInv O i s released) (hO : Alone O i) (hkind : KindInv s)
    (hconn : ConnInv DBRedisPc.Inside O s) (hs : next O s l = some s') (hr : released = true) :
    ∀ x ∈ (O.cfg i).hosts, Clean O i s' x := by
  intro x hx
  exact clean_step hO hconn hs (fun θ fr fault _ hfr hi => h.not_sets hkind hr hfr hi) (h.clean hr x hx)

theorem worker_rests (h : FinalInv O i s released) (hm : MutexInv O s) (hkind : KindInv s)
    (hq : released = true ∨ InUnlock s i) {w : ω} (hs : act O s (.worker i w) inp = some s')
    (hfr' : s'.thr (.worker i w) = some fr') : ¬ fr'.pc.ahead (s.fields i) := by
  obtain ⟨fr, hfr, ha⟩ := act_cases hs
  have hrest : RestsOn (s.fields i) (code (O.cfg i) (s.fields i) fr.pc) := by
    refine code_rests (hkind _ fr hfr) (h.calm hq w fr hfr) fun hpc => ?_
    rcases hq with hr | ⟨fr₀, hfr₀, hpc₀⟩
    · exact h.down hr
    · -- at its flag test the worker would own `mtx_` too
      have := hm.unique (θ := .caller i) (by rfl) hfr₀ (owned_of_inUnlock hpc₀).1 hfr (by rw [hpc]; rfl)
      cases this
  cases ha with
  | tau hc =>
    simp only [Thread.obj] at hc
    rw [hc] at hrest
    simp only [State.goto_thr, Function.update_self, Option.some.injEq] at hfr'
    subst hfr'
    exact hrest.2
  | lock hc _ | unlock hc =>
    simp only [Thread.obj] at hc
    rw [hc] at hrest
    simp only [State.goto_thr, Function.update_self, Option.some.injEq] at hfr'
    subst hfr'
    exact hrest
  | more hc hr | done hc hr | raise hc hr | clock hc | shuffle hc hr | pushEvent hc =>
    simp only [Thread.obj] at hc
    rw [hc] at hrest
    exact hrest.elim
  | ret hc | throw hc => simp at hfr'

theorem other (h : FinalInv O i s released) (hO : Alone O i) (hm : MutexInv O s) (hkind : KindInv s)
    (hconn : ConnInv DBRedisPc.Inside O s) (hs : next O s l = some s') (hact : ∀ inp, l ≠ .act (.caller i) inp)
    (hcall : ∀ c, l ≠ .call i c) : FinalInv O i s' released := by
  obtain ⟨hthr, hf⟩ := next_other hkind hs hcall hact
  refine ⟨fun hq w fr' hfr' => ?_, by rw [hf]; exact h.down, by rw [hthr]; exact h.outside,
    h.clean_next hO hkind hconn hs⟩
  have hq' : released = true ∨ InUnlock s i := by
    unfold InUnlock at hq ⊢
    rw [hthr] at hq
    exact hq
  rw [hf]
  rcases next_cases hs with ⟨t, rfl, -, rfl⟩ | ⟨j, c, rfl, -, rfl⟩ | ⟨j, v, rfl, -, rfl⟩ | ⟨θ, inp, rfl, ha⟩
  · exact h.calm hq' w fr' hfr'
  · simp only [State.enter_thr, ne_eq, reduceCtorEq, not_false_eq_true, Function.update_of_ne] at hfr'
    exact h.calm hq' w fr' hfr'
  · by_cases hw : Thread.worker i w = .worker j v
    · rw [hw] at hfr'
      simp only [State.goto_thr, Function.update_self, Option.some.injEq] at hfr'
      subst hfr'
      exact fun ha => ha
    · simp only [State.goto_thr, Function.update_of_ne hw] at hfr'
      exact h.calm hq' w fr' hfr'
  · by_cases hw : Thread.worker i w = θ
    · subst hw
      exact h.worker_rests hm hkind hq' ha hfr'
    · rw [act_thr ha hw] at hfr'
      exact h.calm hq' w fr' hfr'

theorem call (h : FinalInv O i s released) {c : Call} (hs : next O s (.call i c) = some s') :
    FinalInv O i s' released := by
  rcases next_cases hs with ⟨_, hl, -⟩ | ⟨_, _, hl, -, rfl⟩ | ⟨_, _, hl, -⟩ | ⟨_, _, hl, -⟩ <;> cases hl
  have hthr : (s.enter i c).thr (.caller i) = some ⟨c.entry, none⟩ := by simp
  refine ⟨fun hq w fr hfr => ?_, h.down, fun _ fr hfr => ?_, h.clean⟩
  · simp only [State.enter_thr, ne_eq, reduceCtorEq, not_false_eq_true, Function.update_of_ne] at hfr
    refine h.calm (hq.imp_right ?_) w fr hfr
    rintro ⟨fr₀, hfr₀, hin⟩
    rw [hthr] at hfr₀
    cases hfr₀
    cases c <;> cases hin
  · rw [hthr] at hfr
    cases hfr
    cases c <;> rfl

theorem released_cases (h : FinalInv O i s released) (hfr : s.thr (.caller i) = some fr) {x : Option Pc}
    (hr : releasedPc released fr.pc x = true) :
    (∃ c m, fr.pc = .unlockSelect c [] m) ∨ (released = true ∧ fr.pc.passing = false ∧ ∀ c, fr.pc ≠ .mainStart c) := by
  unfold releasedPc at hr
  split at hr
  · cases hr
  · exact .inl ⟨_, _, by assumption⟩
  · rename_i hstart _
    exact .inr ⟨hr, h.outside hr fr hfr, hstart⟩

theorem caller (h : FinalInv O i s released) (hO : Alone O i) (hkind : KindInv s)
    (hconn : ConnInv DBRedisPc.Inside O s) (hunl : UnlockInv O i (Clean O i) s) (hok : Calm i s (.act (.caller i) inp))
    (hs : act O s (.caller i) inp = some s') (hfr : s.thr (.caller i) = some fr) :
    FinalInv O i s' (releasedPc released fr.pc ((s'.thr (.caller i)).map Frame.pc)) := by
  have hs' : next O s (.act (.caller i) inp) = some s' := hs
  -- outside a pass, what is calm stays calm
  have hcalm : fr.pc.passing = false → (∀ w fr, s.thr (.worker i w) = some fr → ¬ fr.pc.ahead (s.fields i)) →
      ∀ w fr', s'.thr (.worker i w) = some fr' → ¬ fr'.pc.ahead (s'.fields i) := by
    intro hp hw w fr' hfr' ha
    rw [act_thr hs (by simp)] at hfr'
    exact hw w fr' hfr' (Pc.ahead_mono (still_of_act hs hfr hp).1 ha)
  refine ⟨fun hq => ?_, fun hr => ?_, fun hr fr' hfr' => ?_, fun hr => ?_⟩
  · rcases hq with hr | ⟨fr', hfr', hin'⟩
    · rcases h.released_cases hfr hr with ⟨c, m, hpc⟩ | ⟨hr', hp, -⟩
      · exact hcalm (by rw [hpc]; rfl) (h.calm (.inr ⟨fr, hfr, by rw [hpc]; rfl⟩))
      · exact hcalm hp (h.calm (.inl hr'))
    · have hin : fr.pc.inUnlock = true ∨ ∃ c owns, fr.pc = .unlockLock c owns := by
        rcases leadsTo_of_act hs hfr hfr' with hpc | hlead
        · exact .inl (by rw [← hpc]; exact hin')
        · exact inUnlock_of_leadsTo hlead hin'
      rcases hin with hin | ⟨c, owns, hpc⟩
      · exact hcalm (owned_of_inUnlock hin).2 (h.calm (.inr ⟨fr, hfr, hin⟩))
      · -- `UnlockAll` takes `mtx_`
        exact hcalm (by rw [hpc]; rfl) (hok.ahead fr c owns inp rfl hfr hpc)
  · rcases h.released_cases hfr hr with ⟨c, m, hpc⟩ | ⟨hr', hp, -⟩
    · have hflags := hunl fr hfr
      rw [hpc] at hflags
      exact (still_of_act hs hfr (by rw [hpc]; rfl)).2 hflags.1
    · exact (still_of_act hs hfr hp).2 (h.down hr')
  · by_contra hpass
    replace hpass : fr'.pc.passing = true := by simpa using hpass
    have hbefore : fr.pc.passing = true ∨ ∃ c, fr.pc = .mainStart c := by
      rcases leadsTo_of_act hs hfr hfr' with hpc | hlead
      · exact .inl (by rw [← hpc]; exact hpass)
      · exact passing_of_leadsTo hlead hpass
    rcases h.released_cases hfr hr with ⟨c, m, hpc⟩ | ⟨-, hp, hstart⟩
    · rcases hbefore with hp | ⟨c', hc'⟩
      · rw [hpc] at hp; cases hp
      · rw [hpc] at hc'; cases hc'
    · rcases hbefore with hp' | ⟨c', hc'⟩
      · rw [hp] at hp'; cases hp'
      · exact hstart c' hc'
  · rcases h.released_cases hfr hr with ⟨c, m, hpc⟩ | ⟨hr', -, -⟩
    · -- the hosts have all been gone through
      have hgone := hunl fr hfr
      rw [hpc] at hgone
      obtain ⟨-, -, gone, hhosts, hclean⟩ := hgone
      intro x hx
      rw [hhosts, List.append_nil] at hx
      refine clean_step hO hconn hs' (fun θ fr₀ fault hl hfr₀ hi hset => ?_) (hclean x hx)
      cases hl
      rw [hfr] at hfr₀
      cases hfr₀
      rw [hpc] at hset
      exact hset
    · exact h.clean_next hO hkind hconn hs' hr'

theorem step (h : FinalInv O i s released) (hO : Alone O i) (hm : MutexInv O s) (hkind : KindInv s)
    (hconn : ConnInv DBRedisPc.Inside O s) (hunl : UnlockInv O i (Clean O i) s) (hok : Calm i s l) (hs : next O s l = some s')
    {rel : ι → Bool} (hrel : rel i = released) : FinalInv O i s' (atCaller (fun _ _ _ => releasedPc) s l s' rel i) := by
  by_cases hact : ∃ inp, l = .act (.caller i) inp
  · obtain ⟨inp, rfl⟩ := hact
    obtain ⟨fr, hfr, -⟩ := act_cases hs
    rw [atCaller_self hfr, hrel]
    exact h.caller hO hkind hconn hunl hok hs hfr
  · push Not at hact
    rw [atCaller_other hact, hrel]
    by_cases hcall : ∃ c, l = .call i c
    · obtain ⟨c, rfl⟩ := hcall
      exact h.call hs
    · push Not at hcall
      exact h.other hO hm hkind hconn hs hact hcall

end FinalInv

/-- The runs of the system with the release are runs of the system, with the commands of `UnlockAll` answered. -/
theorem reach_of_releasing {x : State (dbRedis n) ι π ω × (ι → Bool)}
    (h : (releasing O n ω).Reach (fun x l => Calm i x.1 l) x) : (system O (dbRedis n) ω).Reach (Calm i) x.1 := by
  unfold releasing at h
  exact h.fst fun _ _ hok => hok

theorem finalInv_of_reach (hO : Alone O i) (hn : Configured n (O.cfg i)) {x : State (dbRedis n) ι π ω × (ι → Bool)}
    (h : (releasing O n ω).Reach (fun x l => Calm i x.1 l) x) : FinalInv O i x.1 (x.2 i) := by
  refine h.invariant (I := fun x => FinalInv O i x.1 (x.2 i)) (fun y h₀ => ?_) ?_
  · obtain ⟨h₀, hrel⟩ := h₀
    rw [hrel]
    exact ⟨fun _ w fr hfr => by simp [h₀.thr] at hfr, by simp, by simp, by simp⟩
  · intro y l y' hr hi hok hs
    obtain ⟨hs, hrel⟩ := Machine.withHistory_next.mp hs
    have hr' := reach_of_releasing hr
    have hans : ∀ (s : State (dbRedis n) ι π ω) l, Calm i s l → Answered i s l :=
      fun s l hc fault fr hl _ _ => hc.answered _ fault hl rfl
    rw [hrel]
    exact hi.step hO (.of_reach hr') (.of_reach hr') (.of_reach (dbRedis_lawful n) hr')
      (.of_reach hO hn hans hr') hok hs rfl

/-- **`unlock()` is final**, if no pass of `KeepLock` has a host ahead when `UnlockAll` takes `mtx_`: from the return of
`UnlockAll` to the beginning of the next attempt, no database of `hosts_` holds an entry of the object. -/
theorem unlock_final (hO : Alone O i) (hn : Configured n (O.cfg i)) {released : ι → Bool}
    (h : (releasing O n ω).Reach (fun x l => Calm i x.1 l) (s, released)) (hr : released i = true) :
    ∀ x ∈ (O.cfg i).hosts, ¬ Owns (O.cfg i) s.srv s.now x :=
  (finalInv_of_reach hO hn h).clean hr

/-- The first of two objects is released. -/
theorem unlock_final_two : ∃ x : State (dbRedis 16) Bool Unit Unit × (Bool → Bool),
    (releasing (twoObjects [0, 1]) 16 Unit).Reach (fun x l => Calm false x.1 l) x ∧ x.2 false = true ∧
      ∀ h ∈ [0, 1], ¬ Owns ((twoObjects [0, 1]).cfg false) x.1.srv x.1.now h := by
  have hok : ∀ (x : State (dbRedis 16) Bool Unit Unit × (Bool → Bool)) (l : Label Bool Unit),
      (l.answered && (x.1.thr (.worker false ())).isNone) = true → Calm false x.1 l := by
    intro x l hl
    rw [Bool.and_eq_true, Option.isNone_iff_eq_none] at hl
    obtain ⟨hl, hw⟩ := hl
    refine ⟨?_, fun fr c owns inp _ _ _ w fr' hfr' => by rw [hw] at hfr'; cases hfr'⟩
    intro θ fault h _
    exact Label.fault_of_answered hl h
  obtain ⟨⟨s, rel⟩, hr, hrel⟩ := Machine.exists_reach (releasing (twoObjects [0, 1]) 16 Unit)
    (lockPass false [0, 1] 0 ++ accept false 0 ++ unlockAll false [0, 1]) (fun x => x.2 false) hok
    (s := (State.blank, fun _ => false)) ⟨State.blank_initial, rfl⟩ (by decide)
  refine ⟨(s, rel), hr, hrel, ?_⟩
  exact unlock_final (fun j _ hv => (twoObjects_rivals [0, 1]).value hv) (by unfold Configured; decide) hr hrel

/-- The labels of a pass of `KeepLock` up to where it takes `mtx_` for its first host, and of its work on that host
when the key is absent. -/
def keepTested : List (Label Bool Unit) :=
  .keep false () :: [.none, .none, .none].map (.act (.worker false ()))

def keepRecreates : List (Label Bool Unit) :=
  [.none, .db .none, .db .none, .db .none].map (.act (.worker false ()))

/-- A pass of `KeepLock` that has tested `lock_continue_` before `unlock()` sets the released key again. -/
theorem renewal_recreates_key : ¬ ∀ x : State (dbRedis 16) Bool Unit Unit × (Bool → Bool),
    (releasing (twoObjects [0]) 16 Unit).Reach (fun _ l => ∀ θ fault, l = .act θ (.db fault) → fault = .none) x →
      x.2 false = true → ∀ h ∈ [0], ¬ Owns ((twoObjects [0]).cfg false) x.1.srv x.1.now h := by
  intro hall
  have hok : ∀ (x : State (dbRedis 16) Bool Unit Unit × (Bool → Bool)) (l : Label Bool Unit),
      l.answered = true → ∀ θ fault, l = .act θ (.db fault) → fault = .none :=
    fun x l hl θ fault h => Label.fault_of_answered hl h
  obtain ⟨⟨s, rel⟩, hr, hs⟩ := Machine.exists_reach (releasing (twoObjects [0]) 16 Unit)
    (lockPass false [0] 0 ++ accept false 0 ++ keepTested ++ unlockAll false [0] ++ keepRecreates)
    (fun x => x.2 false && (x.1.srv.live x.1.now 0 "k").any (fun e => e.value = "1")) hok
    (s := (State.blank, fun _ => false)) ⟨State.blank_initial, rfl⟩ (by decide)
  simp only [Bool.and_eq_true, Option.any_eq_true] at hs
  obtain ⟨hrel, e, he, hv⟩ := hs
  exact hall (s, rel) hr hrel 0 (by simp) ⟨e, he, of_decide_eq_true hv⟩

end DistributedLock.Cluster
