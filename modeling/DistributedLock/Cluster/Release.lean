import DistributedLock.Cluster.Callers
import DistributedLock.Cluster.Attempt
import DistributedLock.DMutex.Unlocking

/-!
# What `UnlockAll` releases

`UnlockAll` runs inside `mtx_` from its first line to its last, so while it goes through the hosts no other thread
of the object reaches the server: with the commands answered, the databases it has gone through hold no entry of
the object (`UnlockInv`).  The rollback of a failed attempt is a call of `UnlockAll` too: it drops both flags, and
releases all the object holds, whatever the attempt itself has obtained (`failed_attempt_releases`).  It is reached
only if every `SelectDB` of the attempt has succeeded (`SelectInv`), so every host is a database of the server.
-/

set_option linter.unusedSectionVars false

namespace DistributedLock.Cluster

open Lib Redis DMutex

variable {n : ℕ} {ι π ω : Type} [DecidableEq ι] [DecidableEq π] [DecidableEq ω] {O : Objects ι π}
  {s s' : State (dbRedis n) ι π ω} {θ : Thread ι ω} {fr : Frame (dbRedis n)} {inp : Input} {i : ι}

/-! ## Databases without the object's entry -/

/-- No other object has the key and the value of `i`. -/
def Alone (O : Objects ι π) (i : ι) : Prop :=
  ∀ j, (O.cfg j).key = (O.cfg i).key → (O.cfg j).value = (O.cfg i).value → j = i

/-- The database `h` holds no entry of the object. -/
def Clean (O : Objects ι π) (i : ι) (s : State (dbRedis n) ι π ω) (h : ℤ) : Prop :=
  ¬ Owns (O.cfg i) s.srv s.now h

/-- The program points whose database operation may set the key. -/
def Sets : Pc → Prop
  | .mainSet .. | .keepUpdate .. => True
  | _ => False

/-- A step brings an entry of the object about only if one of its threads sets the key. -/
theorem clean_step (hO : Alone O i) (hconn : ConnInv DBRedisPc.Inside O s) {l : Label ι ω}
    (hs : next O s l = some s')
    (hset : ∀ θ fr fault, l = .act θ (.db fault) → s.thr θ = some fr → θ.obj = i → ¬ Sets fr.pc) {h : ℤ}
    (hc : Clean O i s h) : Clean O i s' h := by
  unfold Clean at hc ⊢
  rcases next_srv hs with ⟨t, rfl, ht, hnow, hsrv, -⟩ | ⟨hnow, hsrv, -⟩ |
    ⟨θ, fr, fault, op, k, rfl, hfr, hcode, hnow, hsrv, -⟩
  · rw [hnow, hsrv]
    rintro ⟨e, he, hv⟩
    exact hc ⟨e, Store.live_of_le he ht, hv⟩
  · rw [hnow, hsrv]
    exact hc
  · rw [hnow, hsrv]
    have hin := hconn.inside_getD (dbRedis_lawful n) hfr hcode
    refine step_absent hc fun expire hq => ?_
    rw [hq] at hin
    -- a `SET` of this key and value is the object's own
    rcases code_call hcode with ⟨index, rfl⟩ | ⟨c, p, hpc, rfl⟩ | ⟨_, _, _, _, _, rfl⟩ | ⟨m, host, hpc, rfl⟩
    · cases hin
    · simp only [DBRedisPc.Inside, DBRedisPc.set.injEq] at hin
      exact hset θ fr fault rfl hfr (hO _ hin.1.symm hin.2.1.symm) (by rw [hpc]; trivial)
    · rcases hin with hin | hin | hin <;> cases hin
    · simp only [DBRedisPc.Inside, DBRedisPc.set.injEq, reduceCtorEq, false_or, or_false] at hin
      exact hset θ fr fault rfl hfr (hO _ hin.1.symm hin.2.1.symm) (by rw [hpc]; trivial)

theorem Sets.owned {pc : Pc} (h : Sets pc) : pc.owned = true := by
  cases pc <;> first | rfl | exact h.elim

theorem Sets.passing_or_keep {pc : Pc} (h : Sets pc) : pc.passing = true ∨ pc.keep = true := by
  cases pc <;> first | exact .inl rfl | exact .inr rfl | exact h.elim

/-! ## The hosts `UnlockAll` has gone through -/

/-- The loop of `UnlockAll`. -/
def Unlocks : Pc → Prop
  | .unlockSelect .. | .unlockDel .. => True
  | _ => False

/-- The commands of `UnlockAll` of the object `i` are answered. -/
def Answered (i : ι) (s : State (dbRedis n) ι π ω) (l : Label ι ω) : Prop :=
  ∀ fault fr, l = .act (.caller i) (.db fault) → s.thr (.caller i) = some fr → Unlocks fr.pc → fault = .none

/-- The command of a step, if it has one, is answered. -/
def Label.answered : Label ι ω → Bool
  | .act _ (.db (.unperformed _)) | .act _ (.db (.performed _)) => false
  | _ => true

theorem Label.fault_of_answered {l : Label ι ω} (h : l.answered = true) {θ : Thread ι ω} {fault : Fault}
    (hl : l = .act θ (.db fault)) : fault = .none := by
  subst hl
  cases fault with
  | none => rfl
  | unperformed e => cases h
  | performed e => cases h

/-- The databases of the object are databases of the server. -/
def Configured (n : ℕ) (cfg : Cfg) : Prop := ∀ h ∈ cfg.hosts, 0 ≤ h ∧ h < n

/-- Of the hosts that the caller of `i` has gone through in `UnlockAll`, `C` is known. -/
def UnlockInv (O : Objects ι π) (i : ι) (C : State (dbRedis n) ι π ω → ℤ → Prop) (s : State (dbRedis n) ι π ω) : Prop :=
  ∀ fr, s.thr (.caller i) = some fr → UnlockOk (O.cfg i) (C s) (s.fields i) fr.pc

namespace UnlockInv

variable {C : State (dbRedis n) ι π ω → ℤ → Prop} {l : Label ι ω}

/-- `C` survives a step, while the caller of `i` is inside `UnlockAll`. -/
def Keeps (i : ι) (C : State (dbRedis n) ι π ω → ℤ → Prop) (s s' : State (dbRedis n) ι π ω) : Prop :=
  ∀ fr, s.thr (.caller i) = some fr → fr.pc.owned = true → ¬ Sets fr.pc → ∀ x, C s x → C s' x

/-- What `SelectDB` and `DelKeyValue` have to give in `UnlockAll`. -/
structure Cleans (O : Objects ι π) (i : ι) (C : State (dbRedis n) ι π ω → ℤ → Prop) (s s' : State (dbRedis n) ι π ω)
    (fault : Fault) : Prop where
  select : ∀ fr c host rest m r, s.thr (.caller i) = some fr → fr.pc = .unlockSelect c (host :: rest) m →
    (dbStep s i fr.db (.selectDB host) fault).resp = .done r → r = .kSelectDBSucceed ∨ C s' host
  del : ∀ fr c host rest m r, s.thr (.caller i) = some fr → fr.pc = .unlockDel c host rest m →
    (dbStep s i fr.db (.delKeyValue (O.cfg i).key (O.cfg i).value) fault).resp = .done r → s'.now = s.now →
    s'.srv = (dbStep s i fr.db (.delKeyValue (O.cfg i).key (O.cfg i).value) fault).store → C s' host

theorem mono (h : UnlockInv O i C s) (hkeep : Keeps i C s s') (hfr : s.thr (.caller i) = some fr) :
    UnlockOk (O.cfg i) (C s') (s.fields i) fr.pc := by
  refine (h fr hfr).mono fun h1 h2 h3 => hkeep fr hfr h1 fun hset => ?_
  rcases hset.passing_or_keep with hp | hk
  · rw [hp] at h2; cases h2
  · rw [hk] at h3; cases h3

theorem act (h : UnlockInv O i C s) (hkeep : Keeps i C s s') (hs : Cluster.act O s (.caller i) inp = some s')
    (hclean : ∀ fault, inp = .db fault → Cleans O i C s s' fault) : UnlockInv O i C s' := by
  obtain ⟨fr, hfr, ha⟩ := act_cases hs
  intro fr' hfr'
  have hmono := h.mono hkeep hfr
  have hcode := code_unlockOk hmono
  cases ha with
  | tau hc =>
    simp only [Thread.obj] at hc
    rw [hc] at hcode
    simp at hfr'
    subst hfr'
    simpa [Thread.obj] using show UnlockOk _ _ _ _ from hcode
  | lock hc hfree | unlock hc =>
    simp only [Thread.obj] at hc
    rw [hc] at hcode
    simp at hfr'
    subst hfr'
    exact hcode
  | more hc hr =>
    simp at hfr'
    subst hfr'
    exact hmono
  | @done op k fault r hc hr =>
    simp only [Thread.obj] at hc
    rw [hc] at hcode
    simp at hfr'
    subst hfr'
    refine hcode r (fun c host rest m hpc => ?_) fun c host rest m hpc => ?_
    · rw [hpc] at hc
      simp only [code, Instr.call.injEq] at hc
      obtain ⟨rfl, -⟩ := hc
      exact (hclean fault rfl).select fr c host rest m r hfr hpc hr
    · rw [hpc] at hc
      simp only [code, Instr.call.injEq] at hc
      obtain ⟨rfl, -⟩ := hc
      exact (hclean fault rfl).del fr c host rest m r hfr hpc hr rfl rfl
  | raise hc hr => simp at hfr'
  | clock hc =>
    simp only [Thread.obj] at hc
    rw [hc] at hcode
    simp at hfr'
    subst hfr'
    exact hcode _
  | shuffle hc hv =>
    simp only [Thread.obj] at hc
    rw [hc] at hcode
    simp at hfr'
    subst hfr'
    exact hcode _
  | pushEvent hc =>
    simp only [Thread.obj] at hc
    rw [hc] at hcode
    simp at hfr'
    subst hfr'
    simpa [Thread.obj] using show UnlockOk _ _ _ _ from hcode
  | ret hc => simp at hfr'
  | throw hc => simp at hfr'

/-- **The rule for what `UnlockAll` makes of the hosts.** -/
theorem step (h : UnlockInv O i C s) (hkind : KindInv s) (hkeep : Keeps i C s s') (hs : next O s l = some s')
    (hclean : ∀ fault, l = .act (.caller i) (.db fault) → Cleans O i C s s' fault) : UnlockInv O i C s' := by
  by_cases hact : ∃ inp, l = .act (.caller i) inp
  · obtain ⟨inp, rfl⟩ := hact
    refine h.act hkeep hs ?_
    rintro fault rfl
    exact hclean fault rfl
  · push Not at hact
    intro fr' hfr'
    by_cases hcall : ∃ c, l = .call i c
    · obtain ⟨c, rfl⟩ := hcall
      rcases next_cases hs with ⟨_, hl, -⟩ | ⟨_, _, hl, -, rfl⟩ | ⟨_, _, hl, -⟩ | ⟨_, _, hl, -⟩ <;> cases hl
      simp only [State.enter_thr, Function.update_self, Option.some.injEq] at hfr'
      subst hfr'
      cases c <;> trivial
    · push Not at hcall
      obtain ⟨hthr, hf⟩ := next_other hkind hs hcall hact
      rw [hthr] at hfr'
      rw [hf]
      exact h.mono hkeep hfr'

/-- Both flags are down inside the loop of `UnlockAll`, whatever is answered. -/
theorem flags_of_reach {ok : State (dbRedis n) ι π ω → Label ι ω → Prop} (h : (system O (dbRedis n) ω).Reach ok s) :
    UnlockInv O i (fun _ _ => True) s :=
  h.invariant (I := UnlockInv O i fun _ _ => True) (fun t h₀ fr h1 => by simp [h₀.thr] at h1)
    fun t l t' hr hi _ hs => hi.step (.of_reach hr) (fun _ _ _ _ _ _ => trivial) hs fun _ _ =>
      ⟨fun _ _ _ _ _ _ _ _ _ => .inr trivial, fun _ _ _ _ _ _ _ _ _ _ _ => trivial⟩

/-! With the commands answered, the hosts gone through are clean. -/

theorem select_succeeds {h : ℤ} (hh : 0 ≤ h ∧ h < n) {now db : ℤ} {srv : Store} {r : DBResult}
    (hr : ((dbRedis n).step .none (.select h) now db srv).resp = .done r) : r = .kSelectDBSucceed := by
  simp only [dbRedis, answer, DBRedisPc.command, exec, if_pos hh, DBRedisPc.resume, Reply.asString, if_true] at hr
  cases hr
  rfl

/-- While the caller is in the loop of `UnlockAll`, the other threads of the object bring no entry about. -/
theorem keeps_clean (hO : Alone O i) (hm : MutexInv O s) (hconn : ConnInv DBRedisPc.Inside O s)
    (hs : next O s l = some s') : Keeps i (Clean O i) s s' := by
  intro fr hfr hown hpc x hc
  refine clean_step hO hconn hs (fun θ fr' fault _ hfr' hi hset => ?_) hc
  -- both would be inside `mtx_`
  obtain rfl := hm.unique (by rw [hi]; rfl) hfr hown hfr' hset.owned
  rw [hfr] at hfr'
  cases hfr'
  exact hpc hset

theorem cleans (hn : Configured n (O.cfg i)) (h : UnlockInv O i (Clean O i) s) (hconn : ConnInv DBRedisPc.Inside O s)
    {fault : Fault} (hok : Answered i s (.act (.caller i) (.db fault))) : Cleans O i (Clean O i) s s' fault := by
  refine ⟨fun fr c host rest m r hfr hpc hr => .inl ?_, fun fr c host rest m r hfr hpc hr hnow hsrv => ?_⟩
  · obtain rfl := hok fault fr rfl hfr (by rw [hpc]; trivial)
    have hin : DBRedisPc.Inside (.selectDB host) (fr.db.getD ((dbRedis n).start (.selectDB host))) :=
      hconn.inside_getD (θ := .caller i) (dbRedis_lawful n) hfr (by rw [hpc]; rfl)
    have hq : fr.db.getD ((dbRedis n).start (.selectDB host)) = .select host := hin
    have hold := h fr hfr
    rw [hpc] at hold
    obtain ⟨-, -, gone, hhosts, -⟩ := hold
    simp only [dbStep, hq] at hr
    exact select_succeeds (hn host (by rw [hhosts]; simp)) hr
  · obtain rfl := hok fault fr rfl hfr (by rw [hpc]; trivial)
    have hin : DBRedisPc.Inside (.delKeyValue (O.cfg i).key (O.cfg i).value)
        (fr.db.getD ((dbRedis n).start (.delKeyValue (O.cfg i).key (O.cfg i).value))) :=
      hconn.inside_getD (θ := .caller i) (dbRedis_lawful n) hfr (by rw [hpc]; rfl)
    have hsel := hconn.selected (.caller i) fr host hfr (by rw [hpc]; rfl)
    simp only [Thread.obj] at hsel
    have hdel := step_del_done hin hr
    rw [hsel] at hdel
    simp only [Clean, Owns, hnow, hsrv, dbStep, hsel]
    exact hdel

theorem clean_next (h : UnlockInv O i (Clean O i) s) (hO : Alone O i) (hn : Configured n (O.cfg i))
    {ok : State (dbRedis n) ι π ω → Label ι ω → Prop} (hr : (system O (dbRedis n) ω).Reach ok s)
    (hok : Answered i s l) (hs : next O s l = some s') : UnlockInv O i (Clean O i) s' := by
  have hconn : ConnInv DBRedisPc.Inside O s := .of_reach (dbRedis_lawful n) hr
  refine h.step (.of_reach hr) (keeps_clean hO (.of_reach hr) hconn hs) hs ?_
  rintro fault rfl
  exact cleans hn h hconn hok

theorem of_reach (hO : Alone O i) (hn : Configured n (O.cfg i)) {ok : State (dbRedis n) ι π ω → Label ι ω → Prop}
    (hok : ∀ s l, ok s l → Answered i s l) (h : (system O (dbRedis n) ω).Reach ok s) :
    UnlockInv O i (Clean O i) s :=
  h.invariant (I := UnlockInv O i (Clean O i)) (fun t h₀ fr h1 => by simp [h₀.thr] at h1)
    fun t l _ hr hi ho hs => hi.clean_next hO hn hr (hok t l ho) hs

end UnlockInv

/-! ## The hosts an attempt has selected -/

/-- The hosts that the pass of the caller of `i` has selected are databases of the server. -/
def SelectInv (O : Objects ι π) (i : ι) (s : State (dbRedis n) ι π ω) : Prop :=
  ∀ fr, s.thr (.caller i) = some fr → SelectOk (O.cfg i) (fun h => 0 ≤ h ∧ h < n) fr.pc

namespace SelectInv

theorem act (h : SelectInv O i s) (hm : MutexInv O s) (hconn : ConnInv DBRedisPc.Inside O s)
    (hs : Cluster.act O s (.caller i) inp = some s') : SelectInv O i s' := by
  obtain ⟨fr, hfr, ha⟩ := act_cases hs
  intro fr' hfr'
  have hcode := code_selectOk (f := s.fields i) (h fr hfr)
  cases ha with
  | tau hc | unlock hc | pushEvent hc =>
    simp only [Thread.obj] at hc
    rw [hc] at hcode
    simp only [State.goto_thr, Function.update_self, Option.some.injEq] at hfr'
    subst hfr'
    exact hcode
  | lock hc hfree =>
    simp only [Thread.obj] at hc
    rw [hc] at hcode
    simp only [State.goto_thr, Function.update_self, Option.some.injEq] at hfr'
    subst hfr'
    refine hcode ?_
    -- the owner would wait for itself
    by_contra hown
    have howner := hm.owner _ fr hfr (by simpa using hown)
    rw [hfree] at howner
    cases howner
  | more hc hr =>
    simp only [State.goto_thr, Function.update_self, Option.some.injEq] at hfr'
    subst hfr'
    exact h fr hfr
  | @done op k fault r hc hr =>
    have hin := hconn.inside_getD (dbRedis_lawful n) hfr hc
    simp only [Thread.obj] at hc
    rw [hc] at hcode
    simp only [State.goto_thr, Function.update_self, Option.some.injEq] at hfr'
    subst hfr'
    refine hcode r fun c p hpc hsucc => ?_
    rw [hpc] at hc
    simp only [code, Instr.call.injEq] at hc
    obtain ⟨rfl, -⟩ := hc
    have hq : fr.db.getD ((dbRedis n).start (.selectDB p.host)) = .select p.host := hin
    simp only [dbStep, hq, hsucc] at hr
    exact (step_select hr).1
  | raise hc hr => simp at hfr'
  | clock hc =>
    simp only [Thread.obj] at hc
    rw [hc] at hcode
    simp only [State.goto_thr, Function.update_self, Option.some.injEq] at hfr'
    subst hfr'
    exact hcode _
  | shuffle hc hv =>
    simp only [Thread.obj] at hc
    rw [hc] at hcode
    simp only [State.goto_thr, Function.update_self, Option.some.injEq] at hfr'
    subst hfr'
    exact hcode _ hv
  | ret hc => simp at hfr'
  | throw hc => simp at hfr'

theorem of_reach {ok : State (dbRedis n) ι π ω → Label ι ω → Prop} (h : (system O (dbRedis n) ω).Reach ok s) :
    SelectInv O i s := by
  refine h.invariant (I := SelectInv O i) (fun t h₀ fr h1 => by simp [h₀.thr] at h1) fun t l t' hr hi _ hs => ?_
  replace hs : next O t l = some t' := hs
  by_cases hact : ∃ inp, l = .act (.caller i) inp
  · obtain ⟨inp, rfl⟩ := hact
    exact hi.act (.of_reach hr) (.of_reach (dbRedis_lawful n) hr) hs
  · push Not at hact
    intro fr' hfr'
    by_cases hcall : ∃ c, l = .call i c
    · obtain ⟨c, rfl⟩ := hcall
      rcases next_cases hs with ⟨_, hl, -⟩ | ⟨_, _, hl, -, rfl⟩ | ⟨_, _, hl, -⟩ | ⟨_, _, hl, -⟩ <;> cases hl
      simp only [State.enter_thr, Function.update_self, Option.some.injEq] at hfr'
      subst hfr'
      cases c <;> simp [Call.entry, SelectOk]
    · push Not at hcall
      rw [(next_other (.of_reach hr) hs hcall hact).1] at hfr'
      exact hi fr' hfr'

end SelectInv

/-! ## The rollback of a failed attempt -/

/-- `MainLockFunction` of the object `i` returns false in this step. -/
def FailsIn (i : ι) (s s' : State (dbRedis n) ι π ω) : Prop :=
  s.inMain i = true ∧ ∃ fr c, s'.thr (.caller i) = some fr ∧ fr.pc = .failed c

theorem FailsIn.unlocked (h : FailsIn i s s') (hkind : KindInv s) {l : Label ι ω} (hs : next O s l = some s') :
    ∃ fr c m, s.thr (.caller i) = some fr ∧ fr.pc = .unlockSelect (some c) [] m ∧ s'.fields = s.fields ∧
      s'.srv = s.srv ∧ s'.now = s.now := by
  obtain ⟨hmain, fr', c, hfr', hpc'⟩ := h
  unfold State.inMain at hmain
  cases hfr : s.thr (.caller i) with
  | none => rw [hfr] at hmain; cases hmain
  | some fr =>
    rw [hfr] at hmain
    replace hmain : fr.pc.inMain = true := hmain
    by_cases hact : ∃ inp, l = .act (.caller i) inp
    · obtain ⟨inp, rfl⟩ := hact
      obtain ⟨fr₀, hfr₀, ha⟩ := act_cases hs
      rw [hfr] at hfr₀
      cases hfr₀
      have hfails := code_failsAt (O.cfg i) (s.fields i) hmain
      cases ha with
      | unlock hc =>
        simp only [Thread.obj] at hc
        rw [hc] at hfails
        simp only [State.goto_thr, Function.update_self, Option.some.injEq] at hfr'
        subst hfr'
        obtain ⟨m, hpc⟩ := hfails c hpc'
        exact ⟨fr, c, m, rfl, hpc, rfl, rfl, rfl⟩
      | tau hc | lock hc _ | pushEvent hc =>
        simp only [Thread.obj] at hc
        rw [hc] at hfails
        simp only [State.goto_thr, Function.update_self, Option.some.injEq] at hfr'
        subst hfr'
        exact absurd hpc' (hfails c)
      | done hc hr | clock hc | shuffle hc hr =>
        simp only [Thread.obj] at hc
        rw [hc] at hfails
        simp only [State.goto_thr, Function.update_self, Option.some.injEq] at hfr'
        subst hfr'
        exact absurd hpc' (hfails _ c)
      | more hc hr =>
        simp only [State.goto_thr, Function.update_self, Option.some.injEq] at hfr'
        subst hfr'
        rw [hpc'] at hmain
        cases hmain
      | raise hc hr | ret hc | throw hc => simp at hfr'
    · push Not at hact
      -- the step of another thread leaves the caller where it is
      have hcall : ∀ c, l ≠ .call i c := by
        rintro c rfl
        rcases next_cases hs with ⟨_, hl, -⟩ | ⟨_, _, hl, hnone, -⟩ | ⟨_, _, hl, -⟩ | ⟨_, _, hl, -⟩ <;> cases hl
        rw [hfr] at hnone
        cases hnone
      obtain ⟨hthr, -⟩ := next_other hkind hs hcall hact
      rw [hthr, hfr] at hfr'
      cases hfr'
      rw [hpc'] at hmain
      cases hmain

/-- The state `s` is reached from the beginning of a rollback of the object `i` with the commands of `UnlockAll`
answered. -/
def RollbackAnswered (O : Objects ι π) (i : ι) (s : State (dbRedis n) ι π ω) : Prop :=
  ∃ s₀ fr c owns, (system O (dbRedis n) ω).Reach (fun _ _ => True) s₀ ∧ s₀.thr (.caller i) = some fr ∧
    fr.pc = .unlockLock (some c) owns ∧ ((system O (dbRedis n) ω).startingAt s₀).Reach (Answered i) s

theorem RollbackAnswered.unlockInv (hO : Alone O i) (hn : Configured n (O.cfg i)) (h : RollbackAnswered O i s) :
    UnlockInv O i (Clean O i) s := by
  obtain ⟨s₀, fr, c, owns, h₀, hfr, hpc, hr⟩ := h
  refine hr.invariant (I := UnlockInv O i (Clean O i)) ?_ fun t l t' hr hi ho hs =>
    hi.clean_next hO hn (h₀.of_startingAt (fun _ _ _ => trivial) hr) ho hs
  rintro t rfl fr' hfr'
  rw [hfr] at hfr'
  cases hfr'
  rw [hpc]
  trivial

/-- **A failed attempt releases all the object holds.**  Whatever the attempt found, when `MainLockFunction` returns
false both flags are down; and no database of `hosts_` holds an entry of the object, if the commands of the rollback
were answered and no other object has its key and value. -/
theorem failed_attempt_releases (h : (system O (dbRedis n) ω).Reach (fun _ _ => True) s) {l : Label ι ω}
    (hs : next O s l = some s') (hfail : FailsIn i s s') :
    (s'.fields i).lockStatus = false ∧ (s'.fields i).lockContinue = false ∧
      (Alone O i → RollbackAnswered O i s → ∀ x ∈ (O.cfg i).hosts, ¬ Owns (O.cfg i) s'.srv s'.now x) := by
  obtain ⟨fr, c, m, hfr, hpc, hf, hsrv, hnow⟩ := hfail.unlocked (.of_reach h) hs
  have hflags := UnlockInv.flags_of_reach (i := i) h fr hfr
  have hn : Configured n (O.cfg i) := by
    have hsel := SelectInv.of_reach (i := i) h fr hfr
    rw [hpc] at hsel
    exact hsel rfl
  rw [hpc] at hflags
  rw [hf, hsrv, hnow]
  refine ⟨hflags.2.1, hflags.1, fun hO hans x hx => ?_⟩
  have hunl := hans.unlockInv hO hn fr hfr
  rw [hpc] at hunl
  obtain ⟨-, -, gone, hhosts, hclean⟩ := hunl
  refine hclean x ?_
  rwa [hhosts, List.append_nil] at hx

/-- The labels of a `try_lock(expire)` on the host 0, which holds the object's entry, up to its rollback, and of the
rollback. -/
def retryLabels (expire : ℤ) : List (Label Bool Unit) :=
  .call false (.tryLockFor expire) :: (.clock 0 :: .none :: passInputs [0] 0).map (.act (.caller false))

def rollbackLabels : List (Label Bool Unit) := (unlockInputs [0]).dropLast.map (.act (.caller false))

/-- The first of two objects is at the beginning of its rollback. -/
def rollsBack (s : State (dbRedis n) Bool Unit Unit) : Bool :=
  match s.thr (.caller false) with
  | some ⟨.unlockLock (some _) _, _⟩ => true
  | _ => false

theorem rollsBack_iff {s : State (dbRedis n) Bool Unit Unit} (h : rollsBack s = true) :
    ∃ fr c owns, s.thr (.caller false) = some fr ∧ fr.pc = .unlockLock (some c) owns := by
  unfold rollsBack at h
  split at h
  · exact ⟨_, _, _, by assumption, rfl⟩
  · cases h

/-- A `try_lock(expire)` of an object that is held, at the end of its rollback. -/
theorem failed_attempt_releases_two : ∃ s s' : State (dbRedis 16) Bool Unit Unit,
    (system (twoObjects [0]) (dbRedis 16) Unit).Reach (fun _ _ => True) s ∧ s.held false = true ∧ FailsIn false s s' ∧
      (s'.fields false).lockStatus = false ∧ ∀ x ∈ [0], ¬ Owns ((twoObjects [0]).cfg false) s'.srv s'.now x := by
  have hok : ∀ (s : State (dbRedis 16) Bool Unit Unit) (l : Label Bool Unit),
      l.answered = true → Answered false s l := fun s l hl fault fr h _ _ => Label.fault_of_answered hl h
  obtain ⟨s₀, h₀, hs₀⟩ := (system (twoObjects [0]) (dbRedis 16) Unit).exists_reach_of_decidable (fun _ _ => True)
    (lockPass false [0] 0 ++ accept false 0 ++ retryLabels 0)
    (fun s₀ => rollsBack s₀ && (((system (twoObjects [0]) (dbRedis 16) Unit).startingAt s₀).runWith
      (fun _ l => l.answered) s₀ rollbackLabels.dropLast).any fun s => s.held false && s.inMain false &&
        (next (twoObjects [0]) s (.act (.caller false) .none)).any (hasFailed false)) State.blank_initial (by decide)
  simp only [Bool.and_eq_true, Option.any_eq_true] at hs₀
  obtain ⟨hroll, s, hrun, ⟨hheld, hmain⟩, s', hn, hf⟩ := hs₀
  obtain ⟨fr, c, owns, hfr, hpc⟩ := rollsBack_iff hroll
  have hseg := (Machine.Reach.init rfl).runWith hok hrun
  have hr := h₀.of_startingAt (fun _ _ _ => trivial) hseg
  have hfail : FailsIn false s s' := ⟨hmain, hasFailed_iff hf⟩
  obtain ⟨h1, -, h2⟩ := failed_attempt_releases hr hn hfail
  exact ⟨s, s', hr, hheld, hfail, h1,
    h2 (fun j _ hv => (twoObjects_rivals [0]).value hv) ⟨s₀, fr, c, owns, h₀, hfr, hpc, hseg⟩⟩

/-- The entry of an object that is held is gone after its own `try_lock(expire)` has failed, and the flags are
down. -/
theorem failed_attempt_keeps_not : ¬ ∀ (s s' : State (dbRedis 16) Bool Unit Unit) (ls : List (Label Bool Unit)),
    (system (twoObjects [0]) (dbRedis 16) Unit).Reach (fun _ _ => True) s → s.held false = true →
    (system (twoObjects [0]) (dbRedis 16) Unit).runWith (fun _ _ => true) s (.call false (.tryLockFor 0) :: ls) = some s' →
    (∃ fr c, s'.thr (.caller false) = some fr ∧ fr.pc = .failed c) →
    (∀ x, Owns ((twoObjects [0]).cfg false) s.srv s.now x → Owns ((twoObjects [0]).cfg false) s'.srv s.now x) ∧
      (s'.fields false).lockStatus = true ∧ (s'.fields false).lockContinue = true := by
  intro hall
  obtain ⟨s, hr, hs⟩ := (system (twoObjects [0]) (dbRedis 16) Unit).exists_reach_of_decidable (fun _ _ => True)
    (lockPass false [0] 0 ++ accept false 0)
    (fun s => s.held false && (s.srv.live s.now 0 "k").any (fun e => e.value = "1") &&
      ((system (twoObjects [0]) (dbRedis 16) Unit).runWith (fun _ _ => true) s (retryLabels 0 ++ rollbackLabels)).any
        fun s' => hasFailed false s' && !(s'.srv 0 "k").isSome) State.blank_initial (by decide)
  simp only [Bool.and_eq_true, Option.any_eq_true] at hs
  obtain ⟨⟨hheld, e, he, hv⟩, s', hrun, hf, hgone⟩ := hs
  have hkept := (hall s s' _ hr hheld hrun (hasFailed_iff hf)).1 0 ⟨e, he, of_decide_eq_true hv⟩
  obtain ⟨e', he', -⟩ := hkept
  have hsome := (Store.live_eq_some.mp he').1
  rw [show ((twoObjects [0]).cfg false).key = "k" from rfl] at hsome
  rw [hsome] at hgone
  cases hgone

end DistributedLock.Cluster
