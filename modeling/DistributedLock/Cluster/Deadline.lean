import DistributedLock.Cluster.Callers

/-!
# The deadline of `TryLock(expire)`

`TryLock(expire)` tests after each failed attempt whether the time since its start is less than `expire`.  The start is
a `uint64_t`, so both sides of the comparison are taken modulo 2⁶⁴, and a negative `expire` becomes a time far ahead.

* `Stopwatch`: the history of the clock readings of a caller, and of what `TryLock(expire)` did after each failed
  attempt (`Pc.turn`): another attempt, or the return of false;
* `deadline_respected`: with a clock that never goes back, every turn respects the deadline exactly if `expire` is not
  negative, or if there was no turn.
-/

set_option linter.unusedSectionVars false

namespace DistributedLock.DMutex

open Lib Redis

variable {cfg : Cfg} {f : Fields} {pc pc' : Pc} {c : Caller} {b : Bool}

/-- The method that waits for `MainLockFunction`, or is about to call it. -/
def Pc.caller : Pc → Option Caller
  | .clear c | .failed c | .mainStart c | .mainShuffle c _ | .mainTest c _ | .mainLock c _ | .mainSelect c _
  | .mainSet c _ | .mainUnlock c _ _ | .mainResult c _ _ | .mainTimeout c _ | .mainQuorum c _ | .mainValidity c _
  | .mainAcceptLock c _ | .mainAccept c _ | .mainAcceptUnlock c _ => some c
  | .unlockLock c _ | .unlockFlags c | .unlockSelect c _ _ | .unlockDel c _ _ _ => c
  | _ => none

/-- Going from `pc` to `pc'`, `TryLock(expire)` starts an attempt after the first one (`true`), or returns false. -/
def Pc.turn (pc pc' : Pc) : Option Bool :=
  match pc.caller, pc' with
  | some (.tryLockFor ..), .clear _ => some true
  | some (.tryLockFor ..), .done false => some false
  | _, _ => none

/-- The program points of `Lock` and the two `TryLock` at which an attempt is about to start, or has failed for good. -/
def Pc.outer : Pc → Bool
  | .tryStart _ | .clear _ | .done false => true
  | _ => false

/-- Within an attempt the method that waits for it is the same; the attempt itself starts no other. -/
theorem inner_of_leadsTo (h : (code cfg f pc).LeadsTo pc') (hstart : ∀ e, pc ≠ .tryStart e)
    (hfailed : ∀ c, pc ≠ .failed c) :
    pc'.outer = false ∧ (pc'.caller = pc.caller ∨ pc'.caller = none) := by
  cases pc with
  | tryStart e => exact absurd rfl (hstart e)
  | failed c => exact absurd rfl (hfailed c)
  | done res | unlocked res | kept res => exact h.elim
  | mainTest c p => simp only [code, mainTest] at h; split at h <;> (obtain rfl := h; exact ⟨rfl, .inl rfl⟩)
  | mainLock c p | mainAcceptLock c p =>
    simp only [code] at h
    split at h
    · exact h.elim
    · obtain rfl := h
      exact ⟨rfl, .inl rfl⟩
  | mainSelect c p | mainTimeout c p | mainValidity c p =>
    obtain ⟨x, rfl⟩ := h
    beta_reduce
    split <;> exact ⟨rfl, .inl rfl⟩
  | mainStart c | mainShuffle c start | mainSet c p | unlockDel c host rest m =>
    obtain ⟨x, rfl⟩ := h
    exact ⟨rfl, .inl rfl⟩
  | mainResult c p r => simp only [code, mainResult] at h; split at h <;> (obtain rfl := h; exact ⟨rfl, .inl rfl⟩)
  | mainQuorum c p => simp only [code] at h; split at h <;> (obtain rfl := h; exact ⟨rfl, .inl rfl⟩)
  | mainAcceptUnlock c p =>
    obtain rfl : pc' = .done true := h
    exact ⟨rfl, .inr rfl⟩
  | unlockSelect c rest m =>
    cases rest with
    | nil =>
      obtain rfl : pc' = afterUnlockAll (m = f.haveLockNum.length) c := h
      cases c <;> exact ⟨rfl, .inl rfl⟩
    | cons host rest =>
      obtain ⟨r, rfl⟩ := h
      beta_reduce
      split <;> exact ⟨rfl, .inl rfl⟩
  | keepLock | keepCheck | keepTest _ _ | keepRelock _ _ | keepSelect _ | keepUpdate _ _ | keepUnlock _ _ =>
    have hkeep : pc'.keep = true := keep_of_leadsTo h
    cases pc' <;> first | exact ⟨rfl, .inr rfl⟩ | cases hkeep
  | clear c | mainUnlock c p r | mainAccept c p | unlockLock c owns | unlockFlags c =>
    obtain rfl := h
    exact ⟨rfl, .inl rfl⟩

theorem failed_of_leadsTo (h : (code cfg f (.failed c)).LeadsTo pc') : pc' = .clear c ∨ pc' = .done false := by
  cases c with
  | lock => exact .inl h
  | tryLock => exact .inr h
  | tryLockFor e start =>
    obtain ⟨t, rfl⟩ := h
    beta_reduce
    split
    · exact .inl rfl
    · exact .inr rfl

theorem outer_of_leadsTo (h : (code cfg f pc).LeadsTo pc') (hout : pc'.outer = true) :
    (∃ e, pc = .tryStart e) ∨ ∃ c, pc = .failed c := by
  by_contra hne
  push Not at hne
  rw [(inner_of_leadsTo h hne.1 hne.2).1] at hout
  cases hout

theorem follows_of_leadsTo (h : (code cfg f pc).LeadsTo pc') (hstart : ∀ e, pc ≠ .tryStart e) :
    (∀ e, pc' ≠ .tryStart e) ∧ ∀ c, pc'.caller = some c → pc.caller = some c := by
  by_cases hfailed : ∃ c, pc = .failed c
  · obtain ⟨c, rfl⟩ := hfailed
    rcases failed_of_leadsTo h with rfl | rfl
    · exact ⟨by simp, fun c hc => hc⟩
    · exact ⟨by simp, fun c hc => by cases hc⟩
  · push Not at hfailed
    obtain ⟨hout, hcaller⟩ := inner_of_leadsTo h hstart hfailed
    refine ⟨?_, fun c hc => ?_⟩
    · rintro e rfl
      cases hout
    · rcases hcaller with heq | hnone
      · rw [← heq]
        exact hc
      · rw [hnone] at hc
        cases hc

theorem clear_of_outer (hout : pc.outer = true) (hc : pc.caller = some c) : pc = .clear c := by
  cases pc with
  | clear c' => cases hc; rfl
  | tryStart e | done res => cases hc
  | _ => cases hout

theorem outer_of_turn (hb : pc.turn pc' = some b) :
    pc'.outer = true ∧ ∃ e start, pc.caller = some (.tryLockFor e start) := by
  unfold Pc.turn at hb
  split at hb
  · rename_i hc
    exact ⟨rfl, _, _, hc⟩
  · rename_i hc
    exact ⟨rfl, _, _, hc⟩
  · cases hb

end DistributedLock.DMutex

namespace DistributedLock.Cluster

open Lib Redis DMutex

variable {D : DBInterface} {ι π ω : Type} [DecidableEq ι] [DecidableEq π] [DecidableEq ω] {O : Objects ι π}
  {s s' : State D ι π ω} {fr fr' : Frame D} {i : ι} {l : Label ι ω} {inp : Input} {b : Bool}

/-! ## The history -/

/-- What `TryLock(expire)` did after a failed attempt, and the time since its start. -/
structure Turn where
  elapsed : ℤ
  again : Bool
  deriving DecidableEq

/-- The last clock reading of a caller; the argument of its last `try_lock(expire)`, the reading it started with, and
its turns. -/
structure Stopwatch where
  last : ℤ := 0
  expire : ℤ := 0
  start : ℤ := 0
  turns : List Turn := []

namespace Stopwatch

def read (w : Stopwatch) : Input → Stopwatch
  | .clock t => { w with last := t }
  | _ => w

/-- The caller has gone from `pc` to `pc'`. -/
def move (w : Stopwatch) (pc pc' : Pc) : Stopwatch :=
  match pc, pc.turn pc' with
  | .tryStart _, _ => { w with start := w.last }
  | _, some again => { w with turns := w.turns ++ [⟨w.last - w.start, again⟩] }
  | _, none => w

section Move

variable {w : Stopwatch} {pc pc' : Pc}

theorem move_tryStart (e : ℤ) : w.move (.tryStart e) pc' = { w with start := w.last } := rfl

theorem move_turn (hpc : ∀ e, pc ≠ .tryStart e) (hb : pc.turn pc' = some b) :
    w.move pc pc' = { w with turns := w.turns ++ [⟨w.last - w.start, b⟩] } := by
  unfold move
  rw [hb]
  cases pc <;> first | rfl | exact absurd rfl (hpc _)

theorem move_none (hpc : ∀ e, pc ≠ .tryStart e) (hb : pc.turn pc' = none) : w.move pc pc' = w := by
  unfold move
  rw [hb]
  cases pc <;> first | rfl | exact absurd rfl (hpc _)

end Move

/-- **The deadline is respected**: another attempt starts only before it, and false is returned only after it. -/
def Respects (w : Stopwatch) : Prop :=
  ∀ e ∈ w.turns, (e.again = true → e.elapsed < w.expire) ∧ (e.again = false → w.expire ≤ e.elapsed)

end Stopwatch

/-- The history of the caller of the object `i`. -/
def observe (i : ι) (s : State D ι π ω) (l : Label ι ω) (s' : State D ι π ω) (w : Stopwatch) : Stopwatch :=
  match l with
  | .call j (.tryLockFor e) => if j = i then { w with expire := e, turns := [] } else w
  | .act (.caller j) inp =>
    if j = i then
      match s.thr (.caller i), s'.thr (.caller i) with
      | some fr, some fr' => (w.read inp).move fr.pc fr'.pc
      | _, _ => w.read inp
    else w
  | _ => w

/-- The system, with the history of the caller of the object `i`. -/
def stopwatch (O : Objects ι π) (D : DBInterface) (ω : Type) [DecidableEq ω] (i : ι) :
    Machine (State D ι π ω × Stopwatch) (Label ι ω) :=
  (system O D ω).withHistory {} (observe i)

theorem stopwatch_blank : (stopwatch O D ω i).init (State.blank, {}) := ⟨State.blank_initial, rfl⟩

/-- The clock of the caller never goes back, and its readings are not negative; `expire` is an `int64_t`. -/
structure Punctual (i : ι) (x : State D ι π ω × Stopwatch) (l : Label ι ω) : Prop where
  reading : ∀ t, l = .act (.caller i) (.clock t) → x.2.last ≤ t ∧ t < 2 ^ 63
  expire : ∀ e, l = .call i (.tryLockFor e) → InInt64 e

/-! ## The invariant -/

theorem turn_of_act (hs : act O s (.caller i) inp = some s') (hfr : s.thr (.caller i) = some fr)
    (hfr' : s'.thr (.caller i) = some fr') (hb : fr.pc.turn fr'.pc = some b) :
    ∃ e start t, fr.pc = .failed (.tryLockFor e start) ∧ inp = .clock t ∧ (b = true ↔ u64 (t - start) < u64 e) := by
  obtain ⟨hout, e, start, hcaller⟩ := outer_of_turn hb
  have hpc : fr.pc = .failed (.tryLockFor e start) := by
    rcases leadsTo_of_act hs hfr hfr' with hpc | hlead
    · -- `clear` is no call of the database
      have hclear : fr.pc = .clear (.tryLockFor e start) := clear_of_outer (hpc ▸ hout) hcaller
      have hcode : code (O.cfg i) (s.fields i) fr.pc =
          .tau { s.fields i with haveLockNum := [] } (.mainStart (.tryLockFor e start)) := by
        rw [hclear]
        rfl
      rw [act_tau hs hfr hcode, State.goto_thr, Function.update_self] at hfr'
      cases hfr'
      rw [hclear] at hpc
      cases hpc
    · rcases outer_of_leadsTo hlead hout with ⟨e', hpc⟩ | ⟨c, hpc⟩
      · rw [hpc] at hcaller
        cases hcaller
      · rw [hpc] at hcaller
        cases hcaller
        exact hpc
  have hcode : code (O.cfg i) (s.fields i) fr.pc =
      .clock fun t => if u64 (t - start) < u64 e then .clear (.tryLockFor e start) else .done false := by
    rw [hpc]
    rfl
  obtain ⟨t, rfl, rfl⟩ := act_clock hs hfr hcode
  refine ⟨e, start, t, hpc, rfl, ?_⟩
  rw [State.goto_thr, Function.update_self] at hfr'
  cases hfr'
  rw [hpc] at hb
  split at hb
  · rename_i hlt
    cases hb
    exact iff_of_true rfl hlt
  · rename_i hlt
    cases hb
    exact iff_of_false (by decide) hlt

/-- What the history tells of the running `try_lock(expire)`. -/
structure StopwatchInv (i : ι) (s : State D ι π ω) (w : Stopwatch) : Prop where
  expire : InInt64 w.expire
  start : 0 ≤ w.start ∧ w.start ≤ w.last
  last : w.last < 2 ^ 63
  tryStart : ∀ fr e, s.thr (.caller i) = some fr → fr.pc = .tryStart e → e = w.expire
  caller : ∀ fr e start, s.thr (.caller i) = some fr → fr.pc.caller = some (.tryLockFor e start) →
    e = w.expire ∧ start = u64 w.start
  turns : ∀ e ∈ w.turns, 0 ≤ e.elapsed ∧ e.elapsed < 2 ^ 63 ∧ (e.again = true ↔ u64 e.elapsed < u64 w.expire)

namespace StopwatchInv

variable {w : Stopwatch}

theorem init (h : Initial s) : StopwatchInv i s {} := by
  have hnone : ∀ fr, s.thr (.caller i) ≠ some fr := fun fr => by rw [h.thr]; simp
  refine ⟨by decide, by decide, by decide, ?_, ?_, ?_⟩
  · exact fun fr e hfr => absurd hfr (hnone fr)
  · exact fun fr e start hfr => absurd hfr (hnone fr)
  · exact fun e he => absurd he List.not_mem_nil

theorem call (h : StopwatchInv i s w) {c : Call} (hok : ∀ e, c = .tryLockFor e → InInt64 e) :
    StopwatchInv i (s.enter i c) (observe i s (.call i c) (s.enter i c) w) := by
  cases c with
  | tryLockFor e =>
    simp only [observe, if_true]
    refine ⟨hok e rfl, h.start, h.last, fun fr e' hfr hpc => ?_, fun fr e' start hfr hpc => ?_, ?_⟩
    · simp only [State.enter_thr, Function.update_self, Option.some.injEq] at hfr
      subst hfr
      cases hpc
      rfl
    · simp only [State.enter_thr, Function.update_self, Option.some.injEq] at hfr
      subst hfr
      cases hpc
    · exact fun e he => absurd he List.not_mem_nil
  | lock | tryLock | unlock =>
    refine ⟨h.expire, h.start, h.last, fun fr e' hfr hpc => ?_, fun fr e' start hfr hpc => ?_, h.turns⟩
    all_goals
      simp only [State.enter_thr, Function.update_self, Option.some.injEq] at hfr
      subst hfr
      cases hpc

theorem read (h : StopwatchInv i s w) (hok : ∀ t, inp = .clock t → w.last ≤ t ∧ t < 2 ^ 63) :
    StopwatchInv i s (w.read inp) := by
  cases inp with
  | clock t =>
    obtain ⟨hle, hlt⟩ := hok t rfl
    exact ⟨h.expire, ⟨h.start.1, h.start.2.trans hle⟩, hlt, h.tryStart, h.caller, h.turns⟩
  | _ => exact h

theorem act_start (h : StopwatchInv i s w) (hok : ∀ t, inp = .clock t → w.last ≤ t ∧ t < 2 ^ 63)
    (hs : act O s (.caller i) inp = some s') (hfr : s.thr (.caller i) = some fr) {e : ℤ} (hpc : fr.pc = .tryStart e) :
    ∃ fr', s'.thr (.caller i) = some fr' ∧ StopwatchInv i s' ((w.read inp).move fr.pc fr'.pc) := by
  have hcode : code (O.cfg i) (s.fields i) fr.pc = .clock fun t => .clear (.tryLockFor e (u64 t)) := by
    rw [hpc]
    rfl
  obtain ⟨t, rfl, rfl⟩ := act_clock hs hfr hcode
  have hread := h.read hok
  refine ⟨_, by rw [State.goto_thr, Function.update_self], ?_⟩
  rw [hpc, Stopwatch.move_tryStart]
  refine ⟨hread.expire, ⟨?_, le_refl _⟩, hread.last, fun fr' e' hfr' hpc' => ?_, fun fr' e' start hfr' hc => ?_,
    hread.turns⟩
  · exact hread.start.1.trans hread.start.2
  all_goals
    simp only [State.goto_thr, Function.update_self, Option.some.injEq] at hfr'
    subst hfr'
  · cases hpc'
  · cases hc
    exact ⟨h.tryStart fr e hfr hpc, rfl⟩

theorem act_other (h : StopwatchInv i s w) (hok : ∀ t, inp = .clock t → w.last ≤ t ∧ t < 2 ^ 63)
    (hs : act O s (.caller i) inp = some s') (hfr : s.thr (.caller i) = some fr) (hpc : ∀ e, fr.pc ≠ .tryStart e) :
    StopwatchInv i s' (w.read inp) := by
  have hfollows : ∀ fr', s'.thr (.caller i) = some fr' →
      (∀ e, fr'.pc ≠ .tryStart e) ∧ ∀ c, fr'.pc.caller = some c → fr.pc.caller = some c := by
    intro fr' hfr'
    rcases leadsTo_of_act hs hfr hfr' with heq | hlead
    · rw [heq]
      exact ⟨hpc, fun c hc => hc⟩
    · exact follows_of_leadsTo hlead hpc
  have hread := h.read hok
  refine ⟨hread.expire, hread.start, hread.last, fun fr' e hfr' hpc' => ?_, fun fr' e start hfr' hc => ?_, hread.turns⟩
  · exact absurd hpc' ((hfollows fr' hfr').1 e)
  · exact hread.caller fr e start hfr ((hfollows fr' hfr').2 _ hc)

theorem act_turn (h : StopwatchInv i s w) (hok : ∀ t, inp = .clock t → w.last ≤ t ∧ t < 2 ^ 63)
    (hs : act O s (.caller i) inp = some s') (hfr : s.thr (.caller i) = some fr)
    (hfr' : s'.thr (.caller i) = some fr') (hb : fr.pc.turn fr'.pc = some b) :
    StopwatchInv i s' ((w.read inp).move fr.pc fr'.pc) := by
  obtain ⟨e, start, t, hpc, rfl, hagain⟩ := turn_of_act hs hfr hfr' hb
  have hne : ∀ e, fr.pc ≠ .tryStart e := by
    intro e he
    rw [he] at hpc
    cases hpc
  have hother := h.act_other hok hs hfr hne
  rw [Stopwatch.move_turn hne hb]
  refine ⟨hother.expire, hother.start, hother.last, hother.tryStart, hother.caller, fun turn hturn => ?_⟩
  rcases List.mem_append.mp hturn with hturn | hturn
  · exact h.turns turn hturn
  · obtain rfl := List.mem_singleton.mp hturn
    obtain ⟨rfl, rfl⟩ := h.caller fr e start hfr (by rw [hpc]; rfl)
    obtain ⟨hle, hlt⟩ := hok t rfl
    obtain ⟨h0, hstart⟩ := h.start
    rw [u64_sub_u64] at hagain
    exact ⟨sub_nonneg.mpr (hstart.trans hle), lt_of_le_of_lt (sub_le_self t h0) hlt, hagain⟩

theorem act (h : StopwatchInv i s w) (hok : ∀ t, inp = .clock t → w.last ≤ t ∧ t < 2 ^ 63)
    (hs : act O s (.caller i) inp = some s') :
    StopwatchInv i s' (observe i s (.act (.caller i) inp) s' w) := by
  obtain ⟨fr, hfr, -⟩ := act_cases hs
  simp only [observe, if_true, hfr]
  by_cases hstart : ∃ e, fr.pc = .tryStart e
  · obtain ⟨e, hpc⟩ := hstart
    obtain ⟨fr', hfr', hstep⟩ := h.act_start hok hs hfr hpc
    rw [hfr']
    exact hstep
  · push Not at hstart
    have hstep := h.act_other hok hs hfr hstart
    cases hfr' : s'.thr (.caller i) with
    | none => exact hstep
    | some fr' =>
      cases hb : fr.pc.turn fr'.pc with
      | none =>
        simp only
        rw [Stopwatch.move_none hstart hb]
        exact hstep
      | some b => exact h.act_turn hok hs hfr hfr' hb

theorem step (h : StopwatchInv i s w) (hkind : KindInv s) (hok : Punctual i (s, w) l) (hs : next O s l = some s') :
    StopwatchInv i s' (observe i s l s' w) := by
  by_cases hact : ∃ inp, l = .act (.caller i) inp
  · obtain ⟨inp, rfl⟩ := hact
    exact h.act (fun t ht => hok.reading t (by rw [ht])) hs
  by_cases hcall : ∃ c, l = .call i c
  · obtain ⟨c, rfl⟩ := hcall
    rcases next_cases hs with ⟨_, hl, -⟩ | ⟨_, _, hl, -, rfl⟩ | ⟨_, _, hl, -⟩ | ⟨_, _, hl, -⟩ <;> cases hl
    exact h.call fun e he => hok.expire e (by rw [he])
  · push Not at hact hcall
    have hw : observe i s l s' w = w := by
      unfold observe
      split
      · rename_i j e
        exact if_neg fun hj => hcall (.tryLockFor e) (by rw [hj])
      · rename_i j inp
        exact if_neg fun hj => hact inp (by rw [hj])
      · rfl
    have hthr := (next_other hkind hs hcall hact).1
    rw [hw]
    exact ⟨h.expire, h.start, h.last, hthr ▸ h.tryStart, hthr ▸ h.caller, h.turns⟩

end StopwatchInv

/-! ## The condition -/

/-- **The deadline is respected, exactly if `expire` is not negative or there was no turn.** -/
theorem deadline_respected {x : State D ι π ω × Stopwatch} (h : (stopwatch O D ω i).Reach (Punctual i) x) :
    x.2.Respects ↔ 0 ≤ x.2.expire ∨ x.2.turns = [] := by
  have hinv : StopwatchInv i x.1 x.2 := by
    refine h.invariant (I := fun x => StopwatchInv i x.1 x.2) (fun x h₀ => ?_) fun x l x' hr hi hok hn => ?_
    · rw [h₀.2]
      exact .init h₀.1
    · obtain ⟨hn, hw⟩ := Machine.withHistory_next.mp hn
      have hr : (system O D ω).Reach (fun _ _ => True) x.1 := hr.fst fun _ _ _ => trivial
      rw [hw]
      exact hi.step (.of_reach hr) hok hn
  obtain ⟨hmin, hmax⟩ := hinv.expire
  constructor
  · intro hrespects
    by_contra hneg
    push Not at hneg
    obtain ⟨e, he⟩ := List.exists_mem_of_ne_nil _ hneg.2
    obtain ⟨h0, hlt, hagain⟩ := hinv.turns e he
    -- a negative `expire` counts for more than every time that can pass
    have hu : u64 e.elapsed < u64 x.2.expire := by
      unfold u64
      omega
    have := (hrespects e he).1 (hagain.mpr hu)
    omega
  · rintro (hnonneg | hnil) e he
    · obtain ⟨h0, hlt, hagain⟩ := hinv.turns e he
      have helapsed : (u64 e.elapsed : ℤ) = e.elapsed := u64_of_lt h0 (by omega)
      have hexpire : (u64 x.2.expire : ℤ) = x.2.expire := u64_of_lt hnonneg (by omega)
      have hiff : e.again = true ↔ e.elapsed < x.2.expire := by
        rw [hagain]
        omega
      refine ⟨hiff.mp, fun hfalse => ?_⟩
      by_contra hlt
      rw [hiff.mpr (not_le.mp hlt)] at hfalse
      cases hfalse
    · rw [hnil] at he
      cases he

/-! ## Two runs -/

/-- The inputs of an attempt at one database that holds the entry of another object, and of the loop test after it. -/
def failedInputs (t t' : ℤ) : List Input :=
  [.none, .clock t, .shuffle [0], .none, .none, .db .none, .db .none, .none, .none, .none, .none, .none, .none,
    .db .none, .db .none, .db .none, .none, .clock t']

/-- The labels of a `try_lock(expire)` of the first object while the second one is held: it starts at 0, and a failed
attempt ends at each of the times. -/
def failingTries (expire : ℤ) (times : List ℤ) : List (Label Bool Unit) :=
  lockPass true [0] 0 ++ accept true 0 ++ .call false (.tryLockFor expire) ::
    ((.clock 0 :: times.flatMap fun t => failedInputs t t).map (.act (.caller false)))

def punctual (x : State (dbRedis 16) Bool Unit Unit × Stopwatch) : Label Bool Unit → Bool
  | .act (.caller false) (.clock t) => decide (x.2.last ≤ t ∧ t < 2 ^ 63)
  | .call false (.tryLockFor e) => decide (InInt64 e)
  | _ => true

theorem punctual_of_test (x : State (dbRedis 16) Bool Unit Unit × Stopwatch) (l : Label Bool Unit)
    (h : punctual x l = true) : Punctual false x l := by
  refine ⟨?_, ?_⟩
  · rintro t rfl
    exact of_decide_eq_true h
  · rintro e rfl
    exact of_decide_eq_true h

/-- `try_lock(100)` tries again after 60 milliseconds and gives up after 120. -/
theorem deadline_respected_hundred : ∃ x : State (dbRedis 16) Bool Unit Unit × Stopwatch,
    (stopwatch (twoObjects [0]) (dbRedis 16) Unit false).Reach (Punctual false) x ∧
      x.2.turns = [⟨60, true⟩, ⟨120, false⟩] ∧ x.2.Respects := by
  obtain ⟨x, hr, hx⟩ := Machine.exists_reach (stopwatch (twoObjects [0]) (dbRedis 16) Unit false)
    (failingTries 100 [60, 120]) (fun x => decide (x.2.turns = [⟨60, true⟩, ⟨120, false⟩] ∧ 0 ≤ x.2.expire))
    punctual_of_test stopwatch_blank (by decide)
  obtain ⟨hturns, hexpire⟩ := of_decide_eq_true hx
  exact ⟨x, hr, hturns, (deadline_respected hr).mpr (.inl hexpire)⟩

/-- `try_lock(-1)` does not give up. -/
theorem negative_deadline_missed : ¬ ∀ x : State (dbRedis 16) Bool Unit Unit × Stopwatch,
    (stopwatch (twoObjects [0]) (dbRedis 16) Unit false).Reach (Punctual false) x → x.2.Respects := by
  intro hall
  obtain ⟨x, hr, hx⟩ := Machine.exists_reach (stopwatch (twoObjects [0]) (dbRedis 16) Unit false)
    (failingTries (-1) [0]) (fun x => decide (x.2.turns = [⟨0, true⟩] ∧ x.2.expire = -1))
    punctual_of_test stopwatch_blank (by decide)
  obtain ⟨hturns, hexpire⟩ := of_decide_eq_true hx
  have h := (hall x hr ⟨0, true⟩ (by rw [hturns]; exact List.mem_singleton_self _)).1 rfl
  rw [hexpire] at h
  exact absurd h (by decide)

end DistributedLock.Cluster
