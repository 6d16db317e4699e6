import DistributedLock.Cluster.Tally

/-!
# The first renewal and the lifetimes of the counted entries

`dated` records, of every `SET NX` that succeeds in a pass, the time and the entry it left on the server.  The
acceptance test compares the time of the whole pass with `lock_validity_time_`; the renewal is then scheduled
`run_time_ / 3 * 2` from the acceptance on, while each entry lives `lock_validity_time_` from its own `SET` on.  So
every counted entry outlives the renewal exactly when the time from the first of these `SET`s to the scheduling leaves
room for the period (`renewal_in_time`), and the acceptance test does not ensure that (`renewal_late`).
-/

set_option linter.unusedSectionVars false

namespace DistributedLock.Cluster

open Lib Redis DMutex

variable {n : ℕ} {ι π ω : Type} [DecidableEq ι] [DecidableEq π] [DecidableEq ω] {O : Objects ι π}
  {s s' : State (dbRedis n) ι π ω}

/-! ## Dated successes -/

/-- A `SET NX` that succeeded: the database, the time, the entry of the key after it. -/
structure Dated where
  host : ℤ
  setAt : ℤ
  entry : Option Entry

def date (O : Objects ι π) (s s' : State (dbRedis n) ι π ω) (i : ι) : List Dated → Pc → Option Pc → List Dated :=
  tallyPc ⟨s.conn i, s.now, s'.srv (s.conn i) (O.cfg i).key⟩

/-- The system with the successes of the last pass of each object. -/
def dated (O : Objects ι π) (n : ℕ) (ω : Type) [DecidableEq ω] :
    Machine (State (dbRedis n) ι π ω × (ι → List Dated)) (Label ι ω) :=
  (system O (dbRedis n) ω).withHistory (fun _ => []) (atCaller (date O))

/-- `MainLockFunction` is entered with `have_lock_num_` empty. -/
def Cleared (s : State (dbRedis n) ι π ω) (l : Label ι ω) : Prop :=
  ∀ i, l = .call i .tryLock → (s.fields i).haveLockNum = []

/-- The clock the clients read is that of the server. -/
def SharedClock (s : State (dbRedis n) ι π ω) (l : Label ι ω) : Prop :=
  ∀ θ t, l = .act θ (.clock t) → t = s.now

/-- The entry of this object lives at the time `t`. -/
def Dated.Outlives (cfg : Cfg) (t : ℤ) (d : Dated) : Prop :=
  ∃ e, d.entry = some e ∧ e.value = cfg.value ∧ t ≤ e.expireAt

theorem reach_of_dated {x : State (dbRedis n) ι π ω × (ι → List Dated)}
    (h : (dated O n ω).Reach (fun x l => Cleared x.1 l) x) : (system O (dbRedis n) ω).Reach Cleared x.1 := by
  unfold dated at h
  exact h.fst fun _ _ hok => hok

theorem callersOk_of_cleared (h : (system O (dbRedis n) ω).Reach Cleared s) :
    CallersOk O (fun _ _ _ _ => True) s := by
  refine h.invariant (I := CallersOk O fun _ _ _ _ => True) (fun t h₀ => .init h₀) fun t l t' hr hi hok hn => ?_
  refine hi.step (KindInv.of_reach hr) hn (fun _ => ⟨fun _ => trivial, fun _ _ => trivial⟩) ?_ ?_ ?_ hok
  · intros; trivial
  · intros; trivial
  · intros i fault hl fr c p hfr hpc hr hnow hsrv _ hperm hlt; trivial

/-! ## The hosts counted are the databases of the successes -/

theorem atCaller_date_map (s : State (dbRedis n) ι π ω) (l : Label ι ω) (s' : State (dbRedis n) ι π ω)
    (ds : ι → List Dated) (i : ι) :
    (atCaller (date O) s l s' ds i).map Dated.host = atCaller tally s l s' (fun i => (ds i).map Dated.host) i := by
  unfold atCaller
  split
  · split
    · split
      · exact tallyPc_map Dated.host _ _ _ _
      · rfl
    · rfl
  · rfl

theorem wonInv_of_dated {x : State (dbRedis n) ι π ω × (ι → List Dated)}
    (h : (dated O n ω).Reach (fun x l => Cleared x.1 l) x) : WonInv x.1 fun i => (x.2 i).map Dated.host := by
  refine h.invariant (I := fun x => WonInv x.1 fun i => (x.2 i).map Dated.host)
    (fun y h₀ i fr h1 => by simp [h₀.1.thr] at h1) ?_
  intro y l y' hr hi hok hn
  obtain ⟨hn, hds⟩ := Machine.withHistory_next.mp hn
  have hr' := reach_of_dated hr
  have hmap : (fun i => (y'.2 i).map Dated.host) = atCaller tally y.1 l y'.1 (fun i => (y.2 i).map Dated.host) := by
    funext i
    rw [hds]
    exact atCaller_date_map _ _ _ _ _
  rw [hmap]
  exact hi.step (.of_reach hr') (.of_reach (dbRedis_lawful n) hr') (callersOk_of_cleared hr') hn

/-! ## The lifetimes -/

/-- The entry of a success lives `lock_validity_time_` from its `SET` on. -/
structure Dated.Ok (cfg : Cfg) (now : ℤ) (d : Dated) : Prop where
  entry : d.entry = some ⟨cfg.value, d.setAt + i32 cfg.lockValidityTime⟩
  past : d.setAt ≤ now

/-- The successes of a pass, in the order of their times. -/
structure DatesOk (cfg : Cfg) (now : ℤ) (ds : List Dated) : Prop where
  ok : ∀ d ∈ ds, d.Ok cfg now
  sorted : ds.Pairwise fun d d' => d.setAt ≤ d'.setAt

namespace DatesOk

variable {cfg : Cfg} {now now' : ℤ} {ds : List Dated} {d : Dated}

theorem nil : DatesOk cfg now [] := ⟨by simp, .nil⟩

theorem mono (h : DatesOk cfg now ds) (hle : now ≤ now') : DatesOk cfg now' ds :=
  ⟨fun d hd => ⟨(h.ok d hd).entry, (h.ok d hd).past.trans hle⟩, h.sorted⟩

theorem snoc (h : DatesOk cfg now ds) (hd : d.entry = some ⟨cfg.value, now + i32 cfg.lockValidityTime⟩)
    (hat : d.setAt = now) : DatesOk cfg now (ds ++ [d]) := by
  refine ⟨fun d' hd' => ?_, ?_⟩
  · rcases List.mem_append.mp hd' with hd' | hd'
    · exact h.ok d' hd'
    · rw [List.mem_singleton.mp hd']
      exact ⟨by rw [hat]; exact hd, le_of_eq hat⟩
  · rw [List.pairwise_append]
    refine ⟨h.sorted, List.pairwise_singleton _ _, fun a ha b hb => ?_⟩
    rw [List.mem_singleton.mp hb, hat]
    exact (h.ok a ha).past

/-- **The first success is the one to watch.** -/
theorem outlives_iff (h : DatesOk cfg now ds) (t : ℤ) :
    (∀ d ∈ ds, d.Outlives cfg t) ↔ ∀ d ∈ ds.head?, t - d.setAt ≤ i32 cfg.lockValidityTime := by
  have hiff : ∀ d ∈ ds, (d.Outlives cfg t ↔ t - d.setAt ≤ i32 cfg.lockValidityTime) := by
    intro d hd
    constructor
    · rintro ⟨e, he, -, hle⟩
      rw [(h.ok d hd).entry] at he
      cases he
      simp only at hle
      omega
    · intro hle
      exact ⟨_, (h.ok d hd).entry, rfl, by simp only; omega⟩
  cases ds with
  | nil => simp
  | cons d ds =>
    constructor
    · rintro hall d' ⟨⟩
      exact (hiff d List.mem_cons_self).mp (hall d List.mem_cons_self)
    · intro hfirst d' hd'
      have hle : d.setAt ≤ d'.setAt := by
        rcases List.mem_cons.mp hd' with rfl | hd'
        · exact le_refl _
        · exact List.rel_of_pairwise_cons h.sorted hd'
      have := hfirst d rfl
      exact (hiff d' hd').mpr (by omega)

end DatesOk

/-- A `SetKeyValue` of the caller that reports success leaves its entry in the database selected. -/
theorem act_set_succeed (hconn : ConnInv DBRedisPc.Inside O s) {i : ι} {inp : Input} {fr : Frame (dbRedis n)}
    (hs : act O s (.caller i) inp = some s') (hfr : s.thr (.caller i) = some fr) {c c' : Caller} {p p' : Pass}
    (hpc : fr.pc = .mainSet c p)
    (hpc' : (s'.thr (.caller i)).map Frame.pc = some (.mainUnlock c' p' .kSetKeySucceed)) :
    s'.srv (s.conn i) (O.cfg i).key =
      some ⟨(O.cfg i).value, s.now + i32 (O.cfg i).lockValidityTime⟩ := by
  obtain ⟨fr₀, hfr₀, ha⟩ := act_cases hs
  rw [hfr] at hfr₀
  cases hfr₀
  have hcode : code (O.cfg i) (s.fields i) fr.pc =
      .call (.setKeyValue (O.cfg i).key (O.cfg i).value (O.cfg i).lockValidityTime) fun r => .mainUnlock c p r := by
    rw [hpc]
    rfl
  have hin := hconn.inside_getD (θ := .caller i) (dbRedis_lawful n) hfr hcode
  cases ha with
  | more hc hr => simp [hpc] at hpc'
  | @done op k fault r hc hr =>
    simp only [Thread.obj] at hc
    rw [hcode, Instr.call.injEq] at hc
    obtain ⟨rfl, rfl⟩ := hc
    simp only [State.goto_thr, Function.update_self, Option.map_some, Option.some.injEq, Pc.mainUnlock.injEq] at hpc'
    obtain ⟨-, -, rfl⟩ := hpc'
    have hq : fr.db.getD ((dbRedis n).start (.setKeyValue (O.cfg i).key (O.cfg i).value (O.cfg i).lockValidityTime)) =
        .set (O.cfg i).key (O.cfg i).value (O.cfg i).lockValidityTime := hin
    simp only [Thread.obj, dbStep, hq] at hr
    obtain ⟨-, -, hstore⟩ := step_set_succeed hr
    show (dbStep s i fr.db _ fault).store _ _ = _
    simp only [dbStep, hq, hstore]
    simp [Store.put]
  | raise hc hr => simp at hpc'
  | tau hc | lock hc | unlock hc | clock hc | shuffle hc | pushEvent hc | ret hc | throw hc =>
    simp only [Thread.obj] at hc
    rw [hcode] at hc
    cases hc

theorem datesOk_of_reach {x : State (dbRedis n) ι π ω × (ι → List Dated)}
    (h : (dated O n ω).Reach (fun x l => Cleared x.1 l) x) (i : ι) : DatesOk (O.cfg i) x.1.now (x.2 i) := by
  refine h.invariant (I := fun x => DatesOk (O.cfg i) x.1.now (x.2 i)) (fun y h₀ => ?_) ?_
  · rw [h₀.2]
    exact .nil
  intro y l y' hr hi hok hn
  obtain ⟨hn, hds⟩ := Machine.withHistory_next.mp hn
  have hnow : y.1.now ≤ y'.1.now := by
    rcases next_srv hn with ⟨t, -, ht, hnow, -⟩ | ⟨hnow, -⟩ | ⟨_, _, _, _, _, _, _, _, hnow, -⟩
    · rw [hnow]; exact ht
    · exact le_of_eq hnow.symm
    · exact le_of_eq hnow.symm
  rw [hds]
  by_cases hact : ∃ inp, l = .act (.caller i) inp
  · obtain ⟨inp, rfl⟩ := hact
    obtain ⟨fr, hfr, -⟩ := act_cases hn
    rw [atCaller_self hfr, date]
    unfold tallyPc
    split
    · exact .nil
    · rename_i c p c' p' r hpc hpc'
      split
      · rename_i hr'
        subst hr'
        have hentry := act_set_succeed (.of_reach (dbRedis_lawful n) (reach_of_dated hr)) hn hfr hpc hpc'
        exact (hi.snoc hentry rfl).mono hnow
      · exact hi.mono hnow
    · exact hi.mono hnow
  · push Not at hact
    rw [atCaller_other hact]
    exact hi.mono hnow

/-! ## The first renewal -/

/-- **When the first renewal is in time.**  The caller of `i` is about to register the renewal event.  Every entry
counted in `have_lock_num_` lives until the event is due if and only if the time since the first `SET` that succeeded
in this pass, with the period of the event, is not more than `lock_validity_time_`. -/
theorem renewal_in_time {ds : ι → List Dated} (h : (dated O n ω).Reach (fun x l => Cleared x.1 l) (s, ds)) {i : ι}
    (hV : 1 ≤ (O.cfg i).lockValidityTime ∧ (O.cfg i).lockValidityTime ≤ 2 ^ 31 - 1) {fr : Frame (dbRedis n)}
    (hfr : s.thr (.caller i) = some fr) {f : Fields} {period : ℤ} {pc : Pc}
    (hcode : code (O.cfg i) (s.fields i) fr.pc = .pushEvent f period pc) :
    (ds i).map Dated.host = (s.fields i).haveLockNum ∧
    ((∀ d ∈ ds i, d.Outlives (O.cfg i) (s.now + period)) ↔
      ∀ d ∈ (ds i).head?, s.now - d.setAt ≤ (O.cfg i).lockValidityTime - (O.cfg i).runTime.tdiv 3 * 2) := by
  obtain ⟨c, p, hpc, -, rfl, -⟩ := code_pushEvent hcode
  refine ⟨?_, ?_⟩
  · have hwon := wonInv_of_dated h i fr hfr (by rw [hpc]; rfl)
    rw [hpc] at hwon
    simpa [Pc.pending] using hwon
  · have hi32 : i32 (O.cfg i).lockValidityTime = (O.cfg i).lockValidityTime := i32_of_lt (by omega) (by omega)
    rw [(datesOk_of_reach h i).outlives_iff, hi32]
    refine forall₂_congr fun d _ => ?_
    constructor <;> intro hle <;> omega

/-- The caller of the first of two objects is about to register the renewal event. -/
def registering (s : State (dbRedis n) Bool Unit Unit) : Bool :=
  match s.thr (.caller false) with
  | some ⟨.mainAccept .., _⟩ => true
  | _ => false

theorem registering_iff {s : State (dbRedis n) Bool Unit Unit} (h : registering s = true) :
    ∃ fr c p, s.thr (.caller false) = some fr ∧ fr.pc = .mainAccept c p := by
  unfold registering at h
  split at h
  · exact ⟨_, _, _, by assumption, rfl⟩
  · cases h

/-- A run without `try_lock()` whose clients read the clock of the server. -/
def inTime (x : State (dbRedis n) Bool Unit Unit × (Bool → List Dated)) : Label Bool Unit → Bool
  | .call _ c => c ≠ .tryLock
  | .act _ (.clock t) => t = x.1.now
  | _ => true

theorem cleared_of_inTime (x : State (dbRedis n) Bool Unit Unit × (Bool → List Dated)) (l : Label Bool Unit)
    (h : inTime x l = true) : Cleared x.1 l ∧ SharedClock x.1 l := by
  constructor
  · rintro i rfl
    simp [inTime] at h
  · rintro θ t rfl
    simpa [inTime] using h

/-- Two hosts and a pass that takes 100 ms: the counted entries live until the renewal. -/
theorem renewal_in_time_two : ∃ x : State (dbRedis 16) Bool Unit Unit × (Bool → List Dated),
    (dated (twoObjects [0, 1]) 16 Unit).Reach (fun x l => Cleared x.1 l) x ∧ registering x.1 = true ∧
      (x.2 false).map Dated.host = (x.1.fields false).haveLockNum ∧
      ∀ d ∈ x.2 false, d.Outlives ((twoObjects [0, 1]).cfg false) (x.1.now + 20000 / 3 * 2) := by
  obtain ⟨⟨s, ds⟩, hr, hs⟩ := Machine.exists_reach (dated (twoObjects [0, 1]) 16 Unit)
    (lockPass false [1, 0] 0 ++ .tick 100 :: (accept false 100).take 2)
    (fun x => registering x.1 && (x.2 false).head?.all fun d => decide (x.1.now - d.setAt ≤ 30000 - 13332))
    (fun x l h => (cleared_of_inTime x l h).1)
    (s := (State.blank, fun _ => [])) ⟨State.blank_initial, rfl⟩ (by decide)
  simp only [Bool.and_eq_true] at hs
  obtain ⟨fr, c, p, hfr, hpc⟩ := registering_iff hs.1
  obtain ⟨hhosts, hiff⟩ := renewal_in_time hr (by decide) hfr (by rw [hpc]; rfl)
  refine ⟨(s, ds), hr, hs.1, hhosts, hiff.mpr fun d hd => ?_⟩
  have hfirst := hs.2
  rw [Option.mem_def.mp hd] at hfirst
  exact of_decide_eq_true hfirst

/-- One host and a pass that takes 30000 ms, the validity time: the acceptance test is passed, and the renewal, due
after 13332 ms more, is late. -/
theorem renewal_late : ¬ ∀ x : State (dbRedis 16) Bool Unit Unit × (Bool → List Dated),
    (dated (twoObjects [0]) 16 Unit).Reach (fun x l => Cleared x.1 l ∧ SharedClock x.1 l) x →
      ∀ i fr f period pc, x.1.thr (.caller i) = some fr →
        code ((twoObjects [0]).cfg i) (x.1.fields i) fr.pc = .pushEvent f period pc →
        ∀ d ∈ x.2 i, d.Outlives ((twoObjects [0]).cfg i) (x.1.now + period) := by
  intro hall
  obtain ⟨⟨s, ds⟩, hr, hs⟩ := Machine.exists_reach (dated (twoObjects [0]) 16 Unit)
    (lockPass false [0] 0 ++ .tick 30000 :: (accept false 30000).take 2)
    (fun x => registering x.1 && (x.2 false).any fun d => decide (∀ e ∈ d.entry, e.expireAt < x.1.now + 13332))
    cleared_of_inTime
    (s := (State.blank, fun _ => [])) ⟨State.blank_initial, rfl⟩ (by decide)
  simp only [Bool.and_eq_true, List.any_eq_true] at hs
  obtain ⟨hreg, d, hd, hlt⟩ := hs
  obtain ⟨fr, c, p, hfr, hpc⟩ := registering_iff hreg
  obtain ⟨e, he, -, hle⟩ := hall (s, ds) hr false fr _ _ _ hfr (by rw [hpc]; rfl) d hd
  have hlt' := of_decide_eq_true hlt e he
  have hperiod : (20000 : ℤ).tdiv 3 * 2 = 13332 := by decide
  simp only [twoObjects, hperiod] at hle
  omega

end DistributedLock.Cluster
