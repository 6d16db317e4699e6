import DistributedLock.Cluster.Callers

/-!
# The quorum is live at acceptance

The objects act through the contract of the database interface, entries expire, and one clock is shared by
the clients and the server (`Timed`).  A pass that started at `t₀` counts entries that live until
`t₀ + lock_validity_time_` at least (`Lasting`); as long as that time has not passed, no step of any thread
takes one of them away, and so no database is counted twice.  The acceptance test reads the same clock.
-/

set_option linter.unusedSectionVars false

namespace DistributedLock.Cluster

open Lib Redis DMutex

/-! ## Lasting entries -/

/-- The database `h` holds the object's entry, with a lifetime until `till` at least. -/
def Lasts (cfg : Cfg) (srv : Store) (till h : ℤ) : Prop :=
  ∃ e, srv h cfg.key = some e ∧ e.value = cfg.value ∧ till ≤ e.expireAt

theorem Lasts.owns {cfg : Cfg} {srv : Store} {till h now : ℤ} (hl : Lasts cfg srv till h) (hn : now ≤ till) :
    Owns cfg srv now h := by
  obtain ⟨e, he, hv, ht⟩ := hl
  exact ⟨e, Store.live_eq_some.mpr ⟨he, hn.trans ht⟩, hv⟩

/-- The hosts `xs` counted by a pass that started at `t₀`: until the validity time has passed they are distinct
hosts of the object, and their entries last that long. -/
structure Lasting (cfg : Cfg) (srv : Store) (now : ℤ) (start : ℕ) (xs : List ℤ) (t₀ : ℤ) : Prop where
  start : start = u64 t₀
  int64 : InInt64 t₀
  past : t₀ ≤ now
  nodup : now ≤ t₀ + cfg.lockValidityTime → xs.Nodup
  subset : ∀ h ∈ xs, h ∈ cfg.hosts
  lasts : now ≤ t₀ + cfg.lockValidityTime → ∀ h ∈ xs, Lasts cfg srv (t₀ + cfg.lockValidityTime) h

section Contract

variable {n : ℕ} {now db h till : ℤ} {srv : Store} {cfg : Cfg} {op : DBOp} {fault : Fault}

/-- An operation leaves a live entry alone, unless it deletes this value or renews it for less. -/
theorem contractStep_lasts (hl : Lasts cfg srv till h) (hn : now ≤ till)
    (hdel : ∀ key value, op = .delKeyValue key value → value ≠ cfg.value)
    (hupd : ∀ key value expire, op = .updateExpire key value expire → value = cfg.value → till ≤ now + expire) :
    Lasts cfg (contractStep n op now db srv).2.2 till h := by
  obtain ⟨e, he, hv, ht⟩ := hl
  have hlive : srv.live now h cfg.key = some e := Store.live_eq_some.mpr ⟨he, hn.trans ht⟩
  -- the entry is untouched when another one is replaced
  have hput : ∀ {key : String} {x : Option Entry}, ¬ (h = db ∧ cfg.key = key) →
      Lasts cfg (srv.put db key x) till h := by
    intro key x hne
    exact ⟨e, by rw [Store.put, if_neg hne]; exact he, hv, ht⟩
  cases op with
  | selectDB index =>
    simp only [contractStep]
    split <;> exact ⟨e, he, hv, ht⟩
  | setKeyValue key value expire =>
    simp only [contractStep]
    split
    · exact ⟨e, he, hv, ht⟩
    · rename_i hnone
      refine hput ?_
      rintro ⟨rfl, rfl⟩
      rw [hnone] at hlive
      cases hlive
  | updateExpire key value expire =>
    simp only [contractStep]
    split
    · rename_i e' he'
      split
      · rename_i hval
        by_cases hhk : h = db ∧ cfg.key = key
        · obtain ⟨rfl, rfl⟩ := hhk
          rw [he'] at hlive
          cases hlive
          have hvalue : value = cfg.value := hval.symm.trans hv
          exact ⟨⟨value, now + expire⟩, by simp [Store.put], hvalue, hupd _ _ _ rfl hvalue⟩
        · exact hput hhk
      · exact ⟨e, he, hv, ht⟩
    · rename_i hnone
      refine hput ?_
      rintro ⟨rfl, rfl⟩
      rw [hnone] at hlive
      cases hlive
  | delKeyValue key value =>
    simp only [contractStep]
    split
    · rename_i e' he'
      split
      · rename_i hval
        refine hput ?_
        rintro ⟨rfl, rfl⟩
        rw [he'] at hlive
        cases hlive
        exact hdel _ _ rfl (hval.symm.trans hv)
      · exact ⟨e, he, hv, ht⟩
    · exact ⟨e, he, hv, ht⟩

theorem contract_lasts (hl : Lasts cfg srv till h) (hn : now ≤ till)
    (hdel : ∀ key value, op = .delKeyValue key value → value ≠ cfg.value)
    (hupd : ∀ key value expire, op = .updateExpire key value expire → value = cfg.value → till ≤ now + expire) :
    Lasts cfg ((contract n).step fault op now db srv).store till h := by
  cases fault with
  | none => exact contractStep_lasts hl hn hdel hupd
  | unperformed e => exact hl
  | performed e => exact contractStep_lasts hl hn hdel hupd

theorem contract_set_succeed {key value : String} {expire : ℤ}
    (h : ((contract n).step fault (.setKeyValue key value expire) now db srv).resp = .done .kSetKeySucceed) :
    srv.live now db key = none ∧
      ((contract n).step fault (.setKeyValue key value expire) now db srv).store =
        srv.put db key (some ⟨value, now + expire⟩) := by
  cases fault with
  | none =>
    simp only [contract, contractStep] at h ⊢
    split at h
    · cases h
    · rename_i hnone
      exact ⟨hnone, by simp⟩
  | unperformed e => cases h
  | performed e => cases h

end Contract

/-! ## The runs -/

variable {n : ℕ} {ι π ω : Type} [DecidableEq ι] [DecidableEq π] [DecidableEq ω] {O : Objects ι π}
  {s s' : State (contract n) ι π ω} {θ : Thread ι ω} {fr : Frame (contract n)} {inp : Input}

/-- Every object is used alternately, and every clock reading is the time of the server, an `int64_t`. -/
def Timed (s : State (contract n) ι π ω) : Label ι ω → Prop
  | .call i c => Alternates (s.held i) c
  | .act _ (.clock t) => t = s.now ∧ InInt64 t
  | _ => True

instance (s : State (contract n) ι π ω) : DecidablePred (Timed s : Label ι ω → Prop)
  | .call i c => inferInstanceAs (Decidable (Alternates (s.held i) c))
  | .act _ (.clock t) => inferInstanceAs (Decidable (t = s.now ∧ InInt64 t))
  | .tick _ | .keep _ _ | .act _ .none | .act _ (.shuffle _) | .act _ (.db _) => inferInstanceAs (Decidable True)

def CountedLasting (O : Objects ι π) (s : State (contract n) ι π ω) (i : ι) (p : Pass) (xs : List ℤ) : Prop :=
  ∃ t₀, Lasting (O.cfg i) s.srv s.now p.start xs t₀

section Steps

variable (hO : Contenders O) (hkind : KindInv s) (hconn : ConnInv (fun op q => q = op) O s)
include hO hkind hconn

/-- **The counted entries last**, whatever step is made, unless it is their own caller that deletes them. -/
theorem lasting_step {l : Label ι ω} (hs : next O s l = some s') {j : ι} (hdel : ¬ Deleting s j) {start : ℕ}
    {xs : List ℤ} {t₀ : ℤ} (h : Lasting (O.cfg j) s.srv s.now start xs t₀) :
    Lasting (O.cfg j) s'.srv s'.now start xs t₀ := by
  rcases next_srv hs with ⟨t, rfl, ht, hnow, hsrv, -⟩ | ⟨hnow, hsrv, -⟩ |
    ⟨θ, fr, fault, op, k, rfl, hfr, hc, hnow, hsrv, -⟩
  · rw [hnow, hsrv]
    exact ⟨h.start, h.int64, h.past.trans ht, fun hn => h.nodup (ht.trans hn), h.subset,
      fun hn => h.lasts (ht.trans hn)⟩
  · rw [hnow, hsrv]
    exact h
  · rw [hnow, hsrv]
    refine ⟨h.start, h.int64, h.past, h.nodup, h.subset, fun hn x hx => ?_⟩
    have hq : fr.db.getD ((contract n).start op) = op := hconn.inside_getD (contract_lawful n) hfr hc
    simp only [dbStep, hq]
    refine contract_lasts (h.lasts hn x hx) hn ?_ ?_
    · rintro key value rfl hval
      by_cases hj : j = θ.obj
      · subst hj
        exact not_del hkind hfr hc hdel key value rfl
      · rcases code_call hc with ⟨_, h⟩ | ⟨_, _, _, h⟩ | ⟨_, _, _, _, _, h⟩ | ⟨_, _, _, h⟩ <;> cases h
        exact hj (hO.value hval.symm)
    · rintro key value expire rfl hval
      rcases code_call hc with ⟨_, h⟩ | ⟨_, _, _, h⟩ | ⟨_, _, _, _, _, h⟩ | ⟨_, _, _, h⟩ <;> cases h
      obtain rfl : θ.obj = j := hO.value hval
      have := h.past
      omega

theorem lasting_set {j : ι} {fault : Fault} (hs : next O s (.act (.caller j) (.db fault)) = some s') :
    CallersOk.Sets O (CountedLasting O) s s' j fault := by
  rintro fr c p hfr hpc hr hnow hsrv ⟨t₀, hold⟩ hperm hlt
  refine ⟨t₀, ?_⟩
  have hsel : s.conn j = p.host := hconn.selected (.caller j) fr p.host hfr (by rw [hpc]; rfl)
  have hxs := lasting_step hO hkind hconn hs (not_deleting_of_passing hfr (by rw [hpc]; rfl)) hold
  have hq : fr.db.getD ((contract n).start (.setKeyValue (O.cfg j).key (O.cfg j).value (O.cfg j).lockValidityTime)) =
      .setKeyValue (O.cfg j).key (O.cfg j).value (O.cfg j).lockValidityTime :=
    hconn.inside_getD (θ := .caller j) (contract_lawful n) hfr (by rw [hpc]; rfl)
  simp only [setStep, dbStep, hq, hsel] at hr hsrv
  obtain ⟨hnone, hstore⟩ := contract_set_succeed hr
  refine ⟨hxs.start, hxs.int64, hxs.past, fun hn => ?_, fun x hx => ?_, fun hn x hx => ?_⟩
  · rw [← List.concat_eq_append]
    refine (hxs.nodup hn).concat fun hmem => ?_
    -- a host counted before still holds a live entry
    rw [hnow] at hn
    obtain ⟨e, he, -⟩ := (hold.lasts hn _ hmem).owns hn
    rw [hnone] at he
    cases he
  · rcases List.mem_append.mp hx with hx | hx
    · exact hxs.subset x hx
    · rw [List.mem_singleton.mp hx]
      exact hperm.subset (Pass.host_mem hlt)
  · rcases List.mem_append.mp hx with hx | hx
    · exact hxs.lasts hn x hx
    · rw [List.mem_singleton.mp hx, hsrv, hstore]
      have hpast := hold.past
      exact ⟨⟨(O.cfg j).value, s.now + (O.cfg j).lockValidityTime⟩, by simp [Store.put], rfl, by simp only; omega⟩

end Steps

/-- In every reachable state, each caller has counted hosts whose entries last. -/
theorem countedLasting_of_reach (hO : Contenders O) (h : (system O (contract n) ω).Reach Timed s) :
    CallersOk O (CountedLasting O) s := by
  refine h.invariant (I := CallersOk O (CountedLasting O)) (fun t h₀ => .init h₀) fun t l t' hr hi hok hn => ?_
  have hkind := KindInv.of_reach hr
  have hconn := ConnInv.of_reach (contract_lawful n) hr
  refine hi.step hkind hn (fun i => ⟨fun h => h, fun _ h => h⟩) ?_ ?_ ?_ ?_
  · rintro j p xs hcnt ⟨t₀, hxs⟩
    exact ⟨t₀, lasting_step hO hkind hconn hn hcnt.not_deleting hxs⟩
  · rintro i t₁ v rfl hv
    obtain ⟨rfl, hint⟩ := hok
    obtain ⟨fr, k, -, -, rfl⟩ := next_clock hn
    exact ⟨t.now, rfl, hint, le_refl _, fun _ => List.nodup_nil, by simp, by simp⟩
  · rintro i fault rfl
    exact lasting_set hO hkind hconn hn
  · rintro i rfl
    exact hok.elim

/-- **The quorum is live at acceptance.**  When an attempt of `lock()` or `try_lock(expire)` passes the
acceptance test with the clock reading `t`, a majority of the databases of `hosts_` hold the object's entry,
unexpired at `t`. -/
theorem quorum_live_at_acceptance (hO : Contenders O)
    (hV : ∀ i, 1 ≤ (O.cfg i).lockValidityTime ∧ (O.cfg i).lockValidityTime ≤ 2 ^ 31 - 1)
    (h : (system O (contract n) ω).Reach Timed s) {i : ι} {c c' : Caller} {p p' : Pass} {t : ℤ}
    {q q' : Option (contract n).Pc} (hthr : s.thr (.caller i) = some ⟨.mainValidity c p, q⟩)
    (hclock : Timed s (.act (.caller i) (.clock t) : Label ι ω))
    (hs : next O s (.act (.caller i) (.clock t)) = some s')
    (hpass : s'.thr (.caller i) = some ⟨.mainAcceptLock c' p', q'⟩) :
    ∃ xs, Majority (O.cfg i).hosts xs ∧ ∀ x ∈ xs, Owns (O.cfg i) s.srv t x := by
  obtain ⟨⟨t₀, hl⟩, hq⟩ := countedLasting_of_reach hO h i _ hthr
  obtain ⟨rfl, hint⟩ := hclock
  obtain ⟨hV1, hV2⟩ := hV i
  -- what the test compares
  have htest : u64 (s.now - p.start) ≤ u64 (O.cfg i).lockValidityTime := by
    obtain ⟨fr, k, hfr, hc, rfl⟩ := next_clock hs
    rw [hthr] at hfr
    cases hfr
    simp only [code, Instr.clock.injEq] at hc
    subst hc
    by_contra hgt
    simp [Thread.obj, hgt] at hpass
  rw [hl.start, u64_sub_u64] at htest
  have hpast := hl.past
  have hnow : s.now ≤ t₀ + (O.cfg i).lockValidityTime := by
    have h1 := u64_of_lt (x := s.now - t₀) (by omega) (by have := hl.int64.1; have := hint.2; omega)
    have h2 := u64_of_lt (x := (O.cfg i).lockValidityTime) (by omega) (by omega)
    omega
  refine ⟨(s.fields i).haveLockNum, ⟨hl.nodup hnow, hl.subset, hq⟩, fun x hx => ?_⟩
  exact (hl.lasts hnow x hx).owns hnow

/-- The caller of the first of two objects is at the acceptance test, and passes it. -/
def accepting (O : Objects Bool Unit) (s : State (contract n) Bool Unit Unit) : Bool :=
  match s.thr (.caller false), next O s (.act (.caller false) (.clock 0)) with
  | some ⟨.mainValidity .., _⟩, some s' =>
    match s'.thr (.caller false) with
    | some ⟨.mainAcceptLock .., _⟩ => s.now = 0
    | _ => false
  | _, _ => false

/-- A run that passes the acceptance test, with one of the databases listed twice. -/
theorem quorum_live_at_acceptance_two : ∃ s : State (contract 16) Bool Unit Unit,
    (system (twoObjects [0, 1, 0]) (contract 16) Unit).Reach Timed s ∧
      ∃ xs, Majority [0, 1, 0] xs ∧ ∀ x ∈ xs, Owns ((twoObjects [0, 1, 0]).cfg false) s.srv 0 x := by
  obtain ⟨s, hr, ha⟩ := (system (twoObjects [0, 1, 0]) (contract 16) Unit).exists_reach_of_decidable Timed
    (lockPass false [0, 0, 1] 0) (accepting (twoObjects [0, 1, 0])) State.blank_initial (by decide)
  refine ⟨s, hr, ?_⟩
  unfold accepting at ha
  split at ha
  · split at ha
    · have hnow : s.now = 0 := by simpa using ha
      refine quorum_live_at_acceptance (twoObjects_rivals _).toContenders ?_ hr (by assumption)
        ⟨hnow.symm, by decide⟩ (by assumption) (by assumption)
      decide
    · cases ha
  · cases ha

end DistributedLock.Cluster
