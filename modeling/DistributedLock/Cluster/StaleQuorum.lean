import DistributedLock.Cluster.Tally
import DistributedLock.Cluster.Attempt

/-!
# Success and the pass it came from

`lock()`, both `try_lock` and `unlock()` in any order.  The history variable `won` collects the databases on
which `SET NX` succeeded in the last pass of each object.  `have_lock_num_` survives between calls and
`try_lock()` without an argument does not empty it, so a pass of that call may return success on the hosts of an
earlier acquisition (`stale_success`).

In the runs in which every such call finds `have_lock_num_` empty (`Fresh`), a call that returns success has won a
majority of distinct databases in its successful pass (`no_success_from_stale_quorum`).  A database that is
listed more than once in `hosts_` is won only once as long as it does not lose the entry during the pass; that
is the second half of `Fresh`, and says nothing of hosts listed once.
-/

set_option linter.unusedSectionVars false

namespace DistributedLock.Cluster

open Lib Redis DMutex

variable {n : ℕ} {ι π ω : Type} [DecidableEq ι] [DecidableEq π] [DecidableEq ω] {O : Objects ι π}
  {s s' : State (dbRedis n) ι π ω} {won won' : ι → List ℤ}

/-! ## The databases won by a pass -/

def tallied (O : Objects ι π) (n : ℕ) (ω : Type) [DecidableEq ω] :
    Machine (State (dbRedis n) ι π ω × (ι → List ℤ)) (Label ι ω) :=
  (system O (dbRedis n) ω).withHistory (fun _ => []) (atCaller tally)

/-- Every `try_lock()` without an argument finds `have_lock_num_` empty, and no pass loses its entry in a
database that is listed more than once in `hosts_`. -/
structure Fresh (O : Objects ι π) (s : State (dbRedis n) ι π ω) (l : Label ι ω) : Prop where
  cleared : ∀ i, l = .call i .tryLock → (s.fields i).haveLockNum = []
  kept : ∀ i xs h s', Counting s i xs → h ∈ xs → 1 < (O.cfg i).hosts.count h →
    Owns (O.cfg i) s.srv s.now h → next O s l = some s' → Owns (O.cfg i) s'.srv s'.now h

theorem reach_of_tallied {x : State (dbRedis n) ι π ω × (ι → List ℤ)}
    (h : (tallied O n ω).Reach (fun x l => Fresh O x.1 l) x) : (system O (dbRedis n) ω).Reach (Fresh O) x.1 := by
  unfold tallied at h
  exact h.fst fun _ _ hok => hok

/-! ## The hosts counted are distinct -/

/-- The hosts counted are positions passed of the shuffled list, and distinct; those listed more than once hold
the object's entry. -/
structure Distinct (O : Objects ι π) (s : State (dbRedis n) ι π ω) (i : ι) (p : Pass) (xs : List ℤ) : Prop where
  sublist : xs.Sublist (p.tempVec.take p.lockIndex)
  perm : p.tempVec.Perm (O.cfg i).hosts
  nodup : xs.Nodup
  owns : ∀ h ∈ xs, 1 < (O.cfg i).hosts.count h → Owns (O.cfg i) s.srv s.now h

theorem distinct_passAssertion (O : Objects ι π) (s : State (dbRedis n) ι π ω) (i : ι) :
    PassAssertion (Distinct O s i) where
  next := by
    intro p xs h
    refine ⟨h.sublist.trans ?_, h.perm, h.nodup, h.owns⟩
    exact List.take_sublist_take_left (Nat.le_succ _)
  owns _ h := ⟨h.sublist, h.perm, h.nodup, h.owns⟩

theorem Distinct.majority {i : ι} {p : Pass} {xs : List ℤ} (h : Distinct O s i p xs)
    (hq : quorum (O.cfg i).hosts.length ≤ xs.length) : Majority (O.cfg i).hosts xs :=
  ⟨h.nodup, fun _ hx => h.perm.subset ((h.sublist.trans (List.take_sublist _ _)).subset hx), hq⟩

/-- A host at the position of the loop that has been counted before is listed more than once. -/
theorem Distinct.count_host {i : ι} {p : Pass} {xs : List ℤ} (h : Distinct O s i p xs)
    (hlt : p.lockIndex < p.tempVec.length) (hmem : p.host ∈ xs) : 1 < (O.cfg i).hosts.count p.host := by
  have htake : (p.tempVec.take p.lockIndex ++ [p.host]).Sublist p.tempVec := by
    rw [← Pass.take_next hlt]
    exact List.take_sublist _ _
  calc 1 < ((p.tempVec.take p.lockIndex).count p.host) + 1 := by
        have := List.count_pos_iff.mpr (h.sublist.subset hmem)
        omega
    _ = (p.tempVec.take p.lockIndex ++ [p.host]).count p.host := by simp
    _ ≤ p.tempVec.count p.host := htake.count_le _
    _ = (O.cfg i).hosts.count p.host := h.perm.count_eq _

theorem distinct_set (hconn : ConnInv DBRedisPc.Inside O s) {j : ι} {fault : Fault}
    (hok : Fresh O s (.act (.caller j) (.db fault) : Label ι ω))
    (hs : next O s (.act (.caller j) (.db fault)) = some s') :
    CallersOk.Sets O (Distinct O) s s' j fault := by
  intro fr c p hfr hpc hr hnow hsrv hold hperm hlt
  have hsel : s.conn j = p.host := hconn.selected (.caller j) fr p.host hfr (by rw [hpc]; rfl)
  have hin := hconn.inside_getD (θ := .caller j) (dbRedis_lawful n) hfr (by rw [hpc]; rfl)
  have hq : fr.db.getD ((dbRedis n).start (.setKeyValue (O.cfg j).key (O.cfg j).value (O.cfg j).lockValidityTime)) =
      .set (O.cfg j).key (O.cfg j).value (O.cfg j).lockValidityTime := hin
  simp only [setStep, dbStep, hq, hsel] at hr hsrv
  obtain ⟨hpos, hnone, hstore⟩ := step_set_succeed hr
  refine ⟨?_, hperm, ?_, fun x hx hcount => ?_⟩
  · simp only [Pass.next, Pass.take_next hlt]
    exact hold.sublist.append (List.Sublist.refl _)
  · rw [← List.concat_eq_append]
    refine hold.nodup.concat fun hmem => ?_
    -- listed more than once, the host still holds the entry set before
    obtain ⟨e, he, -⟩ := hold.owns _ hmem (hold.count_host hlt hmem)
    rw [hnone] at he
    cases he
  · rcases List.mem_append.mp hx with hx | hx
    · refine hok.kept j (s.fields j).haveLockNum x s' ⟨fr, hfr, by rw [hpc]; rfl, List.prefix_append _ _⟩ hx hcount
        (hold.owns x hx hcount) hs
    · rw [List.mem_singleton.mp hx, hnow, hsrv, hstore]
      exact Store.Holds.put ⟨_, _⟩ (by simp only; omega)

theorem distinct_of_reach (h : (system O (dbRedis n) ω).Reach (Fresh O) s) : CallersOk O (Distinct O) s := by
  refine h.invariant (I := CallersOk O (Distinct O)) (fun t h₀ => .init h₀) fun t l t' hr hi hok hn => ?_
  have hkind := KindInv.of_reach hr
  have hconn := ConnInv.of_reach (dbRedis_lawful n) hr
  refine hi.step hkind hn (distinct_passAssertion O t') ?_ ?_ ?_ hok.cleared
  · intro j p xs hcnt hxs
    exact ⟨hxs.sublist, hxs.perm, hxs.nodup, fun x hx hc => hok.kept j xs x t' hcnt hx hc (hxs.owns x hx hc) hn⟩
  · rintro i t₁ v rfl hv
    exact ⟨List.nil_sublist _, hv, List.nodup_nil, by simp⟩
  · rintro i fault rfl
    exact distinct_set hconn hok hn

/-! ## The hosts counted are the databases won -/

theorem wonInv_of_reach {x : State (dbRedis n) ι π ω × (ι → List ℤ)}
    (h : (tallied O n ω).Reach (fun x l => Fresh O x.1 l) x) : WonInv x.1 x.2 := by
  refine h.invariant (I := fun x => WonInv x.1 x.2) (fun y h₀ i fr h1 => by simp [h₀.1.thr] at h1) ?_
  intro y l y' hr hi hok hn
  obtain ⟨hn, hw⟩ := Machine.withHistory_next.mp hn
  have hr' := reach_of_tallied hr
  rw [hw]
  exact hi.step (.of_reach hr') (.of_reach (dbRedis_lawful n) hr') (distinct_of_reach hr') hn

/-! ## The two results -/

/-- `try_lock()` and one attempt of `try_lock(expire)` make the same runs, if `have_lock_num_` is empty. -/
theorem tryLock_attempt {i : ι} (hthr : s.thr (.caller i) = none) (hempty : (s.fields i).haveLockNum = [])
    (expire t : ℤ) : ∃ s₂, (system O (dbRedis n) ω).runWith (fun _ _ => true) s
        [.call i (.tryLockFor expire), .act (.caller i) (.clock t), .act (.caller i) .none] = some s₂ ∧
      ∀ ls, attempt O (dbRedis n) ω i s₂ ls = (attempt O (dbRedis n) ω i (s.enter i .tryLock) ls).map
        (State.onBehalf i (.tryLockFor expire (u64 t))) := by
  refine ⟨(s.enter i .tryLock).onBehalf i (.tryLockFor expire (u64 t)), ?_, fun ls => attempt_onBehalf _ _ _ _⟩
  -- emptying `have_lock_num_` changes nothing
  have hf : Function.update s.fields i { s.fields i with haveLockNum := [] } = s.fields := by
    rw [← hempty]
    exact Function.update_eq_self _ _
  simp [Machine.runWith, system, next, act, hthr, Call.entry, code, Thread.obj, State.enter, State.goto,
    State.setFields, State.onBehalf, Frame.onBehalf, Pc.onBehalf, hf]

/-- **No success from a stale quorum.**  When every `try_lock()` finds `have_lock_num_` empty, a call that returns
success has won a majority of the databases in its last pass; and `try_lock()` does what one attempt of
`try_lock(expire)` does. -/
theorem no_success_from_stale_quorum (h : (tallied O n ω).Reach (fun x l => Fresh O x.1 l) (s, won)) :
    (∀ i fr, s.thr (.caller i) = some fr → fr.pc = .done true → Majority (O.cfg i).hosts (won i)) ∧
    ∀ i expire t, s.thr (.caller i) = none → Fresh O s (.call i .tryLock : Label ι ω) →
      ∃ s₂, (system O (dbRedis n) ω).runWith (fun _ _ => true) s
          [.call i (.tryLockFor expire), .act (.caller i) (.clock t), .act (.caller i) .none] = some s₂ ∧
        ∀ ls, attempt O (dbRedis n) ω i s₂ ls = (attempt O (dbRedis n) ω i (s.enter i .tryLock) ls).map
          (State.onBehalf i (.tryLockFor expire (u64 t))) := by
  refine ⟨fun i fr hfr hpc => ?_, fun i expire t hthr hok => tryLock_attempt hthr (hok.cleared i rfl) expire t⟩
  have hwon := wonInv_of_reach h i fr hfr (by rw [hpc]; rfl)
  have hdist := distinct_of_reach (reach_of_tallied h) i fr hfr
  rw [hpc] at hwon hdist
  obtain ⟨p, hd, hq⟩ := hdist
  simp only [Pc.pending, List.append_nil] at hwon
  rw [hwon]
  exact hd.majority hq

/-- The caller of the first of two objects is about to return success. -/
def succeeding (s : State (dbRedis n) Bool Unit Unit) : Bool :=
  match s.thr (.caller false) with
  | some ⟨.done true, _⟩ => true
  | _ => false

theorem succeeding_iff {s : State (dbRedis n) Bool Unit Unit} (h : succeeding s = true) :
    ∃ fr, s.thr (.caller false) = some fr ∧ fr.pc = .done true := by
  unfold succeeding at h
  split at h
  · exact ⟨_, by assumption, rfl⟩
  · cases h

/-- The step is no call of `try_lock()`. -/
def Label.notTryLock : Label ι ω → Bool
  | .call _ .tryLock => false
  | _ => true

/-- A `lock()` on two hosts wins both. -/
theorem no_success_from_stale_quorum_two : ∃ x : State (dbRedis 16) Bool Unit Unit × (Bool → List ℤ),
    (tallied (twoObjects [0, 1]) 16 Unit).Reach (fun x l => Fresh (twoObjects [0, 1]) x.1 l) x ∧
      succeeding x.1 = true ∧ Majority [0, 1] (x.2 false) := by
  have hcount : ∀ h : ℤ, ¬ 1 < ([0, 1] : List ℤ).count h := by
    intro h
    have := List.nodup_iff_count_le_one.mp (by decide : ([0, 1] : List ℤ).Nodup) h
    omega
  have hok : ∀ (x : State (dbRedis 16) Bool Unit Unit × (Bool → List ℤ)) (l : Label Bool Unit),
      l.notTryLock = true → Fresh (twoObjects [0, 1]) x.1 l := by
    intro x l hl
    refine ⟨?_, fun i xs h s' _ _ hc => absurd hc (hcount h)⟩
    rintro i rfl
    cases hl
  obtain ⟨⟨s, won⟩, hr, hs⟩ := Machine.exists_reach (tallied (twoObjects [0, 1]) 16 Unit)
    (lockPass false [1, 0] 0 ++ (accept false 0).dropLast) (fun x => succeeding x.1) hok
    (s := (State.blank, fun _ => [])) ⟨State.blank_initial, rfl⟩ (by decide)
  obtain ⟨fr, hfr, hpc⟩ := succeeding_iff hs
  exact ⟨(s, won), hr, hs, (no_success_from_stale_quorum hr).1 false fr hfr hpc⟩

/-- `lock()`, `unlock()`, then `try_lock()` while the other object holds the lock: success, and not one database
won. -/
theorem stale_success : ¬ ∀ x : State (dbRedis 16) Bool Unit Unit × (Bool → List ℤ),
    (tallied (twoObjects [0]) 16 Unit).Reach (fun _ _ => True) x →
      ∀ i fr, x.1.thr (.caller i) = some fr → fr.pc = .done true → Majority [0] (x.2 i) := by
  intro hall
  obtain ⟨⟨s, won⟩, hr, hs⟩ := (tallied (twoObjects [0]) 16 Unit).exists_reach_of_decidable (fun _ _ => True)
    [lockPass false [0] 0, accept false 0, unlockAll false [0], lockPass true [0] 0, accept true 0,
      .call false .tryLock :: (passInputs [0] 0).map (.act (.caller false)), (accept false 0).dropLast].flatten
    (fun x => succeeding x.1 && x.1.held true && (x.2 false).isEmpty)
    (s := (State.blank, fun _ => [])) ⟨State.blank_initial, rfl⟩ (by decide)
  simp only [Bool.and_eq_true, List.isEmpty_iff] at hs
  obtain ⟨⟨hsucc, -⟩, hwon⟩ := hs
  obtain ⟨fr, hfr, hpc⟩ := succeeding_iff hsucc
  have hmaj := hall (s, won) hr false fr hfr hpc
  exact absurd hmaj.length (by simp only [hwon]; decide)

end DistributedLock.Cluster
