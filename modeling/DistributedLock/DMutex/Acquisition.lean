import DistributedLock.DMutex.Discipline
import DistributedLock.Lib.Walk

/-!
# The acquisition loop

The loop of `MainLockFunction`, by a thread alone whose `SelectDB` calls succeed.  `Tour` records its calls of
`SetKeyValue`; a call is repeated at the same host exactly if its result is neither success nor `kKeyExist` and the
reading of the clock after it lies in the `time_out_limit_` from the start (`Visit.again`).

The visits are a walk over the shuffled hosts, and every repetition uses up a reading in that interval.  So the loop
ends if there are finitely many such readings, after as many more calls as there are (`acquisition_exact`).
-/

namespace DistributedLock.DMutex

open Lib Redis

/-! ## The calls of `SetKeyValue` -/

/-- A call of `SetKeyValue` in the loop: the position in the shuffled list, the host selected, the result, and the
reading that the clock gives next. -/
structure Visit where
  position : ℕ
  host : ℤ
  res : DBResult
  reading : ℤ

/-- A thread alone, with the argument of its last call of `SelectDB` and the calls of `SetKeyValue` it has made. -/
structure Tour where
  solo : Solo
  selected : ℤ := 0
  visits : List Visit := []

/-- The argument of the last `SelectDB` after the instruction. -/
def Tour.select (cfg : Cfg) (y : Tour) : ℤ :=
  match code cfg y.solo.fields y.solo.pc with
  | .call (.selectDB index) _ => index
  | _ => y.selected

def Tour.record (cfg : Cfg) (o : Oracle) (y : Tour) : List Visit :=
  match y.solo.pc with
  | .mainSet _ p =>
    y.visits ++ [⟨p.lockIndex, y.selected, o.res (.setKeyValue cfg.key cfg.value cfg.lockValidityTime) y.solo.calls,
      o.clk y.solo.clks⟩]
  | _ => y.visits

def Tour.next (cfg : Cfg) (o : Oracle) (y : Tour) : Option Tour :=
  (y.solo.next cfg o).map fun s => ⟨s, y.select cfg, y.record cfg o⟩

/-- The reading is in the interval of `time_out_limit_` from the start, with the arithmetic of `uint64_t`. -/
def Oracle.InWindow (o : Oracle) (t : ℤ) : Prop := u64 (t - u64 (o.clk 0)) < u64 timeOutLimit

instance (o : Oracle) : DecidablePred o.InWindow := fun _ => inferInstanceAs (Decidable (_ < _))

/-- How many of the first `m` readings after the start are in it. -/
def Oracle.windowed (o : Oracle) (m : ℕ) : ℕ := (List.range m).countP fun k => o.InWindow (o.clk (k + 1))

def Visit.again (o : Oracle) (v : Visit) : Bool :=
  v.res ≠ .kSetKeySucceed ∧ v.res ≠ .kKeyExist ∧ o.InWindow v.reading

def Visit.succeeded (v : Visit) : Bool := v.res = .kSetKeySucceed

variable {cfg : Cfg} {o : Oracle} {f f₀ : Fields} {c : Caller} {y y' : Tour} {i m : ℕ}

theorem Tour.runs_solo (h : Runs (Tour.next cfg o) y y') : Solo.Runs cfg o y.solo y'.solo := by
  induction h with
  | refl => exact .refl
  | tail _ hn ih =>
    obtain ⟨s, hs, rfl⟩ := Option.map_eq_some_iff.mp hn
    exact ih.tail hs

theorem Oracle.windowed_succ : o.windowed (m + 1) = o.windowed m + if o.InWindow (o.clk (m + 1)) then 1 else 0 := by
  unfold Oracle.windowed
  rw [List.range_succ, List.countP_append, List.countP_singleton]
  simp

theorem again_of_succeeded {v : Visit} (h : v.succeeded = true) : v.again o = false := by
  have hres : v.res = .kSetKeySucceed := of_decide_eq_true h
  simp [Visit.again, hres]

/-! ## An iteration -/

/-- The local variables of `MainLockFunction` at the position `i`. -/
def Oracle.pass (o : Oracle) (i : ℕ) : Pass := ⟨u64 (o.clk 0), o.shuffle, i, false⟩

theorem tour_set (cfg : Cfg) (hsel : ∀ host k, o.res (.selectDB host) k = .kSelectDBSucceed)
    (hi : i < o.shuffle.length) (hpc : y.solo.pc = .mainTest c (o.pass i)) (howns : y.solo.owns = false) :
    ∃ r, Runs (Tour.next cfg o) y ⟨⟨y.solo.fields, .mainResult c (o.pass i) r, y.solo.calls + 2, y.solo.clks, false⟩,
      (o.pass i).host, y.visits ++ [⟨i, (o.pass i).host, r, o.clk y.solo.clks⟩]⟩ := by
  obtain ⟨⟨f, pc, calls, clks, owns⟩, sel, visits⟩ := y
  obtain rfl : pc = .mainTest c (o.pass i) := hpc
  obtain rfl : owns = false := howns
  have htest : Tour.next cfg o ⟨⟨f, .mainTest c (o.pass i), calls, clks, false⟩, sel, visits⟩ =
      some ⟨⟨f, .mainLock c (o.pass i), calls, clks, false⟩, sel, visits⟩ := by
    simp [Tour.next, Tour.record, Tour.select, Solo.next, Pc.ended, code, mainTest, Solo.exec, Oracle.pass, hi]
  have hselect : Tour.next cfg o ⟨⟨f, .mainSelect c (o.pass i), calls, clks, true⟩, sel, visits⟩ =
      some ⟨⟨f, .mainSet c (o.pass i), calls + 1, clks, true⟩, (o.pass i).host, visits⟩ := by
    simp [Tour.next, Tour.record, Tour.select, Solo.next, Pc.ended, code, Solo.exec, hsel]
  exact ⟨_, .step htest (.step rfl (.step hselect (.step rfl (.one rfl))))⟩

theorem tour_succeed (cfg : Cfg) (hpc : y.solo.pc = .mainResult c (o.pass i) .kSetKeySucceed) :
    Tour.next cfg o y = some ⟨⟨{ y.solo.fields with haveLockNum := y.solo.fields.haveLockNum ++ [(o.pass i).host] },
      .mainTest c (o.pass (i + 1)), y.solo.calls, y.solo.clks, y.solo.owns⟩, y.selected, y.visits⟩ := by
  obtain ⟨⟨f, pc, calls, clks, owns⟩, sel, visits⟩ := y
  obtain rfl : pc = .mainResult c (o.pass i) .kSetKeySucceed := hpc
  rfl

theorem tour_exist (cfg : Cfg) (hpc : y.solo.pc = .mainResult c (o.pass i) .kKeyExist) :
    Tour.next cfg o y =
      some ⟨⟨y.solo.fields, .mainTest c (o.pass (i + 1)), y.solo.calls, y.solo.clks, y.solo.owns⟩,
        y.selected, y.visits⟩ := by
  obtain ⟨⟨f, pc, calls, clks, owns⟩, sel, visits⟩ := y
  obtain rfl : pc = .mainResult c (o.pass i) .kKeyExist := hpc
  rfl

/-- A result that is neither success nor `kKeyExist` is followed by a reading of the clock. -/
theorem tour_timeout (cfg : Cfg) {r : DBResult} (hsucceed : r ≠ .kSetKeySucceed) (hexist : r ≠ .kKeyExist)
    (hpc : y.solo.pc = .mainResult c (o.pass i) r) :
    Runs (Tour.next cfg o) y ⟨⟨y.solo.fields,
      .mainTest c (o.pass (if o.InWindow (o.clk y.solo.clks) then i else i + 1)), y.solo.calls, y.solo.clks + 1,
      y.solo.owns⟩, y.selected, y.visits⟩ := by
  obtain ⟨⟨f, pc, calls, clks, owns⟩, sel, visits⟩ := y
  obtain rfl : pc = .mainResult c (o.pass i) r := hpc
  have hresult : Tour.next cfg o ⟨⟨f, .mainResult c (o.pass i) r, calls, clks, owns⟩, sel, visits⟩ =
      some ⟨⟨f, .mainTimeout c (o.pass i), calls, clks, owns⟩, sel, visits⟩ := by
    cases r <;> first | rfl | exact absurd rfl hsucceed | exact absurd rfl hexist
  have htimeout : Tour.next cfg o ⟨⟨f, .mainTimeout c (o.pass i), calls, clks, owns⟩, sel, visits⟩ =
      some ⟨⟨f, .mainTest c (o.pass (if o.InWindow (o.clk clks) then i else i + 1)), calls, clks + 1, owns⟩,
        sel, visits⟩ := by
    by_cases hw : o.InWindow (o.clk clks)
    · have hlt : u64 (o.clk clks - u64 (o.clk 0)) < u64 timeOutLimit := hw
      simp [Tour.next, Tour.record, Tour.select, Solo.next, Pc.ended, code, Solo.exec, Oracle.pass, hw, hlt]
    · have hge : u64 timeOutLimit ≤ u64 (o.clk clks - u64 (o.clk 0)) := not_lt.mp hw
      simp [Tour.next, Tour.record, Tour.select, Solo.next, Pc.ended, code, Solo.exec, Oracle.pass, Pass.next, hw, hge]
  exact .step hresult (.one htimeout)

/-- The loop at the position `i`, after the calls `l`. -/
structure Touring (o : Oracle) (f₀ : Fields) (c : Caller) (i : ℕ) (l : List Visit) (y : Tour) : Prop where
  pc : y.solo.pc = .mainTest c (o.pass i)
  owns : y.solo.owns = false
  visits : y.visits = l
  hosts : ∀ v ∈ l, o.shuffle[v.position]? = some v.host
  counted : y.solo.fields.haveLockNum = f₀.haveLockNum ++ (l.filter Visit.succeeded).map Visit.host
  readings : ∃ m, y.solo.clks = m + 1 ∧ l.countP (Visit.again o) = o.windowed m

namespace Touring

theorem snoc {l : List Visit} {v : Visit} (h : Touring o f₀ c i l y) (hhost : o.shuffle[v.position]? = some v.host)
    (hpc : y'.solo.pc = .mainTest c (o.pass (if v.again o then v.position else v.position + 1)))
    (howns : y'.solo.owns = false) (hvisits : y'.visits = l ++ [v])
    (hf : y'.solo.fields.haveLockNum = y.solo.fields.haveLockNum ++ if v.succeeded then [v.host] else [])
    (hclks : y'.solo.clks = y.solo.clks ∧ v.again o = false ∨
      y'.solo.clks = y.solo.clks + 1 ∧ v.again o = decide (o.InWindow (o.clk y.solo.clks))) :
    Touring o f₀ c (if v.again o then v.position else v.position + 1) (l ++ [v]) y' := by
  obtain ⟨m, hm, hagain⟩ := h.readings
  refine ⟨hpc, howns, hvisits, fun w hw => ?_, ?_, ?_⟩
  · rcases List.mem_append.mp hw with hw | hw
    · exact h.hosts w hw
    · obtain rfl := List.mem_singleton.mp hw
      exact hhost
  · rw [hf, h.counted, List.filter_append, List.map_append, List.append_assoc]
    cases hv : v.succeeded <;> simp [hv]
  · rcases hclks with ⟨hclks, hv⟩ | ⟨hclks, hv⟩
    · refine ⟨m, hclks.trans hm, ?_⟩
      simp [List.countP_append, hv, hagain]
    · refine ⟨m + 1, by rw [hclks, hm], ?_⟩
      rw [hm] at hv
      simp [List.countP_append, List.countP_singleton, Oracle.windowed_succ, hv, hagain]

theorem iterate {l : List Visit} (cfg : Cfg) (hsel : ∀ host k, o.res (.selectDB host) k = .kSelectDBSucceed)
    (hi : i < o.shuffle.length) (h : Touring o f₀ c i l y) :
    ∃ v y', Runs (Tour.next cfg o) y y' ∧ v.position = i ∧
      Touring o f₀ c (if v.again o then i else i + 1) (l ++ [v]) y' := by
  obtain ⟨r, hset⟩ := tour_set cfg hsel hi h.pc h.owns
  rw [h.visits] at hset
  have hhost : o.shuffle[i]? = some (o.pass i).host := by
    simp [Oracle.pass, Pass.host, hi]
  refine ⟨⟨i, (o.pass i).host, r, o.clk y.solo.clks⟩, ?_⟩
  by_cases hsucceed : r = .kSetKeySucceed
  · subst hsucceed
    exact ⟨_, hset.trans (.one (tour_succeed cfg rfl)), rfl, h.snoc hhost rfl rfl rfl rfl (.inl ⟨rfl, rfl⟩)⟩
  by_cases hexist : r = .kKeyExist
  · subst hexist
    refine ⟨_, hset.trans (.one (tour_exist cfg rfl)), rfl, h.snoc hhost rfl rfl rfl ?_ (.inl ⟨rfl, rfl⟩)⟩
    simp [Visit.succeeded]
  · have hagain : Visit.again o ⟨i, (o.pass i).host, r, o.clk y.solo.clks⟩ =
        decide (o.InWindow (o.clk y.solo.clks)) := by
      simp [Visit.again, hsucceed, hexist]
    refine ⟨_, hset.trans (tour_timeout cfg hsucceed hexist rfl), rfl, h.snoc hhost ?_ rfl rfl ?_ (.inr ⟨rfl, hagain⟩)⟩
    · simp [hagain]
    · simp [Visit.succeeded, hsucceed]

end Touring

/-! ## The loop -/

/-- What the loop has done when it is at its end, if at most `K` readings allowed a repetition. -/
structure Acquires (cfg : Cfg) (o : Oracle) (f₀ : Fields) (K : ℕ) (y : Tour) : Prop where
  calls : y.visits.length ≤ cfg.hosts.length + K
  hosts : ∀ v ∈ y.visits, o.shuffle[v.position]? = some v.host
  visited : ∀ i < cfg.hosts.length, ∃ v ∈ y.visits, v.position = i
  ordered : y.visits.Pairwise fun v w => v.position ≤ w.position
  retried : y.visits.Pairwise fun v w => v.position = w.position →
    v.res ≠ .kSetKeySucceed ∧ v.res ≠ .kKeyExist ∧ o.InWindow v.reading
  counted : y.solo.fields.haveLockNum = f₀.haveLockNum ++
    ((List.range cfg.hosts.length).filter fun i => (lastAt Visit.position y.visits i).any Visit.succeeded).map
      fun i => o.shuffle.getD i 0

theorem haveLockNum_of_walk {n : ℕ} {l : List Visit} (hw : Walk Visit.position (Visit.again o) n l)
    (hhosts : ∀ v ∈ l, o.shuffle[v.position]? = some v.host) :
    (l.filter Visit.succeeded).map Visit.host =
      ((List.range n).filter fun i => (lastAt Visit.position l i).any Visit.succeeded).map
        fun i => o.shuffle.getD i 0 := by
  rw [← hw.map_filter fun v => again_of_succeeded, List.map_map]
  refine List.map_congr_left fun v hv => ?_
  simp [hhosts v (List.mem_of_mem_filter hv)]

/-- **The acquisition loop ends, visits every host and counts exactly**, whatever `SetKeyValue` answers and the clock
reads, if all `SelectDB` succeed and at most `K` readings lie in the `time_out_limit_` from the start. -/
theorem acquisition_exact {K : ℕ} (hsel : ∀ host k, o.res (.selectDB host) k = .kSelectDBSucceed)
    (hperm : o.shuffle.Perm cfg.hosts) (hK : ∀ m, o.windowed m ≤ K) (f₀ : Fields) (c : Caller) :
    ∃ y p, Runs (Tour.next cfg o) { solo := .main f₀ c } y ∧ y.solo.pc = .mainQuorum c p ∧ Acquires cfg o f₀ K y := by
  have hn : o.shuffle.length = cfg.hosts.length := hperm.length_eq
  have hinit : Runs (Tour.next cfg o) { solo := .main f₀ c } ⟨⟨f₀, .mainTest c (o.pass 0), 0, 1, false⟩, 0, []⟩ :=
    .step rfl (.one rfl)
  have hstart : Touring o f₀ c 0 [] ⟨⟨f₀, .mainTest c (o.pass 0), 0, 1, false⟩, 0, []⟩ :=
    ⟨rfl, rfl, rfl, by simp, by simp, 0, rfl, rfl⟩
  have hbudget : ∀ i l y, Touring o f₀ c i l y → l.countP (Visit.again o) ≤ K := by
    intro i l y h
    obtain ⟨m, -, hagain⟩ := h.readings
    rw [hagain]
    exact hK m
  obtain ⟨l, y, hloop, hw, hend⟩ := Walk.exists_runs (fun i l y hi h => h.iterate cfg hsel hi) hbudget hstart
  have hquorum : Tour.next cfg o y =
      some ⟨⟨y.solo.fields, .mainQuorum c (o.pass o.shuffle.length), y.solo.calls, y.solo.clks, y.solo.owns⟩,
        y.selected, y.visits⟩ := by
    obtain ⟨⟨f, pc, calls, clks, owns⟩, sel, visits⟩ := y
    obtain rfl : pc = .mainTest c (o.pass o.shuffle.length) := hend.pc
    simp [Tour.next, Tour.record, Tour.select, Solo.next, Pc.ended, code, mainTest, Solo.exec, Oracle.pass]
  refine ⟨_, _, (hinit.trans hloop).trans (.one hquorum), rfl, ?_⟩
  obtain rfl := hend.visits
  rw [hn] at hw
  refine ⟨?_, hend.hosts, fun i hi => hw.visited hi, ?_, ?_, ?_⟩
  · rw [hw.length_eq]
    exact Nat.add_le_add_left (hbudget _ _ _ hend) _
  · exact hw.ordered.imp And.left
  · refine hw.ordered.imp fun hvw heq => ?_
    simpa [Visit.again] using hvw.2 heq
  · rw [hend.counted, haveLockNum_of_walk hw hend.hosts]

/-- Two hosts; the first one does not answer in time once, and the second one is taken. -/
def Oracle.oneRetry : Oracle where
  shuffle := [1, 0]
  res op k :=
    match op with
    | .selectDB _ => .kSelectDBSucceed
    | _ => if k = 1 then .kSetKeyFailed else if k = 3 then .kSetKeySucceed else .kKeyExist
  clk k := if k ≤ 1 then 10 * k else 60

theorem Oracle.oneRetry_windowed (m : ℕ) : Oracle.oneRetry.windowed m ≤ 1 := by
  cases m with
  | zero => decide
  | succ m =>
    have hone : Oracle.oneRetry.windowed (m + 1) = 1 := by
      induction m with
      | zero => decide
      | succ m ih =>
        have hclk : Oracle.oneRetry.clk (m + 1 + 1) = 60 := by simp [Oracle.oneRetry]
        have hout : ¬ Oracle.oneRetry.InWindow 60 := by decide
        rw [Oracle.windowed_succ, ih, hclk, if_neg hout]
    exact hone.le

theorem acquisition_exact_two : ∃ y p,
    Runs (Tour.next ⟨[0, 1], "k", "1", 30000, 20000⟩ .oneRetry) { solo := .main {} .lock } y ∧
      y.solo.pc = .mainQuorum .lock p ∧ Acquires ⟨[0, 1], "k", "1", 30000, 20000⟩ .oneRetry {} 1 y :=
  acquisition_exact (fun _ _ => rfl) (by decide) Oracle.oneRetry_windowed {} .lock

end DistributedLock.DMutex
