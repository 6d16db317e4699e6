import DistributedLock.Sequential.Acquire

/-!
# The outcome of an attempt, and its undo

An undisturbed attempt on an object that holds nothing, with every index of `hosts_` that of a database and a lifetime
that Redis accepts.

* `unlock_undisturbed`: `UnlockAll` deletes the entries of the object in `hosts_`, counts them, and changes nothing else;
* `attempt_exact`: the attempt succeeds exactly if enough databases are free, whatever the shuffle, and what it leaves
  is determined: a success takes the free databases, and `UnlockAll` gives them back; a failure changes nothing.

The lifetime of the entries goes through a 32-bit `int`, so it is `lock_validity_time_` only if that fits.
-/

set_option linter.unusedSectionVars false

namespace DistributedLock.Sequential

open Lib Redis DMutex

variable {cfg : Cfg} {databases : ℕ} {E : Env} {s s' : State} {v₀ : Store}

/-! ## `UnlockAll` -/

/-- The database `d` shows an entry of the object. -/
def Own (cfg : Cfg) (v : Store) (d : ℤ) : Prop := ∃ e, v d cfg.key = some e ∧ e.value = cfg.value

/-- What is left when the entries of the object in `rest` are gone. -/
def Cleared (cfg : Cfg) (rest : List ℤ) (v v' : Store) : Prop :=
  ∀ d k, (d ∈ rest ∧ k = cfg.key ∧ Own cfg v d → v' d k = none) ∧
    (¬ (d ∈ rest ∧ k = cfg.key ∧ Own cfg v d) → v' d k = v d k)

instance (cfg : Cfg) (v : Store) (d : ℤ) : Decidable (Own cfg v d) :=
  decidable_of_iff ((v d cfg.key).any fun e => decide (e.value = cfg.value)) (by simp [Own, Option.any_eq_true])

/-- The number of the databases of `rest` that show an entry of the object. -/
def ownCount (cfg : Cfg) (rest : List ℤ) (v : Store) : ℕ :=
  (rest.toFinset.filter fun d => Own cfg v d).card

theorem own_put {v : Store} {host d : ℤ} : Own cfg (v.put host cfg.key none) d ↔ d ≠ host ∧ Own cfg v d := by
  unfold Own Store.put
  by_cases h : d = host
  · simp [h]
  · simp [h]

theorem ownCount_own {host : ℤ} {rest : List ℤ} {v : Store} (h : Own cfg v host) :
    ownCount cfg (host :: rest) v = ownCount cfg rest (v.put host cfg.key none) + 1 := by
  have hins : (host :: rest).toFinset.filter (fun d => Own cfg v d) =
      insert host (rest.toFinset.filter fun d => Own cfg (v.put host cfg.key none) d) := by
    ext d
    simp only [Finset.mem_filter, Finset.mem_insert, List.mem_toFinset, List.mem_cons, own_put]
    by_cases hd : d = host
    · simp [hd, h]
    · simp [hd]
  have hnot : host ∉ rest.toFinset.filter fun d => Own cfg (v.put host cfg.key none) d := by
    simp [own_put]
  rw [ownCount, hins, Finset.card_insert_of_notMem hnot]
  rfl

theorem ownCount_other {host : ℤ} {rest : List ℤ} {v : Store} (h : ¬ Own cfg v host) :
    ownCount cfg (host :: rest) v = ownCount cfg rest v := by
  unfold ownCount
  congr 1
  ext d
  simp only [Finset.mem_filter, List.mem_toFinset, List.mem_cons]
  constructor
  · rintro ⟨rfl | hd, hown⟩
    · exact absurd hown h
    · exact ⟨hd, hown⟩
  · rintro ⟨hd, hown⟩
    exact ⟨.inr hd, hown⟩

theorem Cleared.own {host : ℤ} {rest : List ℤ} {v v' : Store} (h : Own cfg v host)
    (hc : Cleared cfg rest (v.put host cfg.key none) v') : Cleared cfg (host :: rest) v v' := by
  intro d k
  obtain ⟨hgone, hkept⟩ := hc d k
  simp only [own_put, List.mem_cons] at hgone hkept ⊢
  by_cases hd : d = host ∧ k = cfg.key
  · obtain ⟨rfl, rfl⟩ := hd
    have hnone : v' d cfg.key = none := by
      rw [hkept (by simp)]
      simp [Store.put]
    exact ⟨fun _ => hnone, fun hnot => absurd ⟨.inl rfl, rfl, h⟩ hnot⟩
  · have hput : (v.put host cfg.key none) d k = v d k := by
      rw [Store.put, if_neg hd]
    rw [hput] at hkept
    constructor
    · rintro ⟨rfl | hmem, rfl, hown⟩
      · exact absurd ⟨rfl, rfl⟩ hd
      · exact hgone ⟨hmem, rfl, fun hh => hd ⟨hh, rfl⟩, hown⟩
    · intro hnot
      exact hkept fun hh => hnot ⟨.inr hh.1, hh.2.1, hh.2.2.2⟩

theorem Cleared.other {host : ℤ} {rest : List ℤ} {v v' : Store} (h : ¬ Own cfg v host)
    (hc : Cleared cfg rest v v') : Cleared cfg (host :: rest) v v' := by
  intro d k
  obtain ⟨hgone, hkept⟩ := hc d k
  constructor
  · rintro ⟨hd, hk, hown⟩
    rcases List.mem_cons.mp hd with rfl | hd
    · exact absurd hown h
    · exact hgone ⟨hd, hk, hown⟩
  · intro hnot
    exact hkept fun hh => hnot ⟨List.mem_cons_of_mem _ hh.1, hh.2⟩

theorem unlock_rest {c : Option Caller} {rest : List ℤ} {m : ℕ} (hu : Undisturbed cfg databases E s)
    (hpc : s.pc = .unlockSelect c rest m) (hdb : s.db = none) (hvalid : ∀ host ∈ rest, Valid databases host) :
    ∃ s', Runs (State.step cfg databases E) s s' ∧
      s'.pc = afterUnlockAll (m + ownCount cfg rest s.view = s.fields.haveLockNum.length) c ∧
      Cleared cfg rest s.view s'.view := by
  induction rest generalizing s m with
  | nil =>
    refine ⟨_, .one (unlock_leaves hpc), ?_, ?_⟩
    · simp [ownCount]
    · intro d k
      exact ⟨fun hh => absurd hh.1 List.not_mem_nil, fun _ => rfl⟩
  | cons host rest ih =>
    obtain ⟨s₁, hdel, hsel⟩ := unlock_selects cfg E hpc hdb (hvalid host List.mem_cons_self)
    have hu₁ := hu.of_runs hsel.runs
    have hview₁ := hsel.view hu
    have hvalid' : ∀ h ∈ rest, Valid databases h := fun h hmem => hvalid h (List.mem_cons_of_mem _ hmem)
    by_cases hown : Own cfg s.view host
    · obtain ⟨e, he, hv⟩ := hown
      have he₁ : s₁.view s₁.conn cfg.key = some e := by rw [hview₁, hsel.conn, he]
      obtain ⟨s₂, hpc₂, hret⟩ := del_own hu₁ hdel hsel.db he₁ hv
      obtain ⟨s', hs', hpc', hcl⟩ := ih (hu₁.of_runs hret.runs) hpc₂ hret.db hvalid'
      rw [hret.view, hview₁, hsel.conn] at hpc' hcl
      refine ⟨s', hsel.runs.trans (hret.runs.trans hs'), ?_, hcl.own ⟨e, he, hv⟩⟩
      rw [hpc', hret.fields, hsel.fields, ownCount_own ⟨e, he, hv⟩]
      congr 2
      simp only [if_true, eq_iff_iff]
      omega
    · have hother : ∀ e, s₁.view s₁.conn cfg.key = some e → e.value ≠ cfg.value := by
        intro e he hv
        rw [hview₁, hsel.conn] at he
        exact hown ⟨e, he, hv⟩
      obtain ⟨r, hr, s₂, hpc₂, hret⟩ := del_other hu₁ hdel hsel.db hother
      rw [if_neg hr] at hpc₂
      obtain ⟨s', hs', hpc', hcl⟩ := ih (hu₁.of_runs hret.runs) hpc₂ hret.db hvalid'
      rw [hret.view, hview₁] at hpc' hcl
      refine ⟨s', hsel.runs.trans (hret.runs.trans hs'), ?_, hcl.other hown⟩
      rw [hpc', hret.fields, hsel.fields, ownCount_other hown]

theorem unlock_undisturbed {c : Option Caller} (hu : Undisturbed cfg databases E s)
    (hpc : s.pc = .unlockLock c false) (hvalid : ∀ host ∈ cfg.hosts, Valid databases host) :
    ∃ s', Runs (State.step cfg databases E) s s' ∧
      s'.pc = afterUnlockAll (ownCount cfg cfg.hosts s.view = s.fields.haveLockNum.length) c ∧
      Cleared cfg cfg.hosts s.view s'.view := by
  have hruns : Runs (State.step cfg databases E) s _ := unlock_enters hpc
  obtain ⟨s', hs', hpc', hcl⟩ := unlock_rest (hu.of_runs hruns) rfl rfl hvalid
  refine ⟨s', hruns.trans hs', ?_, hcl⟩
  rw [hpc', Nat.zero_add]
  rfl

/-! ## The outcome -/

/-- The databases of `hosts_` without an entry for the key. -/
def free (cfg : Cfg) (v : Store) : Finset ℤ := cfg.hosts.toFinset.filter fun d => v d cfg.key = none

/-- The object has taken the free databases: each has gained its entry, with this lifetime from its `SetKeyValue` on,
and nothing else has changed. -/
structure Takes (cfg : Cfg) (v₀ : Store) (lifetime : ℤ) (s : State) : Prop where
  nodup : s.fields.haveLockNum.Nodup
  mem : ∀ d, d ∈ s.fields.haveLockNum ↔ d ∈ free cfg v₀
  won : ∀ d ∈ s.fields.haveLockNum, ∃ e ∈ s.log, e.Won cfg d
  entry : ∀ d, ∀ e ∈ s.log, e.Won cfg d → s.view d cfg.key = some ⟨cfg.value, e.time + lifetime⟩
  rest : ∀ d k, ¬ (d ∈ s.fields.haveLockNum ∧ k = cfg.key) → s.view d k = v₀ d k

namespace Takes

variable {lifetime : ℤ} (h : Takes cfg v₀ lifetime s) (hfresh : ∀ d ∈ cfg.hosts, ¬ Own cfg v₀ d)

include h

theorem length : s.fields.haveLockNum.length = (free cfg v₀).card := by
  rw [← List.toFinset_card_of_nodup h.nodup]
  congr 1
  ext d
  rw [List.mem_toFinset, h.mem]

theorem own {d : ℤ} (hd : d ∈ s.fields.haveLockNum) : Own cfg s.view d := by
  obtain ⟨e, he, hwon⟩ := h.won d hd
  exact ⟨_, h.entry d e he hwon, rfl⟩

include hfresh

theorem own_iff {d : ℤ} (hd : d ∈ cfg.hosts) : Own cfg s.view d ↔ d ∈ s.fields.haveLockNum := by
  constructor
  · rintro ⟨e, he, hv⟩
    by_contra hnot
    rw [h.rest d cfg.key fun hh => hnot hh.1] at he
    exact hfresh d hd ⟨e, he, hv⟩
  · exact h.own

theorem ownCount_eq : ownCount cfg cfg.hosts s.view = s.fields.haveLockNum.length := by
  rw [← List.toFinset_card_of_nodup h.nodup, ownCount]
  congr 1
  ext d
  rw [Finset.mem_filter, List.mem_toFinset, List.mem_toFinset]
  constructor
  · rintro ⟨hd, hown⟩
    exact (h.own_iff hfresh hd).mp hown
  · intro hd
    have hhost : d ∈ cfg.hosts := List.mem_toFinset.mp (Finset.mem_filter.mp ((h.mem d).mp hd)).1
    exact ⟨hhost, h.own hd⟩

theorem cleared {v : Store} (hcl : Cleared cfg cfg.hosts s.view v) : v = v₀ := by
  funext d k
  obtain ⟨hgone, hkept⟩ := hcl d k
  by_cases hdk : d ∈ s.fields.haveLockNum ∧ k = cfg.key
  · obtain ⟨hd, rfl⟩ := hdk
    have hfree := Finset.mem_filter.mp ((h.mem d).mp hd)
    rw [hgone ⟨List.mem_toFinset.mp hfree.1, rfl, h.own hd⟩, hfree.2]
  · rw [hkept, h.rest d k hdk]
    rintro ⟨hd, rfl, hown⟩
    exact hdk ⟨(h.own_iff hfresh hd).mp hown, rfl⟩

end Takes

/-- A thread that begins an attempt, on an object whose `have_lock_num_` is empty. -/
def State.attempting (now : ℤ) (srv : Store) (conn : ℤ) (lockStatus lockContinue : Bool) (c : Caller) : State :=
  { now, srv, conn, fields := ⟨[], lockStatus, lockContinue⟩, pc := .mainStart c }

/-- A thread that calls `unlock` in the state `s`. -/
def State.thenUnlock (s : State) : State := { s with pc := .unlockLock none false, db := none }

/-- `UnlockAll` returns true, and leaves what the databases showed before the attempt. -/
def Undone (cfg : Cfg) (databases : ℕ) (v₀ : Store) (s : State) : Prop :=
  ∀ E, Undisturbed cfg databases E s.thenUnlock →
    ∃ s', Runs (State.step cfg databases E) s.thenUnlock s' ∧ s'.pc = .unlocked true ∧ s'.view = v₀

/-- What an attempt is meant to do: it returns; it returns true exactly if enough databases are free; then it has taken
the free databases for `lock_validity_time_`, and `UnlockAll` undoes it; a failure changes nothing. -/
def Exact (cfg : Cfg) (databases : ℕ) (E : Env) (c : Caller) (s₀ : State) : Prop :=
  ∃ s, Runs (State.step cfg databases E) s₀ s ∧ (s.pc = .done true ∨ s.pc = .failed c) ∧
    (s.pc = .done true ↔ quorum cfg.hosts.length ≤ (free cfg s₀.view).card) ∧
    (s.pc = .done true → Takes cfg s₀.view cfg.lockValidityTime s ∧ Undone cfg databases s₀.view s) ∧
    (s.pc = .failed c → s.view = s₀.view)

section Attempt

variable {c : Caller} {start : ℕ} {vec : List ℤ}

theorem Acquiring.takes (h : Acquiring cfg databases E v₀ c start vec vec.length s) (hperm : vec.Perm cfg.hosts) :
    Takes cfg v₀ (i32 cfg.lockValidityTime) s where
  nodup := h.nodup
  mem := by
    intro d
    rw [h.mem d, List.take_length, free, Finset.mem_filter, List.mem_toFinset, hperm.mem_iff]
  won := h.won
  entry := h.entry
  rest := h.rest

theorem acquiring_init {now : ℤ} {srv : Store} {conn : ℤ} {lockStatus lockContinue : Bool}
    (hu : Undisturbed cfg databases E (.attempting now srv conn lockStatus lockContinue c)) :
    ∃ s, Runs (State.step cfg databases E) (.attempting now srv conn lockStatus lockContinue c) s ∧
      Acquiring cfg databases E (srv.alive now) c (u64 (E.clk 0)) E.shuffle 0 s := by
  have hclock : code cfg ⟨[], lockStatus, lockContinue⟩ (.mainStart c) = .clock fun t => .mainShuffle c (u64 t) := rfl
  have hshuffle : code cfg ⟨[], lockStatus, lockContinue⟩ (.mainShuffle c (u64 (E.clk 0))) =
      .shuffle fun v => .mainTest c ⟨u64 (E.clk 0), v, 0, false⟩ := rfl
  have hruns : Runs (State.step cfg databases E) (.attempting now srv conn lockStatus lockContinue c) _ :=
    .step (step_clock rfl hclock) (.one (step_shuffle rfl hshuffle))
  refine ⟨_, hruns, hu.of_runs hruns, rfl, rfl, List.nodup_nil, ?_, ?_, ?_, ?_⟩
  · intro d
    simp [State.attempting]
  · intro d hd
    cases hd
  · intro d e he
    cases he
  · intro d k _
    rfl

theorem Acquiring.accepts (h : Acquiring cfg databases E v₀ c start vec vec.length s)
    (hq : quorum cfg.hosts.length ≤ s.fields.haveLockNum.length)
    (helapsed : u64 (E.clk 1 - start) ≤ u64 cfg.lockValidityTime) :
    Runs (State.step cfg databases E) s
      { s with
        fields := { s.fields with lockStatus := true, lockContinue := true }
        pc := .done true
        db := none
        clks := 2 } := by
  have htest : code cfg s.fields s.pc = .tau s.fields (.mainQuorum c (passAt start vec vec.length)) := by
    rw [h.pc]
    exact if_neg (lt_irrefl _)
  have hquorum : code cfg s.fields (.mainQuorum c (passAt start vec vec.length)) =
      .tau s.fields (.mainValidity c (passAt start vec vec.length)) := if_pos hq
  refine .step (step_tau (by rw [h.pc]; rfl) htest) (.step (step_tau rfl hquorum) (.step (step_clock rfl rfl) ?_))
  rw [h.clks, if_pos helapsed]
  refine .step (step_lock rfl rfl rfl) (.step (step_pushEvent rfl rfl) (.one ?_))
  exact step_unlock rfl rfl

theorem Acquiring.gives_up (h : Acquiring cfg databases E v₀ c start vec vec.length s)
    (hq : ¬ quorum cfg.hosts.length ≤ s.fields.haveLockNum.length) :
    Runs (State.step cfg databases E) s { s with pc := .unlockLock (some c) false, db := none } := by
  have htest : code cfg s.fields s.pc = .tau s.fields (.mainQuorum c (passAt start vec vec.length)) := by
    rw [h.pc]
    exact if_neg (lt_irrefl _)
  have hquorum : code cfg s.fields (.mainQuorum c (passAt start vec vec.length)) =
      .tau s.fields (.unlockLock (some c) false) := if_neg hq
  exact .step (step_tau (by rw [h.pc]; rfl) htest) (.one (step_tau rfl hquorum))

theorem Takes.undone {lifetime : ℤ} (h : Takes cfg v₀ lifetime s) (hfresh : ∀ d ∈ cfg.hosts, ¬ Own cfg v₀ d)
    (hvalid : ∀ host ∈ cfg.hosts, Valid databases host) : Undone cfg databases v₀ s := by
  intro E' hu
  obtain ⟨s', hs', hpc', hcl⟩ := unlock_undisturbed hu rfl hvalid
  have hcount : ownCount cfg cfg.hosts s.view = s.fields.haveLockNum.length := h.ownCount_eq hfresh
  refine ⟨s', hs', ?_, h.cleared hfresh hcl⟩
  rw [hpc']
  show Pc.unlocked (decide (ownCount cfg cfg.hosts s.view = s.fields.haveLockNum.length)) = .unlocked true
  rw [decide_eq_true hcount]

theorem attempt_outcome {now : ℤ} {srv : Store} {conn : ℤ} {lockStatus lockContinue : Bool}
    (hvalid : ∀ host ∈ cfg.hosts, Valid databases host) (hperm : E.shuffle.Perm cfg.hosts)
    (hpx : 0 < i32 cfg.lockValidityTime) (hfresh : ∀ d ∈ cfg.hosts, ¬ Own cfg (srv.alive now) d)
    (hu : Undisturbed cfg databases E (.attempting now srv conn lockStatus lockContinue c))
    (helapsed : u64 (E.clk 1 - u64 (E.clk 0)) ≤ u64 cfg.lockValidityTime) :
    ∃ s, Runs (State.step cfg databases E) (.attempting now srv conn lockStatus lockContinue c) s ∧
      (quorum cfg.hosts.length ≤ (free cfg (srv.alive now)).card ∧ s.pc = .done true ∧
          Takes cfg (srv.alive now) (i32 cfg.lockValidityTime) s ∨
        (free cfg (srv.alive now)).card < quorum cfg.hosts.length ∧ s.pc = .failed c ∧ s.view = srv.alive now) := by
  obtain ⟨s₁, hruns₁, hinit⟩ := acquiring_init hu
  obtain ⟨s₂, hruns₂, hacq⟩ := acquiring_loop hpx (fun host hmem => hvalid host (hperm.mem_iff.mp hmem)) hinit
  have htakes := hacq.takes hperm
  have hruns := hruns₁.trans hruns₂
  by_cases hq : quorum cfg.hosts.length ≤ s₂.fields.haveLockNum.length
  · refine ⟨_, hruns.trans (hacq.accepts hq helapsed), .inl ⟨htakes.length ▸ hq, rfl, ?_⟩⟩
    exact ⟨htakes.nodup, htakes.mem, htakes.won, htakes.entry, htakes.rest⟩
  · have hup := hacq.gives_up hq
    obtain ⟨s₃, hruns₃, hpc₃, hcl⟩ := unlock_undisturbed (hacq.undisturbed.of_runs hup) rfl hvalid
    refine ⟨s₃, hruns.trans (hup.trans hruns₃), .inr ⟨?_, hpc₃, htakes.cleared hfresh hcl⟩⟩
    rw [← htakes.length]
    omega

/-- An outcome as intended, with a quorum, needs the lifetime to be the one Redis is given. -/
theorem Exact.lifetime {s₀ : State} (h : Exact cfg databases E c s₀) (hruns : Runs (State.step cfg databases E) s₀ s)
    (hq : quorum cfg.hosts.length ≤ (free cfg s₀.view).card) (hpc : s.pc = .done true)
    (htakes : Takes cfg s₀.view (i32 cfg.lockValidityTime) s) :
    i32 cfg.lockValidityTime = cfg.lockValidityTime := by
  obtain ⟨s', hruns', -, hiff, htakes', -⟩ := h
  have hpc' : s'.pc = .done true := hiff.mpr hq
  obtain rfl : s' = s := hruns'.stop_unique (step_of_ended (by rw [hpc']; rfl)) hruns
    (step_of_ended (by rw [hpc]; rfl))
  -- a quorum is not empty, and the entry of a database taken has one lifetime
  have hpos : 0 < s'.fields.haveLockNum.length := by
    rw [htakes.length]
    unfold quorum at hq
    omega
  obtain ⟨d, hd⟩ := List.exists_mem_of_length_pos hpos
  obtain ⟨e, he, hwon⟩ := htakes.won d hd
  have hentry := (htakes.entry d e he hwon).symm.trans ((htakes' hpc').1.entry d e he hwon)
  simp only [Option.some.injEq, Entry.mk.injEq, true_and] at hentry
  omega

end Attempt

/-- **The exact outcome of an attempt.**  It is the intended one if and only if the lifetime survives the conversion to
a 32-bit `int`, or too few databases are free for the lifetime to matter. -/
theorem attempt_exact (cfg : Cfg) (databases : ℕ) (E : Env) (c : Caller) (now : ℤ) (srv : Store) (conn : ℤ)
    (lockStatus lockContinue : Bool) (hvalid : ∀ host ∈ cfg.hosts, Valid databases host)
    (hperm : E.shuffle.Perm cfg.hosts) (hint : InInt64 cfg.lockValidityTime) (hpx : 0 < i32 cfg.lockValidityTime)
    (hfresh : ∀ d ∈ cfg.hosts, ¬ srv.Holds now d cfg.key cfg.value)
    (hu : Undisturbed cfg databases E (.attempting now srv conn lockStatus lockContinue c))
    (hforward : E.clk 0 ≤ E.clk 1) (helapsed : E.clk 1 - E.clk 0 ≤ cfg.lockValidityTime) :
    Exact cfg databases E c (.attempting now srv conn lockStatus lockContinue c) ↔
      i32 cfg.lockValidityTime = cfg.lockValidityTime ∨
        (free cfg (srv.alive now)).card < quorum cfg.hosts.length := by
  have helapsed' : u64 (E.clk 1 - u64 (E.clk 0)) ≤ u64 cfg.lockValidityTime := by
    rw [u64_sub_u64]
    unfold u64 InInt64 at *
    omega
  obtain ⟨s, hruns, houtcome⟩ := attempt_outcome hvalid hperm hpx hfresh hu helapsed'
  constructor
  · intro hexact
    rcases houtcome with ⟨hq, hpc, htakes⟩ | ⟨hq, -, -⟩
    · exact .inl (hexact.lifetime hruns hq hpc htakes)
    · exact .inr hq
  · intro hor
    rcases houtcome with ⟨hq, hpc, htakes⟩ | ⟨hq, hpc, hview⟩
    · have hi32 : i32 cfg.lockValidityTime = cfg.lockValidityTime := hor.resolve_right (by omega)
      rw [hi32] at htakes
      refine ⟨s, hruns, .inl hpc, iff_of_true hpc hq, ?_, ?_⟩
      · intro _
        exact ⟨htakes, htakes.undone hfresh hvalid⟩
      · intro hfailed
        rw [hpc] at hfailed
        cases hfailed
    · have hne : s.pc ≠ .done true := by
        rw [hpc]
        intro hh
        cases hh
      refine ⟨s, hruns, .inr hpc, iff_of_false hne (by show ¬ _ ≤ (free cfg (srv.alive now)).card; omega), ?_, ?_⟩
      · intro hh
        exact absurd hh hne
      · intro _
        exact hview

def noEntries : Store := fun _ _ => none

theorem not_holds_noEntries (now d : ℤ) (key value : String) : ¬ noEntries.Holds now d key value := by
  rintro ⟨e, he, -⟩
  cases he

/-- Three hosts on two databases, visited from the last one on. -/
theorem attempt_exact_three :
    Exact ⟨[0, 0, 1], "k", "1", 30000, 20000⟩ 2 (.still [1, 0, 0]) .tryLock
      (.attempting 0 noEntries 0 false true .tryLock) :=
  (attempt_exact ⟨[0, 0, 1], "k", "1", 30000, 20000⟩ 2 (.still [1, 0, 0]) .tryLock 0 noEntries 0 false true
    (by decide) (by decide) (by decide) (by decide) (fun d _ => not_holds_noEntries 0 d _ _) (still_undisturbed _ _)
    (by decide) (by decide)).mpr (.inl (by decide))

def longLived : Cfg := ⟨[0], "k", "1", 2 ^ 32 + 30000, 20000⟩

/-- Its entries live for 30 seconds. -/
theorem lifetime_truncated :
    ¬ Exact longLived 1 (.still [0]) .tryLock (.attempting 0 noEntries 0 false true .tryLock) := by
  intro hexact
  have hvalid : ∀ host ∈ longLived.hosts, Valid 1 host := by decide
  have hperm : (Env.still [0]).shuffle.Perm longLived.hosts := by decide
  have hu : Undisturbed longLived 1 (.still [0]) (.attempting 0 noEntries 0 false true .tryLock) :=
    still_undisturbed _ _
  obtain ⟨s, hruns, houtcome⟩ := attempt_outcome hvalid hperm (by decide)
    (fun d _ => not_holds_noEntries 0 d _ _) hu (by decide)
  rcases houtcome with ⟨hq, hpc, htakes⟩ | ⟨hq, -, -⟩
  · have hlife := hexact.lifetime hruns hq hpc htakes
    revert hlife
    decide
  · revert hq
    decide

end DistributedLock.Sequential
