import DistributedLock.DMutex.Unlocking
import Mathlib.Logic.Relation
import Mathlib.Data.List.Perm.Basic
import Mathlib.Tactic.Ring

/-!
# The discipline of `lck`

One thread runs `MainLockFunction`, or `KeepLock`, with the outcomes of its database calls and its clock readings
given (`Oracle`); `mtx_` is free whenever the thread itself does not own it.  `Solo.owns` is changed by `lock()`,
`unlock()` and the destructor only, and the program points tell it truly (`owns_of_runs`).  `Violates` is a call of
`lock()` on a `unique_lock` that owns its mutex, or a call of `UnlockAll` by a thread that owns `mtx_`.

A failed `SelectDB` in the loop of `MainLockFunction` leaves `lck` owning `mtx_`, and every way on from there is a
violation: the next iteration and the acceptance lock `lck` again, the rollback calls `UnlockAll`.  So a call
returns if and only if no `SelectDB` of its loop fails.  `KeepLock` goes wrong in the same way, except after the
last host, where the destructor of `lck` releases `mtx_` (`lck_discipline`).
-/

namespace DistributedLock.DMutex

open Lib Redis

/-! ## One thread alone -/

/-- What a thread is given from outside: the shuffled hosts, the outcome of its `k`-th call of the database if that is
the operation `op`, its `k`-th reading of the clock. -/
structure Oracle where
  shuffle : List ℤ
  res : DBOp → ℕ → DBResult
  clk : ℕ → ℤ

/-- A thread alone, with the number of database calls and of clock readings it has made, and whether it owns `mtx_`. -/
structure Solo where
  fields : Fields
  pc : Pc
  calls : ℕ := 0
  clks : ℕ := 0
  owns : Bool := false

/-- `MainLockFunction` or `KeepLock` has returned. -/
def Pc.ended : Pc → Bool
  | .failed _ | .done _ | .kept _ => true
  | _ => false

/-- The thread executes an instruction.  It cannot when `lock()` of an owning `unique_lock` or `unlock()` of one that
does not own throws, nor when it would wait for a mutex it owns itself. -/
def Solo.exec (o : Oracle) (s : Solo) : Instr → Option Solo
  | .tau f pc | .pushEvent f _ pc => some { s with fields := f, pc := pc }
  | .lock pc => if s.owns then none else some { s with pc := pc, owns := true }
  | .unlock pc => if s.owns then some { s with pc := pc, owns := false } else none
  | .call op k => some { s with pc := k (o.res op s.calls), calls := s.calls + 1 }
  | .clock k => some { s with pc := k (o.clk s.clks), clks := s.clks + 1 }
  | .shuffle k => some { s with pc := k o.shuffle }
  | .ret _ | .throw => none

/-- The next state of the thread, until the function has returned. -/
def Solo.next (cfg : Cfg) (o : Oracle) (s : Solo) : Option Solo :=
  if s.pc.ended then none else s.exec o (code cfg s.fields s.pc)

def Solo.Runs (cfg : Cfg) (o : Oracle) : Solo → Solo → Prop :=
  Relation.ReflTransGen fun s t => s.next cfg o = some t

/-- `lock()` on a `unique_lock` that owns `mtx_`, or a call of `UnlockAll` by a thread that owns it. -/
def Violates (cfg : Cfg) (s : Solo) : Prop :=
  code cfg s.fields s.pc = .throw ∨ s.owns = true ∧ ∃ c owns, s.pc = .unlockLock (some c) owns

variable {cfg : Cfg} {o : Oracle} {s s' s₀ : Solo} {c : Caller}

/-! ## The ownership of `mtx_` -/

theorem exec_of_next (hs : s.next cfg o = some s') :
    s.pc.ended = false ∧ s.exec o (code cfg s.fields s.pc) = some s' := by
  rw [Solo.next] at hs
  split at hs
  · cases hs
  · rename_i hend
    exact ⟨by simpa using hend, hs⟩

/-- What `lock()`, `unlock()` and the destructor make of the ownership is what the program points say. -/
theorem owns_next (h : s.owns = s.pc.owned) (hs : s.next cfg o = some s') : s'.owns = s'.pc.owned := by
  obtain ⟨-, hexec⟩ := exec_of_next hs
  have hk := code_keeps cfg s.fields s.pc
  cases hcode : code cfg s.fields s.pc with
  | tau f pc => rw [hcode] at hk hexec; cases hexec; exact h.trans hk.symm
  | pushEvent f period pc => rw [hcode] at hk hexec; cases hexec; exact (h.trans hk.1).trans hk.2.symm
  | lock pc =>
    rw [hcode] at hk hexec
    rw [Solo.exec] at hexec
    split at hexec <;> cases hexec
    exact Eq.symm hk
  | unlock pc =>
    rw [hcode] at hk hexec
    rw [Solo.exec] at hexec
    split at hexec <;> cases hexec
    exact hk.2.symm
  | call op k => rw [hcode] at hk hexec; cases hexec; exact (h.trans hk.1).trans (hk.2 _).symm
  | clock k => rw [hcode] at hk hexec; cases hexec; exact h.trans (hk _).symm
  | shuffle k => rw [hcode] at hk hexec; cases hexec; exact h.trans (hk _).symm
  | ret res | throw => rw [hcode] at hexec; cases hexec

theorem owns_of_runs (h : s.owns = s.pc.owned) (hs : Solo.Runs cfg o s s') : s'.owns = s'.pc.owned := by
  induction hs with
  | refl => exact h
  | tail _ hn ih => exact owns_next ih hn

theorem owned_of_ended {pc : Pc} (h : pc.ended = true) : pc.owned = false := by
  cases pc <;> first | rfl | cases h

/-! ## A failed `SelectDB` in `MainLockFunction` -/

/-- The program points at which `lck` owns `mtx_` after a failed `SelectDB`. -/
def Pc.carries : Pc → Bool
  | .mainTest _ p | .mainLock _ p | .mainQuorum _ p | .mainValidity _ p | .mainAcceptLock _ p => p.owns
  | .unlockLock (some _) owns => owns
  | _ => false

theorem carries_next (hown : s.owns = s.pc.owned) (h : s.pc.carries = true) (hs : s.next cfg o = some s') :
    s'.pc.carries = true := by
  obtain ⟨f, pc, calls, clks, owns⟩ := s
  cases pc with
  | mainTest c p =>
    simp only [Solo.next, Pc.ended, code, mainTest, Bool.false_eq_true, if_false] at hs
    split at hs <;> (cases hs; exact h)
  | mainLock c p | mainAcceptLock c p =>
    have hp : p.owns = true := h
    simp [Solo.next, Pc.ended, code, hp, Solo.exec] at hs
  | mainQuorum c p =>
    simp only [Solo.next, Pc.ended, code, Bool.false_eq_true, if_false] at hs
    split at hs <;> (cases hs; exact h)
  | mainValidity c p =>
    simp only [Solo.next, Pc.ended, code, Bool.false_eq_true, if_false, Solo.exec, Option.some.injEq] at hs
    subst hs
    simp only
    split <;> exact h
  | unlockLock c b =>
    cases c with
    | none => cases h
    | some c =>
      have howns : owns = true := hown.trans h
      simp [Solo.next, Pc.ended, code, howns, Solo.exec] at hs
  | _ => cases h

theorem carries_runs (hown : s.owns = s.pc.owned) (h : s.pc.carries = true) (hs : Solo.Runs cfg o s s') :
    s'.pc.carries = true := by
  induction hs with
  | refl => exact h
  | tail hs hn ih => exact carries_next (owns_of_runs hown hs) ih hn

/-- **After a failed `SelectDB` of its loop, `MainLockFunction` does not return.** -/
theorem not_ended_of_select_failed {p : Pass} (hown : s.owns = s.pc.owned) (hpc : s.pc = .mainSelect c p)
    (hfail : o.res (.selectDB p.host) s.calls ≠ .kSelectDBSucceed) (hs : Solo.Runs cfg o s s')
    (hend : s'.pc.ended = true) : False := by
  obtain ⟨f, pc, calls, clks, owns⟩ := s
  obtain rfl : pc = .mainSelect c p := hpc
  rcases Relation.ReflTransGen.cases_head hs with rfl | ⟨t, ht, hs⟩
  · cases hend
  · have htc : t.pc.carries = true := by
      simp only [Solo.next, Pc.ended, code, Bool.false_eq_true, if_false, Solo.exec, Option.some.injEq] at ht
      subst ht
      simp only [if_neg hfail]
      rfl
    have hcar := carries_runs (owns_next hown ht) htc hs
    cases hpc : s'.pc <;> rw [hpc] at hcar hend <;> first | cases hcar | cases hend

/-! ## `MainLockFunction` without such a failure -/

/-- From the `N`-th reading on, the clock shows that `time_out_limit_` has passed since the first one. -/
def Oracle.TimesOut (o : Oracle) (N : ℕ) : Prop :=
  ∀ k, N ≤ k → u64 timeOutLimit ≤ u64 (o.clk k - u64 (o.clk 0))

/-- In `MainLockFunction`, `lck` owns `mtx_` between its `lock()` and its `unlock()` only. -/
def MainOk (o : Oracle) (c : Caller) : Pc → Prop
  | .mainStart c' => c' = c
  | .mainShuffle c' start => c' = c ∧ start = u64 (o.clk 0)
  | .mainTest c' p | .mainQuorum c' p | .mainValidity c' p | .mainAcceptLock c' p | .mainAccept c' p
  | .mainAcceptUnlock c' p => c' = c ∧ p.start = u64 (o.clk 0) ∧ p.owns = false
  | .mainLock c' p | .mainSelect c' p | .mainSet c' p | .mainUnlock c' p _ | .mainResult c' p _
  | .mainTimeout c' p => c' = c ∧ p.start = u64 (o.clk 0) ∧ p.owns = false ∧ p.lockIndex < p.tempVec.length
  | .unlockLock c' owns => c' = some c ∧ owns = false
  | .unlockFlags c' | .unlockSelect c' _ _ | .unlockDel c' _ _ _ => c' = some c
  | .failed c' => c' = c
  | .done res => res = true
  | _ => False

def potential (cfg : Cfg) (N clks : ℕ) : Pc → ℕ
  | .mainStart _ => (cfg.hosts.length * (N + 1) + N) * 8 + 2 * cfg.hosts.length + 24
  | .mainShuffle .. => (cfg.hosts.length * (N + 1) + N) * 8 + 2 * cfg.hosts.length + 23
  | .mainTest _ p => loop p + 6
  | .mainLock _ p => loop p + 5
  | .mainSelect _ p => loop p + 4
  | .mainSet _ p => loop p + 3
  | .mainUnlock _ p _ => loop p + 2
  | .mainResult _ p _ => loop p + 1
  | .mainTimeout _ p => loop p
  | .mainQuorum .. => 2 * cfg.hosts.length + 8
  | .mainValidity .. => 2 * cfg.hosts.length + 7
  | .mainAcceptLock .. => 3
  | .mainAccept .. => 2
  | .mainAcceptUnlock .. => 1
  | .unlockLock .. => 2 * cfg.hosts.length + 4
  | .unlockFlags .. => 2 * cfg.hosts.length + 3
  | .unlockDel _ _ rest _ => 2 * rest.length + 3
  | .unlockSelect _ rest _ => 2 * rest.length + 2
  | _ => 0
where
  /-- The positions ahead, and the retries the clock still allows. -/
  loop (p : Pass) : ℕ :=
    ((p.tempVec.length - p.lockIndex) * (N + 1) + (N - clks)) * 8 + 2 * cfg.hosts.length + 8

theorem loop_next {N clks clks' : ℕ} {p : Pass} (hlt : p.lockIndex < p.tempVec.length) (hc : clks ≤ clks') :
    potential.loop cfg N clks' p.next + 8 ≤ potential.loop cfg N clks p := by
  obtain ⟨m, hm⟩ : ∃ m, p.tempVec.length - p.lockIndex = m + 1 := ⟨_, (Nat.succ_pred_eq_of_pos (by omega)).symm⟩
  have hm' : p.next.tempVec.length - p.next.lockIndex = m := by
    simp only [Pass.next]
    omega
  simp only [potential.loop, hm, hm', Nat.succ_mul]
  omega

theorem loop_retry {N clks : ℕ} {p : Pass} (hc : clks < N) :
    potential.loop cfg N (clks + 1) p + 8 ≤ potential.loop cfg N clks p := by
  simp only [potential.loop]
  omega

/-- The states of `MainLockFunction` in which no `SelectDB` of its loop has failed. -/
structure MainState (o : Oracle) (c : Caller) (s : Solo) : Prop where
  pc : MainOk o c s.pc
  owns : s.owns = s.pc.owned
  first : ∀ c', s.pc = .mainStart c' → s.clks = 0

/-- **Each step goes on**, towards the return. -/
theorem MainState.step {N : ℕ} (h : MainState o c s) (hN : o.TimesOut N) (hperm : o.shuffle.Perm cfg.hosts)
    (hsel : ∀ c' p, s.pc = .mainSelect c' p → o.res (.selectDB p.host) s.calls = .kSelectDBSucceed)
    (hend : s.pc.ended = false) :
    ∃ s', s.next cfg o = some s' ∧ MainState o c s' ∧
      potential cfg N s'.clks s'.pc < potential cfg N s.clks s.pc := by
  obtain ⟨f, pc, calls, clks, owns⟩ := s
  obtain ⟨hpc, hown, hfirst⟩ := h
  obtain rfl : owns = pc.owned := hown
  have hgo : ∀ s' : Solo, (⟨f, pc, calls, clks, pc.owned⟩ : Solo).exec o (code cfg f pc) = some s' →
      MainOk o c s'.pc → (∀ c', s'.pc ≠ .mainStart c') →
      potential cfg N s'.clks s'.pc < potential cfg N clks pc →
      ∃ s', (⟨f, pc, calls, clks, pc.owned⟩ : Solo).next cfg o = some s' ∧ MainState o c s' ∧
        potential cfg N s'.clks s'.pc < potential cfg N clks pc := by
    intro s' hs hok hne hlt
    have hn : (⟨f, pc, calls, clks, pc.owned⟩ : Solo).next cfg o = some s' := by rw [Solo.next, hend]; exact hs
    exact ⟨s', hn, ⟨hok, owns_next rfl hn, fun c' hc' => absurd hc' (hne c')⟩, hlt⟩
  cases pc with
  | mainStart c' =>
    obtain rfl : clks = 0 := hfirst c' rfl
    exact hgo _ rfl ⟨hpc, rfl⟩ (by simp) (by simp only [potential]; omega)
  | mainShuffle c' start =>
    refine hgo _ rfl ⟨hpc.1, hpc.2, rfl⟩ (by simp) ?_
    simp only [potential, potential.loop, hperm.length_eq, Nat.sub_zero]
    omega
  | mainTest c' p =>
    by_cases hlt : p.lockIndex < p.tempVec.length
    · refine hgo ⟨f, .mainLock c' p, calls, clks, p.owns⟩
        (by simp [code, mainTest, hlt, Solo.exec, Pc.owned]) ?_ (by simp) ?_
      · exact ⟨hpc.1, hpc.2.1, hpc.2.2, hlt⟩
      · simp only [potential]; omega
    · refine hgo ⟨f, .mainQuorum c' p, calls, clks, p.owns⟩
        (by simp [code, mainTest, hlt, Solo.exec, Pc.owned]) hpc (by simp) ?_
      simp only [potential, potential.loop]; omega
  | mainLock c' p =>
    refine hgo ⟨f, .mainSelect c' p, calls, clks, true⟩ ?_ hpc (by simp) (by simp only [potential]; omega)
    simp [code, hpc.2.2.1, Solo.exec, Pc.owned]
  | mainSelect c' p =>
    refine hgo ⟨f, .mainSet c' p, calls + 1, clks, true⟩ ?_ hpc (by simp) (by simp only [potential]; omega)
    simp [code, Solo.exec, Pc.owned, hsel c' p rfl]
  | mainSet c' p => exact hgo _ rfl hpc (by simp) (by simp only [potential]; omega)
  | mainUnlock c' p r =>
    refine hgo _ rfl ⟨hpc.1, hpc.2.1, rfl, hpc.2.2.2⟩ (by simp) ?_
    simp only [potential, potential.loop]; omega
  | mainResult c' p r =>
    have hnext : potential.loop cfg N clks p.next + 8 ≤ potential.loop cfg N clks p :=
      loop_next hpc.2.2.2 (le_refl clks)
    by_cases h1 : r = .kSetKeySucceed
    · subst h1
      exact hgo _ rfl ⟨hpc.1, hpc.2.1, hpc.2.2.1⟩ (by simp) (by simp only [potential]; omega)
    · by_cases h2 : r = .kKeyExist
      · subst h2
        exact hgo _ rfl ⟨hpc.1, hpc.2.1, hpc.2.2.1⟩ (by simp) (by simp only [potential]; omega)
      · refine hgo ⟨f, .mainTimeout c' p, calls, clks, p.owns⟩ ?_ hpc (by simp) (by simp only [potential]; omega)
        cases r <;> first | rfl | exact absurd rfl h1 | exact absurd rfl h2
  | mainTimeout c' p =>
    by_cases ht : u64 (o.clk clks - p.start) ≥ u64 timeOutLimit
    · have hnext : potential.loop cfg N (clks + 1) p.next + 8 ≤ potential.loop cfg N clks p :=
        loop_next hpc.2.2.2 (Nat.le_succ clks)
      refine hgo ⟨f, .mainTest c' p.next, calls, clks + 1, p.owns⟩
        (by simp [code, Solo.exec, Pc.owned, ht]) ?_ (by simp) ?_
      · exact ⟨hpc.1, hpc.2.1, hpc.2.2.1⟩
      · simp only [potential]; omega
    · -- a retry: the time limit has not passed yet
      have hclk : clks < N := by
        by_contra hge
        have := hN clks (by omega)
        rw [← hpc.2.1] at this
        exact ht this
      have hretry : potential.loop cfg N (clks + 1) p + 8 ≤ potential.loop cfg N clks p := loop_retry hclk
      refine hgo ⟨f, .mainTest c' p, calls, clks + 1, p.owns⟩
        (by simp [code, Solo.exec, Pc.owned, ht]) ?_ (by simp) ?_
      · exact ⟨hpc.1, hpc.2.1, hpc.2.2.1⟩
      · simp only [potential]; omega
  | mainQuorum c' p =>
    by_cases hq : f.haveLockNum.length ≥ quorum cfg.hosts.length
    · refine hgo ⟨f, .mainValidity c' p, calls, clks, p.owns⟩
        (by simp [code, hq, Solo.exec, Pc.owned]) hpc (by simp) ?_
      simp only [potential]; omega
    · refine hgo ⟨f, .unlockLock (some c') p.owns, calls, clks, p.owns⟩
        (by simp [code, hq, Solo.exec, Pc.owned]) ?_ (by simp) ?_
      · exact ⟨congrArg some hpc.1, hpc.2.2⟩
      · simp only [potential]; omega
  | mainValidity c' p =>
    by_cases ht : u64 (o.clk clks - p.start) ≤ u64 cfg.lockValidityTime
    · refine hgo ⟨f, .mainAcceptLock c' p, calls, clks + 1, p.owns⟩
        (by simp [code, Solo.exec, Pc.owned, ht]) hpc (by simp) ?_
      simp only [potential]; omega
    · refine hgo ⟨f, .unlockLock (some c') p.owns, calls, clks + 1, p.owns⟩
        (by simp [code, Solo.exec, Pc.owned, ht]) ?_ (by simp) ?_
      · exact ⟨congrArg some hpc.1, hpc.2.2⟩
      · simp only [potential]; omega
  | mainAcceptLock c' p =>
    refine hgo ⟨f, .mainAccept c' p, calls, clks, true⟩ ?_ hpc (by simp) (by simp only [potential]; omega)
    simp [code, hpc.2.2, Solo.exec, Pc.owned]
  | mainAccept c' p => exact hgo _ rfl hpc (by simp) (by simp only [potential]; omega)
  | mainAcceptUnlock c' p => exact hgo _ rfl rfl (by simp) (by simp only [potential]; omega)
  | unlockLock c' owns =>
    refine hgo ⟨f, .unlockFlags c', calls, clks, true⟩ ?_ hpc.1 (by simp) (by simp only [potential]; omega)
    simp [code, hpc.2, Solo.exec, Pc.owned]
  | unlockFlags c' => exact hgo _ rfl hpc (by simp) (by simp only [potential]; omega)
  | unlockSelect c' rest m =>
    obtain rfl : c' = some c := hpc
    cases rest with
    | nil => exact hgo _ rfl rfl (by simp [afterUnlockAll]) (by simp only [potential, afterUnlockAll]; omega)
    | cons host rest =>
      by_cases hr : o.res (.selectDB host) calls = .kSelectDBSucceed
      · refine hgo ⟨f, .unlockDel (some c) host rest m, calls + 1, clks, true⟩
          (by simp [code, Solo.exec, Pc.owned, hr]) rfl (by simp) ?_
        simp only [potential, List.length_cons]; omega
      · refine hgo ⟨f, .unlockSelect (some c) rest m, calls + 1, clks, true⟩
          (by simp [code, Solo.exec, Pc.owned, hr]) rfl (by simp) ?_
        simp only [potential, List.length_cons]; omega
  | unlockDel c' host rest m =>
    refine hgo _ rfl hpc (by simp) ?_
    simp only [potential]; omega
  | failed _ | done _ => cases hend
  | _ => exact hpc.elim

theorem accepts {p : Pass} (howns : s.owns = s.pc.owned) (hpc : s.pc = .mainQuorum c p) (hown : p.owns = false)
    (hq : quorum cfg.hosts.length ≤ s.fields.haveLockNum.length)
    (ht : u64 (o.clk s.clks - p.start) ≤ u64 cfg.lockValidityTime) :
    ∃ s', Solo.Runs cfg o s s' ∧ s'.pc = .done true := by
  obtain ⟨f, pc, calls, clks, owns⟩ := s
  obtain rfl : pc = .mainQuorum c p := hpc
  obtain rfl : owns = false := howns.trans hown
  have h1 : Solo.next cfg o ⟨f, .mainQuorum c p, calls, clks, false⟩ =
      some ⟨f, .mainValidity c p, calls, clks, false⟩ := by
    simp [Solo.next, Pc.ended, code, ge_iff_le.mpr hq, Solo.exec]
  have h2 : Solo.next cfg o ⟨f, .mainValidity c p, calls, clks, false⟩ =
      some ⟨f, .mainAcceptLock c p, calls, clks + 1, false⟩ := by
    simp [Solo.next, Pc.ended, code, Solo.exec, ht]
  have h3 : Solo.next cfg o ⟨f, .mainAcceptLock c p, calls, clks + 1, false⟩ =
      some ⟨f, .mainAccept c p, calls, clks + 1, true⟩ := by
    simp [Solo.next, Pc.ended, code, Solo.exec, hown]
  exact ⟨_, .head h1 (.head h2 (.head h3 (.head rfl (.head rfl .refl)))), rfl⟩

/-- The start of `MainLockFunction`, called by `c`. -/
def Solo.main (f : Fields) (c : Caller) : Solo := ⟨f, .mainStart c, 0, 0, false⟩

/-- No `SelectDB` of the loop of `MainLockFunction` fails. -/
def LoopSelects (cfg : Cfg) (o : Oracle) (f : Fields) (c : Caller) : Prop :=
  ∀ s c' p, Solo.Runs cfg o (.main f c) s → s.pc = .mainSelect c' p →
    o.res (.selectDB p.host) s.calls = .kSelectDBSucceed

/-- What `MainLockFunction` should do whatever its `SelectDB` calls answer: it breaks no rule of `lck`, returns a bool,
does not own `mtx_` when it has returned, and returns true when enough hosts have been counted in time. -/
structure MainTolerates (cfg : Cfg) (o : Oracle) (f : Fields) (c : Caller) : Prop where
  safe : ∀ s, Solo.Runs cfg o (.main f c) s → ¬ Violates cfg s
  returns : ∃ s, Solo.Runs cfg o (.main f c) s ∧ (s.pc = .failed c ∨ s.pc = .done true)
  released : ∀ s, Solo.Runs cfg o (.main f c) s → s.pc.ended = true → s.owns = false
  succeeds : ∀ s p, Solo.Runs cfg o (.main f c) s → s.pc = .mainQuorum c p →
    quorum cfg.hosts.length ≤ s.fields.haveLockNum.length →
    u64 (o.clk s.clks - p.start) ≤ u64 cfg.lockValidityTime →
    ∃ s', Solo.Runs cfg o (.main f c) s' ∧ s'.pc = .done true

section Main

variable {N : ℕ} {f : Fields} (hN : o.TimesOut N) (hperm : o.shuffle.Perm cfg.hosts)
  (hsel : LoopSelects cfg o f c)
include hN hperm hsel

theorem mainState_of_runs (hs : Solo.Runs cfg o (.main f c) s) : MainState o c s := by
  induction hs with
  | refl => exact ⟨rfl, rfl, fun _ _ => rfl⟩
  | @tail t u htu hn ih =>
    have hend : t.pc.ended = false := by
      by_contra hend
      simp only [Bool.not_eq_false] at hend
      simp [Solo.next, hend] at hn
    obtain ⟨u', hu', hst, -⟩ := ih.step hN hperm (fun c' p => hsel t c' p htu) hend
    rw [hn] at hu'
    cases hu'
    exact hst

theorem returns_of_runs (hs : Solo.Runs cfg o (.main f c) s) : ∃ s', Solo.Runs cfg o s s' ∧ s'.pc.ended = true := by
  induction hm : potential cfg N s.clks s.pc using Nat.strong_induction_on generalizing s with
  | _ m ih =>
    by_cases hend : s.pc.ended = true
    · exact ⟨s, .refl, hend⟩
    · obtain ⟨t, hn, -, hlt⟩ := (mainState_of_runs hN hperm hsel hs).step hN hperm (fun c' p => hsel s c' p hs)
        (by simpa using hend)
      obtain ⟨s', hs', hend'⟩ := ih _ (hm ▸ hlt) (hs.tail hn) rfl
      exact ⟨s', .head hn hs', hend'⟩

theorem mainTolerates_of_loopSelects : MainTolerates cfg o f c := by
  have hstate := fun {s} => mainState_of_runs (s := s) hN hperm hsel
  refine ⟨fun s hs hviol => ?_, ?_, fun s hs hend => ?_, fun s p hs hpc hq ht => ?_⟩
  · have hst := hstate hs
    rcases hviol with hthrow | ⟨howns, c', b, hpc⟩
    · by_cases hend : s.pc.ended = true
      · have hok := hst.pc
        cases hpc : s.pc with
        | failed c' => rw [hpc] at hthrow; cases c' <;> cases hthrow
        | done res => rw [hpc] at hthrow; cases hthrow
        | kept res => rw [hpc] at hok; exact hok
        | _ => rw [hpc] at hend; cases hend
      · obtain ⟨t, hn, -⟩ := hst.step hN hperm (fun c' p => hsel s c' p hs) (by simpa using hend)
        simp [Solo.next, hend, hthrow, Solo.exec] at hn
    · have hok := hst.pc
      rw [hst.owns, hpc] at howns
      rw [hpc] at hok
      exact Bool.false_ne_true (hok.2.symm.trans howns)
  · obtain ⟨s, hs, hend⟩ := returns_of_runs hN hperm hsel (s := .main f c) .refl
    have hok := (hstate hs).pc
    refine ⟨s, hs, ?_⟩
    cases hpc : s.pc with
    | failed c' => rw [hpc] at hok; exact .inl (congrArg Pc.failed hok)
    | done res => rw [hpc] at hok; exact .inr (congrArg Pc.done hok)
    | kept res => rw [hpc] at hok; exact hok.elim
    | _ => rw [hpc] at hend; cases hend
  · exact (hstate hs).owns.trans (owned_of_ended hend)
  · have hok := (hstate hs).pc
    rw [hpc] at hok
    obtain ⟨s', hs', hdone⟩ := accepts (hstate hs).owns hpc hok.2.2 hq ht
    exact ⟨s', hs.trans hs', hdone⟩

end Main

/-- A `MainLockFunction` that returns has had no failed `SelectDB` in its loop. -/
theorem loopSelects_of_returns {f : Fields} (hs : Solo.Runs cfg o (.main f c) s) (hend : s.pc.ended = true) :
    LoopSelects cfg o f c := by
  intro t c' p ht hpc
  by_contra hfail
  have hunique : Relator.RightUnique fun s t : Solo => s.next cfg o = some t := by
    intro a b b' hb hb'
    exact Option.some.inj (hb.symm.trans hb')
  rcases Relation.ReflTransGen.total_of_right_unique hunique ht hs with hts | hst
  · exact not_ended_of_select_failed (owns_of_runs rfl ht) hpc hfail hts hend
  · -- nothing follows the return
    rcases Relation.ReflTransGen.cases_head hst with rfl | ⟨u, hu, -⟩
    · rw [hpc] at hend; cases hend
    · simp [Solo.next, hend] at hu

/-! ## `KeepLock` -/

/-- The start of `KeepLock`. -/
def Solo.keep (f : Fields) : Solo := ⟨f, .keepLock, 0, 0, false⟩

/-- A `SelectDB` of `KeepLock` fails at the last host only. -/
def LastSelects (cfg : Cfg) (o : Oracle) (f : Fields) : Prop :=
  ∀ s m host, Solo.Runs cfg o (.keep f) s → s.pc = .keepSelect m → f.haveLockNum[m]? = some host →
    o.res (.selectDB host) s.calls ≠ .kSelectDBSucceed → f.haveLockNum.length ≤ m + 1

/-- In `KeepLock` without such a failure, `lck` owns `mtx_` between its `lock()` and its `unlock()`, and on the way
out. -/
def KeepOk (f : Fields) : Pc → Prop
  | .keepLock | .keepCheck | .kept _ => True
  | .keepTest owns m => owns = true → f.haveLockNum.length ≤ m
  | .keepRelock owns m => owns = false ∧ m < f.haveLockNum.length
  | .keepSelect m | .keepUpdate m _ | .keepUnlock m _ => m < f.haveLockNum.length
  | _ => False

theorem keep_next (h : s.pc.keep = true) (hs : s.next cfg o = some s') :
    s'.pc.keep = true ∧ s'.fields = s.fields := by
  obtain ⟨-, hexec⟩ := exec_of_next hs
  have hst := code_keep cfg s.fields s.pc
  rw [h] at hst
  cases hcode : code cfg s.fields s.pc with
  | lock pc | unlock pc =>
    rw [hcode] at hst hexec
    rw [Solo.exec] at hexec
    split at hexec <;> cases hexec
    exact ⟨hst, rfl⟩
  | tau f pc => rw [hcode] at hst hexec; cases hexec; exact ⟨hst.1, hst.2 rfl⟩
  | pushEvent f period pc => rw [hcode] at hst; cases hst.2
  | call op k | clock k | shuffle k => rw [hcode] at hst hexec; cases hexec; exact ⟨hst _, rfl⟩
  | ret res | throw => rw [hcode] at hexec; cases hexec

theorem fields_of_keep_runs {f : Fields} (hs : Solo.Runs cfg o (.keep f) s) : s.fields = f := by
  have h : s.pc.keep = true ∧ s.fields = f := by
    induction hs with
    | refl => exact ⟨rfl, rfl⟩
    | tail _ hn ih =>
      obtain ⟨hkeep, hf⟩ := keep_next ih.1 hn
      exact ⟨hkeep, hf.trans ih.2⟩
  exact h.2

theorem keepOk_next {f : Fields} (hf : s.fields = f) (h : KeepOk f s.pc)
    (hlast : ∀ m host, s.pc = .keepSelect m → f.haveLockNum[m]? = some host →
      o.res (.selectDB host) s.calls ≠ .kSelectDBSucceed → f.haveLockNum.length ≤ m + 1)
    (hs : s.next cfg o = some s') : s'.fields = f ∧ KeepOk f s'.pc := by
  obtain ⟨f', pc, calls, clks, owns⟩ := s
  obtain rfl : f' = f := hf
  cases pc with
  | keepLock =>
    simp only [Solo.next, Pc.ended, code, Bool.false_eq_true, if_false, Solo.exec] at hs
    split at hs <;> cases hs
    exact ⟨rfl, trivial⟩
  | keepCheck =>
    obtain ⟨pc, hpc, hok⟩ : ∃ pc, code cfg f' .keepCheck = .unlock pc ∧ KeepOk f' pc := by
      simp only [code, keepCheck]
      split
      · exact ⟨_, rfl, trivial⟩
      · split
        · exact ⟨_, rfl, trivial⟩
        · exact ⟨_, rfl, fun h => by cases h⟩
    simp only [Solo.next, Pc.ended, hpc, Bool.false_eq_true, if_false, Solo.exec] at hs
    split at hs <;> cases hs
    exact ⟨rfl, hok⟩
  | keepTest b m =>
    simp only [Solo.next, Pc.ended, code, keepTest, Bool.false_eq_true, if_false] at hs
    split at hs
    · rename_i hlt
      cases hs
      refine ⟨rfl, ?_, hlt⟩
      by_contra howns
      have := h (by simpa using howns)
      omega
    · split at hs
      · simp only [Solo.exec] at hs
        split at hs <;> cases hs
        exact ⟨rfl, trivial⟩
      · cases hs
        exact ⟨rfl, trivial⟩
  | keepRelock b m =>
    obtain ⟨rfl, hlt⟩ := h
    simp only [Solo.next, Pc.ended, code, Bool.false_eq_true, if_false, Solo.exec] at hs
    split at hs <;> cases hs
    exact ⟨rfl, hlt⟩
  | keepSelect m =>
    have hlt : m < f'.haveLockNum.length := h
    have hhost := List.getElem?_eq_getElem hlt
    simp only [Solo.next, Pc.ended, code, Bool.false_eq_true, if_false, hhost, Solo.exec, Option.some.injEq] at hs
    subst hs
    refine ⟨rfl, ?_⟩
    by_cases hr : o.res (.selectDB f'.haveLockNum[m]) calls = .kSelectDBSucceed
    · simp only [hr, if_true]; exact hlt
    · simp only [hr, if_false]; exact fun _ => hlast m _ rfl hhost hr
  | keepUpdate m host =>
    simp only [Solo.next, Pc.ended, code, Bool.false_eq_true, if_false, Solo.exec, Option.some.injEq] at hs
    subst hs
    exact ⟨rfl, h⟩
  | keepUnlock m r =>
    simp only [Solo.next, Pc.ended, code, Bool.false_eq_true, if_false, Solo.exec] at hs
    split at hs <;> cases hs
    exact ⟨rfl, fun howns => by cases howns⟩
  | kept res => cases hs
  | _ => exact h.elim

theorem keepOk_of_runs {f : Fields} (hlast : LastSelects cfg o f) (hs : Solo.Runs cfg o (.keep f) s) :
    s.fields = f ∧ KeepOk f s.pc := by
  induction hs with
  | refl => exact ⟨rfl, trivial⟩
  | @tail t u ht hn ih => exact keepOk_next ih.1 ih.2 (fun m host => hlast t m host ht) hn

/-- What `KeepLock` should do whatever its `SelectDB` calls answer: it breaks no rule of `lck`, and does not own `mtx_`
when it has returned. -/
structure KeepTolerates (cfg : Cfg) (o : Oracle) (f : Fields) : Prop where
  safe : ∀ s, Solo.Runs cfg o (.keep f) s → ¬ Violates cfg s
  released : ∀ s, Solo.Runs cfg o (.keep f) s → s.pc.ended = true → s.owns = false

theorem keepTolerates_of_lastSelects {f : Fields} (hlast : LastSelects cfg o f) : KeepTolerates cfg o f := by
  refine ⟨fun s hs hviol => ?_, fun s hs hend => (owns_of_runs rfl hs).trans (owned_of_ended hend)⟩
  · obtain ⟨hf, hok⟩ := keepOk_of_runs hlast hs
    rcases hviol with hthrow | ⟨-, c, b, hpc⟩
    · obtain ⟨f', pc, calls, clks, owns⟩ := s
      obtain rfl : f' = f := hf
      cases pc with
      | keepCheck =>
        simp only [code, keepCheck] at hthrow
        split at hthrow
        · cases hthrow
        · split at hthrow <;> cases hthrow
      | keepTest owns m =>
        simp only [code, keepTest] at hthrow
        split at hthrow
        · cases hthrow
        · split at hthrow <;> cases hthrow
      | keepRelock owns m => obtain ⟨rfl, -⟩ := hok; cases hthrow
      | keepSelect m =>
        simp only [code, List.getElem?_eq_getElem hok] at hthrow
        cases hthrow
      | keepLock | keepUpdate m host | keepUnlock m r | kept res => cases hthrow
      | _ => exact hok.elim
    · rw [hpc] at hok
      exact hok

/-- `KeepLock` locks `lck` again after a `SelectDB` that failed before the last host. -/
theorem lastSelects_of_safe {f : Fields} (hsafe : ∀ s, Solo.Runs cfg o (.keep f) s → ¬ Violates cfg s) :
    LastSelects cfg o f := by
  intro s m host hs hpc hhost hfail
  by_contra hlt
  push Not at hlt
  have hf : s.fields = f := fields_of_keep_runs hs
  obtain ⟨f', pc, calls, clks, owns⟩ := s
  obtain rfl : f' = f := hf
  obtain rfl : pc = .keepSelect m := hpc
  have h1 : Solo.next cfg o ⟨f', .keepSelect m, calls, clks, owns⟩ =
      some ⟨f', .keepTest true (m + 1), calls + 1, clks, owns⟩ := by
    have hfail' : ¬ o.res (.selectDB host) calls = .kSelectDBSucceed := hfail
    simp [Solo.next, Pc.ended, code, Solo.exec, hhost, hfail']
  have h2 : Solo.next cfg o ⟨f', .keepTest true (m + 1), calls + 1, clks, owns⟩ =
      some ⟨f', .keepRelock true (m + 1), calls + 1, clks, owns⟩ := by
    simp [Solo.next, Pc.ended, code, keepTest, Solo.exec, hlt]
  exact hsafe _ ((hs.tail h1).tail h2) (.inl rfl)

/-! ## The condition -/

/-- **The rules of `lck` are kept, and `MainLockFunction` returns, exactly when no `SelectDB` of its loop fails; they are
kept by `KeepLock` exactly when `SelectDB` fails at the last host at most.**  `hN` lets time pass: a host that does not
answer is tried until `time_out_limit_`. -/
theorem lck_discipline {N : ℕ} (hN : o.TimesOut N) (hperm : o.shuffle.Perm cfg.hosts) (f : Fields) (c : Caller) :
    (MainTolerates cfg o f c ↔ LoopSelects cfg o f c) ∧ (KeepTolerates cfg o f ↔ LastSelects cfg o f) := by
  refine ⟨⟨fun h => ?_, mainTolerates_of_loopSelects hN hperm⟩,
    ⟨fun h => lastSelects_of_safe h.safe, keepTolerates_of_lastSelects⟩⟩
  obtain ⟨s, hs, hpc⟩ := h.returns
  refine loopSelects_of_returns hs ?_
  rcases hpc with hpc | hpc <;> (rw [hpc]; rfl)

/-- Every command is answered, `SELECT` as `selects` says. -/
def Oracle.answering (selects : ℤ → Bool) (hosts : List ℤ) : Oracle where
  shuffle := hosts
  res op _ :=
    match op with
    | .selectDB index => if selects index then .kSelectDBSucceed else .kSelectDBFailed
    | .setKeyValue .. => .kSetKeySucceed
    | .updateExpire .. => .kUpdateKeySucceed
    | .delKeyValue .. => .kDelKeySucceed
  clk k := if k = 0 then 0 else 60

theorem Oracle.answering_timesOut (selects : ℤ → Bool) (hosts : List ℤ) :
    (Oracle.answering selects hosts).TimesOut 1 := by
  intro k hk
  have hclk : (Oracle.answering selects hosts).clk k = 60 := if_neg (by omega)
  rw [hclk]
  show u64 50 ≤ u64 (60 - u64 0)
  decide

theorem lck_discipline_three :
    let cfg : Cfg := ⟨[0, 1, 2], "k", "1", 30000, 20000⟩
    let o := Oracle.answering (fun _ => true) [2, 0, 1]
    MainTolerates cfg o {} .lock ∧ KeepTolerates cfg o ⟨[2, 0, 1], true, true⟩ := by
  intro cfg o
  have hperm : o.shuffle.Perm cfg.hosts := by decide
  exact ⟨(lck_discipline (Oracle.answering_timesOut _ _) hperm {} .lock).1.mpr fun _ _ _ _ _ => rfl,
    (lck_discipline (Oracle.answering_timesOut _ _) hperm ⟨[2, 0, 1], true, true⟩ .lock).2.mpr
      fun _ _ _ _ _ _ hfail => absurd rfl hfail⟩

/-- One host, whose `SELECT` fails: `UnlockAll` waits for the mutex its caller owns. -/
theorem select_failure_blocks :
    ¬ ∀ (cfg : Cfg) (o : Oracle) (f : Fields) (c : Caller) (N : ℕ), o.TimesOut N → o.shuffle.Perm cfg.hosts →
      MainTolerates cfg o f c ∧ KeepTolerates cfg o f := by
  intro h
  let cfg : Cfg := ⟨[16], "k", "1", 30000, 20000⟩
  let o := Oracle.answering (fun index => index < 16) [16]
  have htol := (h cfg o {} .lock 1 (Oracle.answering_timesOut _ _) (.refl _)).1
  let p : Pass := ⟨0, [16], 0, false⟩
  have hrun : Solo.Runs cfg o (.main {} .lock) ⟨{}, .mainSelect .lock p, 0, 1, true⟩ :=
    .head (b := ⟨{}, .mainShuffle .lock 0, 0, 1, false⟩) rfl (.head rfl (.head rfl (.head rfl .refl)))
  obtain ⟨s, hs, hpc⟩ := htol.returns
  have hsel := loopSelects_of_returns hs (by rcases hpc with hpc | hpc <;> (rw [hpc]; rfl))
  have := hsel _ _ _ hrun rfl
  cases this

end DistributedLock.DMutex
