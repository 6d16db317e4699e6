import DistributedLock.DMutex.Counting

/-!
# `UnlockAll`, and the passes of `KeepLock` it meets

* `SelectOk`: a pass of `MainLockFunction` whose `lck` does not own `mtx_` at the loop test has selected the hosts gone
  through, so the rollback follows a loop that has selected all of them (`code_selectOk`);
* `UnlockOk`: inside `UnlockAll` both flags are down, and of the hosts gone through something is known;
  `code_unlockOk` says that the code keeps it;
* `Pc.ahead`: a pass of `KeepLock` has made its flag test and has a host ahead; with `lock_continue_` down a pass
  that has none ahead ends without a call of the database (`code_rests`);
* `code_still`: outside a pass the caller counts no host and raises no flag.
-/

namespace DistributedLock.DMutex

open Lib Redis

/-! ## The hosts selected -/

/-- The hosts a pass has gone through with `SelectDB` succeeding are `there`; a rollback begins after all of them. -/
def SelectOk (cfg : Cfg) (there : ℤ → Prop) : Pc → Prop
  | .mainTest _ p | .mainLock _ p => p.tempVec.Perm cfg.hosts ∧
      (p.owns = false → ∀ h ∈ p.tempVec.take p.lockIndex, there h)
  | .mainSelect _ p => p.tempVec.Perm cfg.hosts ∧ ∀ h ∈ p.tempVec.take p.lockIndex, there h
  | .mainSet _ p | .mainUnlock _ p _ | .mainResult _ p _ | .mainTimeout _ p => p.tempVec.Perm cfg.hosts ∧
      ∀ h ∈ p.tempVec.take (p.lockIndex + 1), there h
  | .mainQuorum _ p | .mainValidity _ p | .mainAcceptLock _ p => p.owns = false → ∀ h ∈ cfg.hosts, there h
  | .unlockLock c owns => c.isSome = true → owns = false → ∀ h ∈ cfg.hosts, there h
  | .unlockFlags c | .unlockSelect c .. | .unlockDel c .. => c.isSome = true → ∀ h ∈ cfg.hosts, there h
  | _ => True

theorem Pass.mem_take_next {p : Pass} {h : ℤ} (hh : h ∈ p.tempVec.take (p.lockIndex + 1)) :
    h ∈ p.tempVec.take p.lockIndex ∨ h = p.host := by
  by_cases hlt : p.lockIndex < p.tempVec.length
  · rw [Pass.take_next hlt] at hh
    simpa using hh
  · rw [List.take_of_length_le (by omega)] at hh ⊢
    exact .inl hh

/-- What is left to show of an instruction at `pc` for `SelectOk` to hold after it: `mtx_` is taken by a thread that
does not own it, and a `SelectDB` succeeds for a host that is `there` only. -/
def SelectsOn (cfg : Cfg) (there : ℤ → Prop) (pc : Pc) : Instr → Prop
  | .tau _ pc' | .unlock pc' | .pushEvent _ _ pc' => SelectOk cfg there pc'
  | .lock pc' => pc.owned = false → SelectOk cfg there pc'
  | .call _ k => ∀ r, (∀ c p, pc = .mainSelect c p → r = .kSelectDBSucceed → there p.host) →
      SelectOk cfg there (k r)
  | .clock k => ∀ t, SelectOk cfg there (k t)
  | .shuffle k => ∀ v, v.Perm cfg.hosts → SelectOk cfg there (k v)
  | .ret _ | .throw => True

theorem code_selectOk {cfg : Cfg} {there : ℤ → Prop} {f : Fields} {pc : Pc} (h : SelectOk cfg there pc) :
    SelectsOn cfg there pc (code cfg f pc) := by
  cases pc with
  | failed c =>
    cases c with
    | tryLockFor expire start => simp only [code]; intro t; beta_reduce; split <;> trivial
    | _ => trivial
  | mainShuffle c start => exact fun v hv => ⟨hv, fun _ x hx => by simp at hx⟩
  | mainTest c p =>
    simp only [code, mainTest]
    split
    · exact h
    · rename_i hlt
      -- the loop is over: the hosts gone through are all of them
      intro hown x hx
      refine h.2 hown x ?_
      rw [List.take_of_length_le (by omega)]
      exact h.1.mem_iff.mpr hx
  | mainLock c p =>
    simp only [code]
    split
    · trivial
    · rename_i hown
      exact fun _ => ⟨h.1, h.2 (by simpa using hown)⟩
  | mainSelect c p =>
    simp only [code]
    intro r hsel
    beta_reduce
    split
    · rename_i hr
      refine ⟨h.1, fun x hx => ?_⟩
      rcases Pass.mem_take_next hx with hx | rfl
      · exact h.2 x hx
      · exact hsel c p rfl hr
    · exact ⟨h.1, fun hown => by cases hown⟩
  | mainSet c p => exact fun r _ => h
  | mainResult c p r =>
    simp only [code, mainResult]
    split
    · exact ⟨h.1, fun _ => h.2⟩
    · exact ⟨h.1, fun _ => h.2⟩
    · exact h
  | mainTimeout c p =>
    simp only [code]
    intro t
    beta_reduce
    split
    · exact ⟨h.1, fun _ => h.2⟩
    · -- the same position once more
      exact ⟨h.1, fun _ x hx => h.2 x (List.take_subset_take_left _ (Nat.le_succ _) hx)⟩
  | mainQuorum c p =>
    simp only [code]
    split
    · exact h
    · exact fun _ => h
  | mainValidity c p =>
    simp only [code]
    intro t
    beta_reduce
    split
    · exact h
    · exact fun _ => h
  | mainAcceptLock c p => simp only [code]; split <;> simp [SelectsOn, SelectOk]
  | unlockLock c owns => exact fun hown hc => h hc hown
  | unlockFlags c => exact h
  | unlockSelect c rest m =>
    cases rest with
    | nil => cases c <;> trivial
    | cons host rest => simp only [code]; intro r _; beta_reduce; split <;> exact h
  | unlockDel c host rest m => exact fun r _ => h
  | keepCheck =>
    simp only [code, keepCheck]
    split
    · trivial
    · split <;> trivial
  | keepTest owns m =>
    simp only [code, keepTest]
    split
    · trivial
    · split <;> trivial
  | keepRelock owns m => simp only [code]; split <;> simp [SelectsOn, SelectOk]
  | keepSelect m =>
    simp only [code]
    split
    · trivial
    · intro r _; beta_reduce; split <;> trivial
  | mainUnlock c p r => exact ⟨h.1, h.2⟩
  | _ => simp [code, SelectsOn, SelectOk]

/-! ## The hosts gone through -/

/-- Inside the loop of `UnlockAll` the flags are down, and the hosts gone through are `clean`. -/
def UnlockOk (cfg : Cfg) (clean : ℤ → Prop) (f : Fields) : Pc → Prop
  | .unlockSelect _ rest _ => f.lockContinue = false ∧ f.lockStatus = false ∧
      ∃ gone, cfg.hosts = gone ++ rest ∧ ∀ h ∈ gone, clean h
  | .unlockDel _ host rest _ => f.lockContinue = false ∧ f.lockStatus = false ∧
      ∃ gone, cfg.hosts = gone ++ host :: rest ∧ ∀ h ∈ gone, clean h
  | _ => True

theorem UnlockOk.mono {cfg : Cfg} {clean clean' : ℤ → Prop} {f : Fields} {pc : Pc} (h : UnlockOk cfg clean f pc)
    (hc : pc.owned = true → pc.passing = false → pc.keep = false → ∀ x, clean x → clean' x) :
    UnlockOk cfg clean' f pc := by
  cases pc with
  | unlockSelect c rest m | unlockDel c host rest m =>
    obtain ⟨h1, h2, gone, h3, h4⟩ := h
    exact ⟨h1, h2, gone, h3, fun x hx => hc rfl rfl rfl x (h4 x hx)⟩
  | _ => trivial

/-- What is left to show of an instruction at `pc` for `UnlockOk` to hold after it: a host whose `SelectDB` fails is
clean, and `DelKeyValue` cleans its host. -/
def UnlocksOn (cfg : Cfg) (clean : ℤ → Prop) (f : Fields) (pc : Pc) : Instr → Prop
  | .tau f' pc' | .pushEvent f' _ pc' => UnlockOk cfg clean f' pc'
  | .lock pc' | .unlock pc' => UnlockOk cfg clean f pc'
  | .call _ k => ∀ r,
      (∀ c host rest m, pc = .unlockSelect c (host :: rest) m → r = .kSelectDBSucceed ∨ clean host) →
      (∀ c host rest m, pc = .unlockDel c host rest m → clean host) → UnlockOk cfg clean f (k r)
  | .clock k => ∀ t, UnlockOk cfg clean f (k t)
  | .shuffle k => ∀ v, UnlockOk cfg clean f (k v)
  | .ret _ | .throw => True

theorem clean_snoc {clean : ℤ → Prop} {gone : List ℤ} {host : ℤ} (h : ∀ x ∈ gone, clean x) (hhost : clean host) :
    ∀ x ∈ gone ++ [host], clean x :=
  List.forall_mem_append.mpr ⟨h, List.forall_mem_singleton.mpr hhost⟩

theorem code_unlockOk {cfg : Cfg} {clean : ℤ → Prop} {f : Fields} {pc : Pc} (h : UnlockOk cfg clean f pc) :
    UnlocksOn cfg clean f pc (code cfg f pc) := by
  cases pc with
  | failed c =>
    cases c with
    | tryLockFor expire start => simp only [code]; intro t; beta_reduce; split <;> trivial
    | _ => trivial
  | mainTest c p => simp only [code, mainTest]; split <;> trivial
  | mainLock c p | mainAcceptLock c p => simp only [code]; split <;> trivial
  | mainSelect c p => simp only [code]; intro r _ _; beta_reduce; split <;> trivial
  | mainResult c p r => simp only [code, mainResult]; split <;> trivial
  | mainTimeout c p | mainValidity c p => simp only [code]; intro t; beta_reduce; split <;> trivial
  | mainQuorum c p => simp only [code]; split <;> trivial
  | unlockFlags c => exact ⟨rfl, rfl, [], rfl, by simp⟩
  | unlockSelect c rest m =>
    cases rest with
    | nil => cases c <;> trivial
    | cons host rest =>
      intro r hsel _
      obtain ⟨h1, h2, gone, h3, h4⟩ := h
      beta_reduce
      split
      · exact ⟨h1, h2, gone, h3, h4⟩
      · rename_i hr
        exact ⟨h1, h2, gone ++ [host], by simpa using h3, clean_snoc h4 ((hsel c host rest m rfl).resolve_left hr)⟩
  | unlockDel c host rest m =>
    intro r _ hdel
    obtain ⟨h1, h2, gone, h3, h4⟩ := h
    exact ⟨h1, h2, gone ++ [host], by simpa using h3, clean_snoc h4 (hdel c host rest m rfl)⟩
  | keepCheck =>
    simp only [code, keepCheck]
    split
    · trivial
    · split <;> trivial
  | keepTest owns m =>
    simp only [code, keepTest]
    split
    · trivial
    · split <;> trivial
  | keepRelock owns m => simp only [code]; split <;> trivial
  | keepSelect m =>
    simp only [code]
    split
    · trivial
    · intro r _ _; beta_reduce; split <;> trivial
  | _ => simp [code, UnlocksOn, UnlockOk]

/-- The instruction makes `MainLockFunction` return false only when it is the end of the rollback. -/
def FailsAt (pc : Pc) : Instr → Prop
  | .unlock pc' => ∀ c, pc' = .failed c → ∃ m, pc = .unlockSelect (some c) [] m
  | .tau _ pc' | .lock pc' | .pushEvent _ _ pc' => ∀ c, pc' ≠ .failed c
  | .call _ k => ∀ r c, k r ≠ .failed c
  | .clock k => ∀ t c, k t ≠ .failed c
  | .shuffle k => ∀ v c, k v ≠ .failed c
  | .ret _ | .throw => True

theorem code_failsAt (cfg : Cfg) (f : Fields) {pc : Pc} (h : pc.inMain = true) : FailsAt pc (code cfg f pc) := by
  cases pc with
  | mainTest c p => simp only [code, mainTest]; split <;> simp [FailsAt]
  | mainLock c p | mainAcceptLock c p => simp only [code]; split <;> simp [FailsAt]
  | mainSelect c p => simp only [code]; intro r c'; beta_reduce; split <;> simp
  | mainResult c p r => simp only [code, mainResult]; split <;> simp [FailsAt]
  | mainTimeout c p | mainValidity c p => simp only [code]; intro t c'; beta_reduce; split <;> simp
  | mainQuorum c p => simp only [code]; split <;> simp [FailsAt]
  | unlockSelect c rest m =>
    cases rest with
    | nil =>
      rintro c' hc'
      cases c with
      | none => cases h
      | some c => cases hc'; exact ⟨m, rfl⟩
    | cons host rest => simp only [code]; intro r c'; beta_reduce; split <;> simp
  | mainStart _ | mainShuffle _ _ | mainSet _ _ | mainUnlock _ _ _ | mainAccept _ _ | mainAcceptUnlock _ _
  | unlockLock _ _ | unlockFlags _ | unlockDel _ _ _ _ => simp [code, FailsAt]
  | _ => cases h

/-! ## Passes of `KeepLock` -/

/-- The pass of `KeepLock` has made its flag test, and has a host of `have_lock_num_` ahead. -/
def Pc.ahead (f : Fields) : Pc → Prop
  | .keepTest _ m | .keepRelock _ m | .keepSelect m => m < f.haveLockNum.length
  | .keepUpdate .. | .keepUnlock .. => True
  | _ => False

/-- The instruction calls no database, and leads to no pass with a host ahead. -/
def RestsOn (f : Fields) : Instr → Prop
  | .tau f' pc' => f' = f ∧ ¬ pc'.ahead f
  | .lock pc' | .unlock pc' => ¬ pc'.ahead f
  | .ret _ | .throw => True
  | _ => False

/-- With no host ahead, a pass ends without a call of the database; unless it is at its flag test, and the flag
is up. -/
theorem code_rests {cfg : Cfg} {f : Fields} {pc : Pc} (hk : pc.keep = true) (hpc : ¬ pc.ahead f)
    (hf : pc = .keepCheck → f.lockContinue = false) : RestsOn f (code cfg f pc) := by
  cases pc with
  | keepLock => exact fun h => h
  | keepCheck => simp [code, keepCheck, hf rfl, RestsOn, Pc.ahead]
  | keepTest owns m =>
    simp only [code, keepTest]
    split
    · rename_i hlt; exact absurd hlt hpc
    · split
      · exact fun h => h
      · exact ⟨rfl, fun h => h⟩
  | keepRelock owns m =>
    simp only [code]
    split
    · trivial
    · exact hpc
  | keepSelect m =>
    have hnone : f.haveLockNum[m]? = none := List.getElem?_eq_none (Nat.le_of_not_lt hpc)
    simp only [code, hnone]
    trivial
  | keepUpdate m host => exact absurd trivial hpc
  | keepUnlock m r => exact absurd trivial hpc
  | kept res => trivial
  | _ => cases hk

theorem Pc.ahead_mono {f f' : Fields} {pc : Pc} (hlen : f'.haveLockNum.length ≤ f.haveLockNum.length)
    (h : pc.ahead f') : pc.ahead f := by
  cases pc with
  | keepTest _ m | keepRelock _ m | keepSelect m => exact Nat.lt_of_lt_of_le h hlen
  | keepUpdate m host => trivial
  | keepUnlock m r => trivial
  | _ => exact h

/-! ## The caller outside a pass -/

/-- A pass is entered by its first reading of the clock only. -/
theorem passing_of_leadsTo {cfg : Cfg} {f : Fields} {pc pc' : Pc} (h : (code cfg f pc).LeadsTo pc')
    (hp : pc'.passing = true) : pc.passing = true ∨ ∃ c, pc = .mainStart c := by
  have ht := code_tallies cfg f pc
  cases hc : code cfg f pc with
  | tau f' pc₁ | lock pc₁ | unlock pc₁ | pushEvent f' period pc₁ =>
    rw [hc] at h ht
    obtain rfl := h
    exact .inl (ht hp).1
  | call op k =>
    rw [hc] at h ht
    obtain ⟨r, rfl⟩ := h
    exact .inl (ht r hp).1
  | clock k =>
    rw [hc] at h ht
    obtain ⟨t, rfl⟩ := h
    rcases (ht t hp).2 with hstart | hpass
    · exact .inr hstart
    · exact .inl hpass.1
  | shuffle k =>
    rw [hc] at h ht
    obtain ⟨v, rfl⟩ := h
    exact .inl (ht v hp).1
  | ret res | throw => rw [hc] at h; exact h.elim

/-- `UnlockAll`, from where it has taken `mtx_`. -/
def Pc.inUnlock : Pc → Bool
  | .unlockFlags .. | .unlockSelect .. | .unlockDel .. => true
  | _ => false

theorem inUnlock_of_leadsTo {cfg : Cfg} {f : Fields} {pc pc' : Pc} (h : (code cfg f pc).LeadsTo pc')
    (hp : pc'.inUnlock = true) : pc.inUnlock = true ∨ ∃ c owns, pc = .unlockLock c owns := by
  cases pc with
  | unlockLock c owns => exact .inr ⟨c, owns, rfl⟩
  | unlockFlags c | unlockSelect c rest m | unlockDel c host rest m => exact .inl rfl
  | failed c =>
    cases c with
    | tryLockFor expire start =>
      obtain ⟨t, rfl⟩ := h
      beta_reduce at hp
      split at hp <;> cases hp
    | _ => obtain rfl := h; cases hp
  | mainTest c p => simp only [code, mainTest] at h; split at h <;> (obtain rfl := h; cases hp)
  | mainLock c p | mainAcceptLock c p =>
    simp only [code] at h
    split at h
    · exact h.elim
    · obtain rfl := h; cases hp
  | mainSelect c p => obtain ⟨r, rfl⟩ := h; beta_reduce at hp; split at hp <;> cases hp
  | mainResult c p r => simp only [code, mainResult] at h; split at h <;> (obtain rfl := h; cases hp)
  | mainTimeout c p | mainValidity c p => obtain ⟨t, rfl⟩ := h; beta_reduce at hp; split at hp <;> cases hp
  | mainQuorum c p => simp only [code] at h; split at h <;> (obtain rfl := h; cases hp)
  | keepCheck =>
    simp only [code, keepCheck] at h
    split at h
    · obtain rfl := h; cases hp
    · split at h <;> (obtain rfl := h; cases hp)
  | keepTest owns m =>
    simp only [code, keepTest] at h
    split at h
    · obtain rfl := h; cases hp
    · split at h <;> (obtain rfl := h; cases hp)
  | keepRelock owns m =>
    simp only [code] at h
    split at h
    · exact h.elim
    · obtain rfl := h; cases hp
  | keepSelect m =>
    simp only [code] at h
    split at h
    · exact h.elim
    · obtain ⟨r, rfl⟩ := h; beta_reduce at hp; split at hp <;> cases hp
  | tryStart _ | mainStart _ | mainShuffle _ _ | mainSet _ _ | keepUpdate _ _ => obtain ⟨x, rfl⟩ := h; cases hp
  | done _ | unlocked _ | kept _ => exact h.elim
  | _ => obtain rfl := h; cases hp

/-- The instruction counts no host and raises no flag. -/
def Still (f : Fields) : Instr → Prop
  | .tau f' _ => f'.haveLockNum.length ≤ f.haveLockNum.length ∧ (f.lockContinue = false → f'.lockContinue = false)
  | .pushEvent .. => False
  | _ => True

theorem code_still {cfg : Cfg} {f : Fields} {pc : Pc} (hp : pc.passing = false) : Still f (code cfg f pc) := by
  cases pc with
  | failed c =>
    cases c with
    | tryLockFor expire start => trivial
    | _ => exact ⟨le_refl _, fun h => h⟩
  | clear c => exact ⟨Nat.zero_le _, fun h => h⟩
  | unlockFlags c => exact ⟨le_refl _, fun _ => rfl⟩
  | unlockSelect c rest m => cases rest <;> trivial
  | keepCheck =>
    simp only [code, keepCheck]
    split
    · trivial
    · split <;> trivial
  | keepTest owns m =>
    simp only [code, keepTest]
    split
    · exact ⟨le_refl _, fun h => h⟩
    · split
      · trivial
      · exact ⟨le_refl _, fun h => h⟩
  | keepRelock owns m => simp only [code]; split <;> trivial
  | keepSelect m => simp only [code]; split <;> trivial
  | mainStart c | done res | tryStart e | unlockLock c o | unlockDel c h r m | unlocked res | keepLock
  | keepUpdate m h | keepUnlock m r | kept res => trivial
  | _ => cases hp

end DistributedLock.DMutex
