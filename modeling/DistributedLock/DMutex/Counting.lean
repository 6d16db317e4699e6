import DistributedLock.DMutex.Points
import Mathlib.Data.List.Perm.Basic

/-!
# What `MainLockFunction` counts

`have_lock_num_` is emptied before a pass and grows by the host of every `SetKeyValue` that succeeds, so what
is known of the hosts counted is an assertion that travels along the pass.  `CallerOk` carries such an
assertion `C p hosts`, about a pass with the local variables `p` and the hosts it has counted, through the
program points; `code_callerOk` says that the code keeps it, provided that

* `C` holds of the empty list at the start of the pass;
* `C` holds of the longer list when `SetKeyValue` reports success;
* `C` does not mind a host that is passed over, nor the state of `lck` (`PassAssertion`).
-/

namespace DistributedLock.DMutex

open Lib Redis

/-- An assertion about a pass and the hosts it has counted that a host passed over does not disturb. -/
structure PassAssertion (C : Pass → List ℤ → Prop) : Prop where
  next : ∀ {p xs}, C p xs → C p.next xs
  owns : ∀ {p xs} (b : Bool), C p xs → C { p with owns := b } xs

/-- The program points of a pass of `MainLockFunction`, from the shuffle up to the return of success. -/
def Pc.passing : Pc → Bool
  | .mainShuffle .. | .mainTest .. | .mainLock .. | .mainSelect .. | .mainSet .. | .mainUnlock .. | .mainResult ..
  | .mainTimeout .. | .mainQuorum .. | .mainValidity .. | .mainAcceptLock .. | .mainAccept .. | .mainAcceptUnlock ..
  | .done true => true
  | _ => false

/-- The host of a `SetKeyValue` that has succeeded and is not yet in `have_lock_num_`. -/
def Pc.pending : Pc → List ℤ
  | .mainUnlock _ p r | .mainResult _ p r => if r = .kSetKeySucceed then [p.host] else []
  | _ => []

/-- The assertion `C` about the counted hosts, at a program point of a pass that began with none. -/
def CallerOk (cfg : Cfg) (C : Pass → List ℤ → Prop) (f : Fields) : Pc → Prop
  | .mainStart _ => f.haveLockNum = []
  | .mainShuffle _ start => f.haveLockNum = [] ∧ ∀ v, v.Perm cfg.hosts → C ⟨start, v, 0, false⟩ []
  | .mainTest _ p | .mainTimeout _ p => C p f.haveLockNum ∧ p.tempVec.Perm cfg.hosts
  | .mainLock _ p | .mainSelect _ p | .mainSet _ p => C p f.haveLockNum ∧ p.tempVec.Perm cfg.hosts ∧
      p.lockIndex < p.tempVec.length
  | .mainUnlock _ p r | .mainResult _ p r => C p f.haveLockNum ∧ p.tempVec.Perm cfg.hosts ∧
      p.lockIndex < p.tempVec.length ∧ (r = .kSetKeySucceed → C p.next (f.haveLockNum ++ [p.host]))
  | .mainQuorum _ p => C p f.haveLockNum
  | .mainValidity _ p | .mainAcceptLock _ p | .mainAccept _ p | .mainAcceptUnlock _ p =>
      C p f.haveLockNum ∧ quorum cfg.hosts.length ≤ f.haveLockNum.length
  | .done true => ∃ p, C p f.haveLockNum ∧ quorum cfg.hosts.length ≤ f.haveLockNum.length
  | _ => True

theorem CallerOk.mono {cfg : Cfg} {C C' : Pass → List ℤ → Prop} {f : Fields} {pc : Pc} (h : CallerOk cfg C f pc)
    (hC : pc.passing = true → ∀ p xs, xs <+: f.haveLockNum ++ pc.pending → C p xs → C' p xs) :
    CallerOk cfg C' f pc := by
  have hC' : pc.passing = true → ∀ p, C p f.haveLockNum → C' p f.haveLockNum :=
    fun hp p => hC hp p _ (List.prefix_append _ _)
  cases pc with
  | done res =>
    cases res with
    | false => trivial
    | true => obtain ⟨p, h1, h2⟩ := h; exact ⟨p, hC' rfl _ h1, h2⟩
  | mainStart c => exact h
  | mainShuffle c start => exact ⟨h.1, fun v hv => hC rfl _ _ List.nil_prefix (h.2 v hv)⟩
  | mainTest c p | mainTimeout c p => exact ⟨hC' rfl _ h.1, h.2⟩
  | mainLock c p | mainSelect c p | mainSet c p => exact ⟨hC' rfl _ h.1, h.2⟩
  | mainUnlock c p r | mainResult c p r =>
    obtain ⟨h1, h2, h3, h4⟩ := h
    refine ⟨hC' rfl _ h1, h2, h3, fun hr => hC rfl _ _ ?_ (h4 hr)⟩
    simp [Pc.pending, hr]
  | mainQuorum c p => exact hC' rfl _ h
  | mainValidity c p | mainAcceptLock c p | mainAccept c p | mainAcceptUnlock c p => exact ⟨hC' rfl _ h.1, h.2⟩
  | _ => trivial

theorem Pass.host_mem {p : Pass} (h : p.lockIndex < p.tempVec.length) : p.host ∈ p.tempVec := by
  unfold Pass.host
  simp [List.getD_eq_getElem?_getD, List.getElem?_eq_getElem h]

theorem Pass.take_next {p : Pass} (h : p.lockIndex < p.tempVec.length) :
    p.tempVec.take (p.lockIndex + 1) = p.tempVec.take p.lockIndex ++ [p.host] := by
  rw [List.take_succ_eq_append_getElem h]
  simp [Pass.host, List.getD_eq_getElem?_getD, List.getElem?_eq_getElem h]

/-- What is left to show of an instruction at `pc` for the assertion to hold after it. -/
def CountsOn (cfg : Cfg) (C : Pass → List ℤ → Prop) (f : Fields) (pc : Pc) : Instr → Prop
  | .tau f' pc' => CallerOk cfg C f' pc'
  | .lock pc' | .unlock pc' => CallerOk cfg C f pc'
  | .call _ k => ∀ r, (r = .kSetKeySucceed → ∀ c p, pc = .mainSet c p → C p.next (f.haveLockNum ++ [p.host])) →
      CallerOk cfg C f (k r)
  | .clock k => ∀ t, (∀ v, v.Perm cfg.hosts → C ⟨u64 t, v, 0, false⟩ []) → CallerOk cfg C f (k t)
  | .shuffle k => ∀ v, v.Perm cfg.hosts → CallerOk cfg C f (k v)
  | .pushEvent f' _ pc' => CallerOk cfg C f' pc'
  | .ret _ | .throw => True

/-- **The code counts on.** -/
theorem code_callerOk {cfg : Cfg} {C : Pass → List ℤ → Prop} {f : Fields} {pc : Pc} (hC : PassAssertion C)
    (h : CallerOk cfg C f pc) : CountsOn cfg C f pc (code cfg f pc) := by
  cases pc with
  | clear c => rfl
  | failed c =>
    cases c with
    | tryLockFor expire start => simp only [code]; intro t _; beta_reduce; split <;> trivial
    | _ => trivial
  | mainStart c => intro t ht; exact ⟨h, ht⟩
  | mainShuffle c start => intro v hv; exact ⟨h.1 ▸ h.2 v hv, hv⟩
  | mainTest c p =>
    simp only [code, mainTest]
    split
    · rename_i hlt; exact ⟨h.1, h.2, hlt⟩
    · exact h.1
  | mainLock c p =>
    simp only [code]
    split
    · trivial
    · exact h
  | mainSelect c p =>
    simp only [code]
    intro r _
    beta_reduce
    split
    · exact h
    · exact ⟨hC.owns true (hC.next h.1), h.2.1⟩
  | mainSet c p => intro r hr; exact ⟨h.1, h.2.1, h.2.2, fun hs => hr hs c p rfl⟩
  | mainUnlock c p r =>
    exact ⟨hC.owns false h.1, h.2.1, h.2.2.1, fun hr => hC.owns false (h.2.2.2 hr)⟩
  | mainResult c p r =>
    simp only [code, mainResult]
    split
    · exact ⟨h.2.2.2 rfl, h.2.1⟩
    · exact ⟨hC.next h.1, h.2.1⟩
    · exact ⟨h.1, h.2.1⟩
  | mainTimeout c p =>
    simp only [code]
    intro t _
    beta_reduce
    split
    · exact ⟨hC.next h.1, h.2⟩
    · exact h
  | mainQuorum c p =>
    simp only [code]
    split
    · rename_i hq; exact ⟨h, hq⟩
    · trivial
  | mainValidity c p =>
    simp only [code]
    intro t _
    beta_reduce
    split
    · exact h
    · trivial
  | mainAcceptLock c p =>
    simp only [code]
    split
    · trivial
    · exact h
  | mainAccept c p => exact h
  | mainAcceptUnlock c p => exact ⟨p, h.1, h.2⟩
  | unlockSelect c rest n =>
    cases rest with
    | nil => cases c <;> trivial
    | cons host rest => simp only [code]; intro r _; beta_reduce; split <;> trivial
  | keepCheck =>
    simp only [code, keepCheck]
    split
    · trivial
    · split <;> trivial
  | keepTest owns n =>
    simp only [code, keepTest]
    split
    · trivial
    · split <;> trivial
  | keepRelock owns n => simp only [code]; split <;> trivial
  | keepSelect n =>
    simp only [code]
    split
    · trivial
    · intro r _; beta_reduce; split <;> trivial
  | _ => simp [code, CountsOn, CallerOk]

/-! ## The successes of a pass -/

/-- The host that a call at `pc` with the result `r` is a success of `SetKeyValue` on. -/
def Pc.wins : Pc → DBResult → List ℤ
  | .mainSet _ p, .kSetKeySucceed => [p.host]
  | _, _ => []

/-- What an instruction does to the successes that are in `have_lock_num_` or pending: within a pass, only a
call can add one. -/
def Tallies (f : Fields) (pc : Pc) : Instr → Prop
  | .tau f' pc' | .pushEvent f' _ pc' => pc'.passing = true →
      pc.passing = true ∧ f'.haveLockNum ++ pc'.pending = f.haveLockNum ++ pc.pending
  | .lock pc' | .unlock pc' => pc'.passing = true → pc.passing = true ∧ pc'.pending = pc.pending
  | .call _ k => ∀ r, (k r).passing = true → pc.passing = true ∧ pc.pending = [] ∧ (k r).pending = pc.wins r
  | .clock k => ∀ t, (k t).passing = true →
      (k t).pending = [] ∧ ((∃ c, pc = .mainStart c) ∨ (pc.passing = true ∧ pc.pending = []))
  | .shuffle k => ∀ v, (k v).passing = true → pc.passing = true ∧ pc.pending = [] ∧ (k v).pending = []
  | .ret _ | .throw => True

theorem code_tallies (cfg : Cfg) (f : Fields) (pc : Pc) : Tallies f pc (code cfg f pc) := by
  cases pc with
  | failed c =>
    cases c with
    | tryLockFor expire start => simp only [code]; intro t; beta_reduce; split <;> (intro h; cases h)
    | _ => intro h; cases h
  | mainStart c => intro t _; exact ⟨rfl, .inl ⟨c, rfl⟩⟩
  | mainShuffle c start => intro v _; exact ⟨rfl, rfl, rfl⟩
  | mainTest c p => simp only [code, mainTest]; split <;> exact fun _ => ⟨rfl, rfl⟩
  | mainLock c p =>
    simp only [code]
    split
    · trivial
    · exact fun _ => ⟨rfl, rfl⟩
  | mainSelect c p => simp only [code]; intro r; beta_reduce; split <;> exact fun _ => ⟨rfl, rfl, rfl⟩
  | mainSet c p =>
    intro r _
    refine ⟨rfl, rfl, ?_⟩
    cases r <;> rfl
  | mainUnlock c p r => exact fun _ => ⟨rfl, rfl⟩
  | mainResult c p r =>
    simp only [code, mainResult]
    split
    · exact fun _ => ⟨rfl, by simp [Pc.pending]⟩
    · exact fun _ => ⟨rfl, rfl⟩
    · rename_i h1 _
      have hne : r ≠ .kSetKeySucceed := h1
      exact fun _ => ⟨rfl, by simp [Pc.pending, hne]⟩
  | mainTimeout c p => simp only [code]; intro t; beta_reduce; split <;> exact fun _ => ⟨rfl, .inr ⟨rfl, rfl⟩⟩
  | mainQuorum c p =>
    simp only [code]
    split
    · exact fun _ => ⟨rfl, rfl⟩
    · intro h; cases h
  | mainValidity c p =>
    simp only [code]
    intro t
    beta_reduce
    split
    · exact fun _ => ⟨rfl, .inr ⟨rfl, rfl⟩⟩
    · intro h; cases h
  | mainAcceptLock c p =>
    simp only [code]
    split
    · trivial
    · exact fun _ => ⟨rfl, rfl⟩
  | mainAccept c p => exact fun _ => ⟨rfl, rfl⟩
  | mainAcceptUnlock c p => exact fun _ => ⟨rfl, rfl⟩
  | unlockSelect c rest m =>
    cases rest with
    | nil => cases c <;> (intro h; cases h)
    | cons host rest => simp only [code]; intro r; beta_reduce; split <;> (intro h; cases h)
  | keepCheck =>
    simp only [code, keepCheck]
    split
    · intro h; cases h
    · split <;> (intro h; cases h)
  | keepTest owns m =>
    simp only [code, keepTest]
    split
    · intro h; cases h
    · split <;> (intro h; cases h)
  | keepRelock owns m =>
    simp only [code]
    split
    · trivial
    · intro h; cases h
  | keepSelect m =>
    simp only [code]
    split
    · trivial
    · intro r; beta_reduce; split <;> (intro h; cases h)
  | _ => simp [code, Tallies, Pc.passing]

end DistributedLock.DMutex
