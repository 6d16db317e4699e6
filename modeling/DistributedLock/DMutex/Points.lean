import DistributedLock.DMutex.Code

/-!
# What the program points tell

Facts about the code alone, one lemma for each, proved by going through the program points:

* `Pc.owned`, `code_keeps`: where a thread owns `mtx_`;
* `Pc.target`, `Pc.keyed`, `code_aims`: the host a loop is working on between `SelectDB` and the operation on
  the key, and that operation;
* `Instr.LeadsTo`: the program points an instruction leads to;
* `Pc.keep`, `code_keep`: `KeepLock` stays in `KeepLock`, and writes no member; `keepCheck_of_leadsTo`: where it
  returns false;
* `Pc.onBehalf`, `code_onBehalf`: `MainLockFunction` does the same whichever method calls it.
-/

namespace DistributedLock.DMutex

open Lib Redis

/-! ## Who owns `mtx_` -/

/-- The thread owns `mtx_` at this program point. -/
def Pc.owned : Pc → Bool
  | .mainTest _ p | .mainLock _ p | .mainResult _ p _ | .mainTimeout _ p => p.owns
  | .mainQuorum _ p | .mainValidity _ p | .mainAcceptLock _ p => p.owns
  | .mainSelect .. | .mainSet .. | .mainUnlock .. | .mainAccept .. | .mainAcceptUnlock .. => true
  | .unlockLock _ owns => owns
  | .unlockFlags .. | .unlockSelect .. | .unlockDel .. => true
  | .keepTest owns _ | .keepRelock owns _ => owns
  | .keepCheck | .keepSelect .. | .keepUpdate .. | .keepUnlock .. => true
  | _ => false

/-- What each instruction does to the ownership of `mtx_`, starting from `owned`. -/
def Keeps (owned : Bool) : Instr → Prop
  | .tau _ pc => pc.owned = owned
  | .lock pc => pc.owned = true
  | .unlock pc => owned = true ∧ pc.owned = false
  | .call _ k => owned = true ∧ ∀ r, (k r).owned = true
  | .clock k => ∀ t, (k t).owned = owned
  | .shuffle k => ∀ v, (k v).owned = owned
  | .pushEvent _ _ pc => owned = true ∧ pc.owned = true
  | .ret _ => owned = false
  | .throw => True

theorem afterUnlockAll_owned (res : Bool) (c : Option Caller) : (afterUnlockAll res c).owned = false := by
  cases c <;> rfl

theorem code_keeps (cfg : Cfg) (f : Fields) (pc : Pc) : Keeps pc.owned (code cfg f pc) := by
  cases pc with
  | failed c =>
    cases c with
    | tryLockFor expire start => simp only [code]; intro t; beta_reduce; split <;> rfl
    | _ => rfl
  | mainTest c p => simp only [code, mainTest]; split <;> rfl
  | mainLock c p => simp only [code]; split <;> trivial
  | mainSelect c p => simp only [code]; refine ⟨rfl, fun r => ?_⟩; beta_reduce; split <;> rfl
  | mainResult c p r => simp only [code, mainResult]; split <;> rfl
  | mainTimeout c p => simp only [code]; intro t; beta_reduce; split <;> rfl
  | mainQuorum c p => simp only [code]; split <;> rfl
  | mainValidity c p => simp only [code]; intro t; beta_reduce; split <;> rfl
  | mainAcceptLock c p => simp only [code]; split <;> trivial
  | unlockSelect c rest n =>
    cases rest with
    | nil => exact ⟨rfl, afterUnlockAll_owned _ c⟩
    | cons host rest => simp only [code]; refine ⟨rfl, fun r => ?_⟩; beta_reduce; split <;> rfl
  | keepCheck =>
    simp only [code, keepCheck]
    split
    · exact ⟨rfl, rfl⟩
    · split <;> exact ⟨rfl, rfl⟩
  | keepTest owns n =>
    simp only [code, keepTest]
    split
    · rfl
    · cases owns <;> simp [Keeps, Pc.owned]
  | keepRelock owns n => simp only [code]; split <;> trivial
  | keepSelect n =>
    simp only [code]
    split
    · trivial
    · refine ⟨rfl, fun r => ?_⟩; beta_reduce; split <;> rfl
  | _ => simp [code, Keeps, Pc.owned]

/-! ## Which database a thread works on -/

/-- The host the loop is working on, between `SelectDB` and the operation on the key. -/
def Pc.target : Pc → Option ℤ
  | .mainSet _ p => some p.host
  | .unlockDel _ host _ _ => some host
  | .keepUpdate _ host => some host
  | _ => none

/-- The operation on the key that the program point calls. -/
def Pc.keyed (cfg : Cfg) : Pc → Option DBOp
  | .mainSet .. => some (.setKeyValue cfg.key cfg.value cfg.lockValidityTime)
  | .unlockDel .. => some (.delKeyValue cfg.key cfg.value)
  | .keepUpdate .. => some (.updateExpire cfg.key cfg.value cfg.lockValidityTime)
  | _ => none

/-- An instruction at `pc` aims right: only a successful `SelectDB` leads to an operation on the key, of the
host selected, and no other instruction does. -/
def Aims (cfg : Cfg) (pc : Pc) : Instr → Prop
  | .call op k =>
    (∃ index, op = .selectDB index ∧
      ∀ r h, (k r).target = some h → r = .kSelectDBSucceed ∧ h = index) ∨
    ((∀ index, op ≠ .selectDB index) ∧ pc.keyed cfg = some op ∧ ∀ r, (k r).target = none)
  | .tau _ pc' | .lock pc' | .unlock pc' | .pushEvent _ _ pc' => pc'.target = none
  | .clock k => ∀ t, (k t).target = none
  | .shuffle k => ∀ v, (k v).target = none
  | .ret _ | .throw => True

theorem afterUnlockAll_target (res : Bool) (c : Option Caller) : (afterUnlockAll res c).target = none := by
  cases c <;> rfl

theorem code_aims (cfg : Cfg) (f : Fields) (pc : Pc) : Aims cfg pc (code cfg f pc) := by
  cases pc with
  | failed c =>
    cases c with
    | tryLockFor expire start => simp only [code]; intro t; beta_reduce; split <;> rfl
    | _ => rfl
  | mainTest c p => simp only [code, mainTest]; split <;> rfl
  | mainLock c p => simp only [code]; split <;> trivial
  | mainSelect c p =>
    refine .inl ⟨p.host, rfl, fun r h hh => ?_⟩
    beta_reduce at hh
    split at hh
    · rename_i hr; exact ⟨hr, by simpa [Pc.target] using hh.symm⟩
    · cases hh
  | mainSet c p => exact .inr ⟨by simp, rfl, fun r => rfl⟩
  | mainResult c p r => simp only [code, mainResult]; split <;> rfl
  | mainTimeout c p => simp only [code]; intro t; beta_reduce; split <;> rfl
  | mainQuorum c p => simp only [code]; split <;> rfl
  | mainValidity c p => simp only [code]; intro t; beta_reduce; split <;> rfl
  | mainAcceptLock c p => simp only [code]; split <;> trivial
  | unlockSelect c rest n =>
    cases rest with
    | nil => exact afterUnlockAll_target _ c
    | cons host rest =>
      refine .inl ⟨host, rfl, fun r h hh => ?_⟩
      beta_reduce at hh
      split at hh
      · rename_i hr; exact ⟨hr, by simpa [Pc.target] using hh.symm⟩
      · cases hh
  | unlockDel c host rest n => exact .inr ⟨by simp, rfl, fun r => rfl⟩
  | keepCheck =>
    simp only [code, keepCheck]
    split
    · rfl
    · split <;> rfl
  | keepTest owns n =>
    simp only [code, keepTest]
    split
    · rfl
    · split <;> rfl
  | keepRelock owns n => simp only [code]; split <;> trivial
  | keepSelect n =>
    simp only [code]
    split
    · trivial
    · rename_i host _
      refine .inl ⟨host, rfl, fun r h hh => ?_⟩
      beta_reduce at hh
      split at hh
      · rename_i hr; exact ⟨hr, by simpa [Pc.target] using hh.symm⟩
      · cases hh
  | keepUpdate n host => exact .inr ⟨by simp, rfl, fun r => rfl⟩
  | _ => simp [code, Aims, Pc.target]

theorem Pc.owned_of_target {pc : Pc} {h : ℤ} (ht : pc.target = some h) : pc.owned = true := by
  cases pc <;> first | rfl | cases ht

theorem Pc.target_of_keyed {cfg : Cfg} {pc : Pc} {op : DBOp} (h : pc.keyed cfg = some op) :
    ∃ host, pc.target = some host := by
  cases pc <;> first | exact ⟨_, rfl⟩ | cases h

theorem code_call {cfg : Cfg} {f : Fields} {pc : Pc} {op : DBOp} {k : DBResult → Pc}
    (h : code cfg f pc = .call op k) :
    (∃ index, op = .selectDB index) ∨
    (∃ c p, pc = .mainSet c p ∧ op = .setKeyValue cfg.key cfg.value cfg.lockValidityTime) ∨
    (∃ c host rest n, pc = .unlockDel c host rest n ∧ op = .delKeyValue cfg.key cfg.value) ∨
    ∃ i host, pc = .keepUpdate i host ∧ op = .updateExpire cfg.key cfg.value cfg.lockValidityTime := by
  have ha := code_aims cfg f pc
  rw [h] at ha
  rcases ha with ⟨index, rfl, -⟩ | ⟨-, hk, -⟩
  · exact .inl ⟨index, rfl⟩
  · cases pc with
    | mainSet c p => cases hk; exact .inr (.inl ⟨c, p, rfl, rfl⟩)
    | unlockDel c host rest n => cases hk; exact .inr (.inr (.inl ⟨c, host, rest, n, rfl, rfl⟩))
    | keepUpdate i host => cases hk; exact .inr (.inr (.inr ⟨i, host, rfl, rfl⟩))
    | _ => cases hk

theorem code_pushEvent {cfg : Cfg} {f f' : Fields} {pc pc' : Pc} {period : ℤ}
    (h : code cfg f pc = .pushEvent f' period pc') :
    ∃ c p, pc = .mainAccept c p ∧ f' = { f with lockStatus := true, lockContinue := true } ∧
      period = cfg.runTime.tdiv 3 * 2 ∧ pc' = .mainAcceptUnlock c p := by
  cases pc with
  | mainAccept c p => cases h; exact ⟨c, p, rfl, rfl, rfl, rfl⟩
  | failed c => cases c <;> cases h
  | mainTest c p => simp only [code, mainTest] at h; split at h <;> cases h
  | mainResult c p r => simp only [code, mainResult] at h; split at h <;> cases h
  | mainLock c p | mainQuorum c p | mainAcceptLock c p | keepRelock owns m =>
    simp only [code] at h
    split at h <;> cases h
  | unlockSelect c rest m => cases rest <;> cases h
  | keepCheck =>
    simp only [code, keepCheck] at h
    split at h
    · cases h
    · split at h <;> cases h
  | keepTest owns m =>
    simp only [code, keepTest] at h
    split at h
    · cases h
    · split at h <;> cases h
  | keepSelect m => simp only [code] at h; split at h <;> cases h
  | _ => cases h

theorem code_ret {cfg : Cfg} {f : Fields} {pc : Pc} {res : Bool} (h : code cfg f pc = .ret res) :
    pc = .done res ∨ pc = .unlocked res ∨ pc = .kept res := by
  cases pc with
  | done res' => cases h; exact .inl rfl
  | unlocked res' => cases h; exact .inr (.inl rfl)
  | kept res' => cases h; exact .inr (.inr rfl)
  | failed c => cases c <;> cases h
  | mainTest c p => simp only [code, mainTest] at h; split at h <;> cases h
  | mainResult c p r => simp only [code, mainResult] at h; split at h <;> cases h
  | mainLock c p | mainQuorum c p | mainAcceptLock c p | keepRelock owns m =>
    simp only [code] at h
    split at h <;> cases h
  | unlockSelect c rest m => cases rest <;> cases h
  | keepCheck =>
    simp only [code, keepCheck] at h
    split at h
    · cases h
    · split at h <;> cases h
  | keepTest owns m =>
    simp only [code, keepTest] at h
    split at h
    · cases h
    · split at h <;> cases h
  | keepSelect m => simp only [code] at h; split at h <;> cases h
  | _ => cases h

/-! ## Where an instruction leads -/

def Instr.LeadsTo : Instr → Pc → Prop
  | .tau _ pc, pc' | .lock pc, pc' | .unlock pc, pc' | .pushEvent _ _ pc, pc' => pc' = pc
  | .call _ k, pc' => ∃ r, pc' = k r
  | .clock k, pc' => ∃ t, pc' = k t
  | .shuffle k, pc' => ∃ v, pc' = k v
  | .ret _, _ | .throw, _ => False

/-! ## The renewal worker -/

/-- The program points of `KeepLock`. -/
def Pc.keep : Pc → Bool
  | .keepLock | .keepCheck | .keepTest .. | .keepRelock .. | .keepSelect .. | .keepUpdate .. | .keepUnlock ..
  | .kept _ => true
  | _ => false

/-- An instruction leads from `KeepLock` to `KeepLock` without writing a member, and from the other methods to
the other methods. -/
def Stays (keep : Bool) (f : Fields) : Instr → Prop
  | .tau f' pc => pc.keep = keep ∧ (keep = true → f' = f)
  | .lock pc | .unlock pc => pc.keep = keep
  | .call _ k => ∀ r, (k r).keep = keep
  | .clock k => ∀ t, (k t).keep = keep
  | .shuffle k => ∀ v, (k v).keep = keep
  | .pushEvent _ _ pc => pc.keep = keep ∧ keep = false
  | .ret _ | .throw => True

theorem afterUnlockAll_keep (res : Bool) (c : Option Caller) : (afterUnlockAll res c).keep = false := by
  cases c <;> rfl

theorem code_keep (cfg : Cfg) (f : Fields) (pc : Pc) : Stays pc.keep f (code cfg f pc) := by
  cases pc with
  | failed c =>
    cases c with
    | tryLockFor expire start => simp only [code]; intro t; beta_reduce; split <;> rfl
    | _ => exact ⟨rfl, fun h => by cases h⟩
  | mainTest c p => simp only [code, mainTest]; split <;> exact ⟨rfl, fun h => by cases h⟩
  | mainLock c p => simp only [code]; split <;> trivial
  | mainSelect c p => simp only [code]; intro r; beta_reduce; split <;> rfl
  | mainResult c p r => simp only [code, mainResult]; split <;> exact ⟨rfl, fun h => by cases h⟩
  | mainTimeout c p => simp only [code]; intro t; beta_reduce; split <;> rfl
  | mainQuorum c p => simp only [code]; split <;> exact ⟨rfl, fun h => by cases h⟩
  | mainValidity c p => simp only [code]; intro t; beta_reduce; split <;> rfl
  | mainAcceptLock c p => simp only [code]; split <;> trivial
  | unlockSelect c rest n =>
    cases rest with
    | nil => exact afterUnlockAll_keep _ c
    | cons host rest => simp only [code]; intro r; beta_reduce; split <;> rfl
  | keepCheck =>
    simp only [code, keepCheck]
    split
    · rfl
    · split <;> rfl
  | keepTest owns n =>
    simp only [code, keepTest]
    split
    · exact ⟨rfl, fun _ => rfl⟩
    · split
      · rfl
      · exact ⟨rfl, fun _ => rfl⟩
  | keepRelock owns n => simp only [code]; split <;> trivial
  | keepSelect n =>
    simp only [code]
    split
    · trivial
    · intro r; beta_reduce; split <;> rfl
  | _ => simp [code, Stays, Pc.keep]

theorem keep_of_leadsTo {cfg : Cfg} {f : Fields} {pc pc' : Pc} (h : (code cfg f pc).LeadsTo pc') :
    pc'.keep = pc.keep := by
  have hst := code_keep cfg f pc
  cases hc : code cfg f pc with
  | tau f' pc₁ | pushEvent f' period pc₁ =>
    rw [hc] at h hst
    obtain rfl := h
    exact hst.1
  | lock pc₁ | unlock pc₁ =>
    rw [hc] at h hst
    obtain rfl := h
    exact hst
  | call op k | clock k | shuffle k =>
    rw [hc] at h hst
    obtain ⟨r, rfl⟩ := h
    exact hst r
  | ret res | throw => rw [hc] at h; exact h.elim

/-- `KeepLock` returns false only by its test of `lock_continue_`. -/
theorem keepCheck_of_leadsTo {cfg : Cfg} {f : Fields} {pc : Pc} (h : (code cfg f pc).LeadsTo (.kept false)) :
    pc = .keepCheck ∧ f.lockContinue = false := by
  have hkeep : pc.keep = true := (keep_of_leadsTo h).symm
  cases pc with
  | keepCheck =>
    refine ⟨rfl, ?_⟩
    by_contra hcont
    simp only [code, keepCheck, hcont, if_false] at h
    split at h <;> cases h
  | keepTest owns m =>
    simp only [code, keepTest] at h
    split at h
    · cases h
    · split at h <;> cases h
  | keepRelock owns m =>
    simp only [code] at h
    split at h <;> cases h
  | keepSelect m =>
    simp only [code] at h
    split at h
    · cases h
    · obtain ⟨r, hr⟩ := h
      beta_reduce at hr
      split at hr <;> cases hr
  | keepUpdate m host => obtain ⟨r, hr⟩ := h; cases hr
  | keepLock | keepUnlock m r | kept res => cases h
  | _ => cases hkeep

/-! ## The method that calls `MainLockFunction` -/

/-- The program points inside `MainLockFunction`, with its call of `UnlockAll`. -/
def Pc.inMain : Pc → Bool
  | .mainStart _ | .mainShuffle .. | .mainTest .. | .mainLock .. | .mainSelect .. | .mainSet .. | .mainUnlock ..
  | .mainResult .. | .mainTimeout .. | .mainQuorum .. | .mainValidity .. | .mainAcceptLock .. | .mainAccept ..
  | .mainAcceptUnlock .. => true
  | .unlockLock (some _) _ | .unlockFlags (some _) | .unlockSelect (some _) .. | .unlockDel (some _) .. => true
  | _ => false

/-- The same program point, with `c` for the method that called `MainLockFunction`. -/
def Pc.onBehalf (c : Caller) : Pc → Pc
  | .failed _ => .failed c
  | .mainStart _ => .mainStart c
  | .mainShuffle _ start => .mainShuffle c start
  | .mainTest _ p => .mainTest c p
  | .mainLock _ p => .mainLock c p
  | .mainSelect _ p => .mainSelect c p
  | .mainSet _ p => .mainSet c p
  | .mainUnlock _ p r => .mainUnlock c p r
  | .mainResult _ p r => .mainResult c p r
  | .mainTimeout _ p => .mainTimeout c p
  | .mainQuorum _ p => .mainQuorum c p
  | .mainValidity _ p => .mainValidity c p
  | .mainAcceptLock _ p => .mainAcceptLock c p
  | .mainAccept _ p => .mainAccept c p
  | .mainAcceptUnlock _ p => .mainAcceptUnlock c p
  | .unlockLock (some _) owns => .unlockLock (some c) owns
  | .unlockFlags (some _) => .unlockFlags (some c)
  | .unlockSelect (some _) rest m => .unlockSelect (some c) rest m
  | .unlockDel (some _) host rest m => .unlockDel (some c) host rest m
  | pc => pc

def Instr.map (g : Pc → Pc) : Instr → Instr
  | .tau f pc => .tau f (g pc)
  | .lock pc => .lock (g pc)
  | .unlock pc => .unlock (g pc)
  | .call op k => .call op fun r => g (k r)
  | .clock k => .clock fun t => g (k t)
  | .shuffle k => .shuffle fun v => g (k v)
  | .pushEvent f period pc => .pushEvent f period (g pc)
  | .ret res => .ret res
  | .throw => .throw

/-- **`MainLockFunction` does not depend on its caller.** -/
theorem code_onBehalf (cfg : Cfg) (f : Fields) (c : Caller) {pc : Pc} (h : pc.inMain = true) :
    code cfg f (pc.onBehalf c) = (code cfg f pc).map (Pc.onBehalf c) := by
  cases pc with
  | mainTest c' p => simp only [Pc.onBehalf, code, mainTest]; split <;> rfl
  | mainLock c' p | mainAcceptLock c' p => simp only [Pc.onBehalf, code]; split <;> rfl
  | mainSelect c' p =>
    simp only [Pc.onBehalf, code, Instr.map, Instr.call.injEq, true_and]
    funext r
    split <;> rfl
  | mainResult c' p r => simp only [Pc.onBehalf, code, mainResult]; split <;> rfl
  | mainTimeout c' p =>
    simp only [Pc.onBehalf, code, Instr.map, Instr.clock.injEq]
    funext t
    split <;> rfl
  | mainQuorum c' p => simp only [Pc.onBehalf, code]; split <;> rfl
  | mainValidity c' p =>
    simp only [Pc.onBehalf, code, Instr.map, Instr.clock.injEq]
    funext t
    split <;> rfl
  | unlockLock o owns | unlockFlags o | unlockDel o host rest m =>
    cases o with
    | none => cases h
    | some c' => rfl
  | unlockSelect o rest m =>
    cases o with
    | none => cases h
    | some c' =>
      cases rest with
      | nil => rfl
      | cons host rest =>
        simp only [Pc.onBehalf, code, Instr.map, Instr.call.injEq, true_and]
        funext r
        split <;> rfl
  | mainStart _ | mainShuffle _ _ | mainSet _ _ | mainUnlock _ _ _ | mainAccept _ _ | mainAcceptUnlock _ _ => rfl
  | _ => cases h

@[simp] theorem Pc.inMain_onBehalf (c : Caller) (pc : Pc) : (pc.onBehalf c).inMain = pc.inMain := by
  cases pc with
  | unlockLock o _ | unlockFlags o | unlockSelect o _ _ | unlockDel o _ _ _ => cases o <;> rfl
  | _ => rfl

end DistributedLock.DMutex
