import DistributedLock.Wired.Defs

/-!
# The critical section of a thread that waits

`DBRedis` is called with `mtx_` held, which a thread keeps while it waits for the reply (`owned_of_calling`,
`MutexInv.wired`). What it has called is then safe from all other threads, but for one instruction
(`calling_act`): `KeepLock` takes the host of its `SelectDB` from `have_lock_num_`, to which the caller of the
object may append without the mutex, and which it may clear.
-/

set_option linter.unusedSectionVars false

namespace DistributedLock.Wired

open Lib Redis DMutex
open Cluster (Thread Objects Frame Input MutexInv)

variable {databases : ℕ} {ι π ω : Type} [DecidableEq ι] [DecidableEq π] [DecidableEq ω] {O : Objects ι π}
  {w w' : State databases ι π ω} {θ θ' : Thread ι ω} {core core' : Cluster.State (dbRedis databases) ι π ω}
  {fr fr' : Frame (dbRedis databases)} {q : DBRedisPc} {k : DBResult → Pc} {r : Resp.Reply}

/-! ## Calls of the database -/

theorem calling_congr (ht : core'.thr θ = core.thr θ) (hf : core'.fields θ.obj = core.fields θ.obj) :
    calling O core' θ = calling O core θ := by
  simp only [calling, ht, hf]

theorem calling_thr {x : Frame (dbRedis databases) × DBRedisPc × (DBResult → Pc)} (h : calling O core θ = some x) :
    core.thr θ = some x.1 := by
  unfold calling at h
  split at h
  · cases h
  · rename_i fr hfr
    split at h
    · cases h
      exact hfr
    · cases h

/-- A thread that calls the database owns the mutex, and will own it where the result takes it. -/
theorem owned_of_calling (h : calling O core θ = some (fr, q, k)) : fr.pc.owned = true ∧ ∀ res, (k res).owned = true := by
  unfold calling at h
  split at h
  · cases h
  · rename_i fr' _
    have hkeeps := code_keeps (O.cfg θ.obj) (core.fields θ.obj) fr'.pc
    split at h
    · rename_i hcode
      cases h
      rw [hcode] at hkeeps
      exact hkeeps
    · cases h

/-- With its reply a thread stays in the critical section, or leaves its method. -/
theorem owned_of_after (hfr : fr.pc.owned = true) (hk : ∀ res, (k res).owned = true) (h : after fr q k r = some fr') :
    fr'.pc.owned = true := by
  unfold after at h
  split at h
  · cases h
    exact hfr
  · cases h
    exact hk _
  · cases h

/-- **The discipline of `mtx_`** over the connections. -/
theorem mutex_step {l : Label ι ω} (h : MutexInv O w.core) (hs : Steps O w l w') : MutexInv O w'.core := by
  cases hs with
  | tick hn => exact h.step hn
  | call hn => exact h.step hn
  | keep hn => exact h.step hn
  | act _ _ hn => exact h.act hn
  | ask => exact h
  | net => exact h
  | serve => exact ⟨h.owner, h.runs⟩
  | @answer θ fr q k c r p hc _ _ _ =>
    obtain ⟨hown, hk⟩ := owned_of_calling hc
    show MutexInv O (resume O w.core θ (after fr q k r))
    cases hx : after fr q k r with
    | none => exact h.leave rfl rfl
    | some fr' => exact h.goto (calling_thr hc) rfl rfl ((owned_of_after hown hk hx).trans hown.symm) fr'.db

/-! ## What the other threads can change -/

/-- Outside of the critical sections `have_lock_num_` is appended to, or cleared. -/
theorem code_grows {cfg : Cfg} {f f' : Fields} {pc pc' : Pc} (h : code cfg f pc = .tau f' pc') (hown : pc.owned = false)
    (hclear : ∀ c, pc ≠ .clear c) : ∃ l, f'.haveLockNum = f.haveLockNum ++ l := by
  cases pc with
  | clear c => exact absurd rfl (hclear c)
  | unlockFlags | unlockSelect | keepCheck | keepSelect => cases hown
  | failed c => cases c <;> cases h <;> exact ⟨[], (List.append_nil _).symm⟩
  | mainResult c p r =>
    simp only [code, mainResult] at h
    split at h
    · cases h
      exact ⟨[p.host], rfl⟩
    · cases h
      exact ⟨[], (List.append_nil _).symm⟩
    · cases h
      exact ⟨[], (List.append_nil _).symm⟩
  | mainTest | mainQuorum =>
    simp only [code, mainTest] at h
    split at h <;> cases h <;> exact ⟨[], (List.append_nil _).symm⟩
  | keepTest owns n =>
    simp only [code, keepTest] at h
    split at h
    · cases h
      exact ⟨[], (List.append_nil _).symm⟩
    · split at h <;> cases h
      exact ⟨[], (List.append_nil _).symm⟩
  | mainLock | mainAcceptLock | keepRelock =>
    simp only [code] at h
    split at h <;> cases h
  | _ => cases h

theorem call_of_grown {cfg : Cfg} {f f' : Fields} {pc : Pc} {op : DBOp} {k : DBResult → Pc} {l : List ℤ}
    (h : code cfg f pc = .call op k) (hl : f'.haveLockNum = f.haveLockNum ++ l) : code cfg f' pc = .call op k := by
  cases pc with
  | mainSelect | mainSet | unlockDel | keepUpdate => exact h
  | unlockSelect c rest n =>
    cases rest with
    | nil => cases h
    | cons => exact h
  | keepSelect n =>
    simp only [code] at h ⊢
    split at h
    · cases h
    · rename_i host hhost
      rw [hl, Pipeline.getElem?_append_of_eq hhost l]
      exact h
  | failed c => cases c <;> cases h
  | mainTest | mainLock | mainResult | mainQuorum | mainAcceptLock | keepRelock =>
    simp only [code, mainTest, mainResult] at h
    split at h <;> cases h
  | keepCheck | keepTest =>
    simp only [code, keepCheck, keepTest] at h
    split at h
    · cases h
    · split at h <;> cases h
  | _ => cases h

/-- **What a thread has called stays**, whatever the other threads do, unless the caller of its object clears
`have_lock_num_`. -/
theorem calling_act {inp : Input} {x : Frame (dbRedis databases) × DBRedisPc × (DBResult → Pc)} (hm : MutexInv O core)
    (hact : Cluster.act O core θ inp = some core') (hne : θ' ≠ θ) (hc : calling O core θ' = some x)
    (hclear : ∀ fr c, core.thr θ = some fr → fr.pc = .clear c → θ'.obj ≠ θ.obj) : calling O core' θ' = some x := by
  obtain ⟨fr, hfr, ha⟩ := Cluster.act_cases hact
  have hgrow : ∃ l, (core'.fields θ'.obj).haveLockNum = (core.fields θ'.obj).haveLockNum ++ l := by
    by_cases hobj : θ'.obj = θ.obj
    · -- the other thread is in the critical section
      have hout : fr.pc.owned = false := by
        by_contra hown
        exact hne (hm.unique (by rw [hobj]) (calling_thr hc) (owned_of_calling hc).1 hfr (by simpa using hown))
      cases ha with
      | tau hcode =>
        obtain ⟨l, hl⟩ := code_grows hcode hout fun c heq => hclear fr c hfr heq hobj
        exact ⟨l, by simpa [hobj] using hl⟩
      | pushEvent hcode =>
        have hkeeps := code_keeps (O.cfg θ.obj) (core.fields θ.obj) fr.pc
        rw [hcode, hout] at hkeeps
        cases hkeeps.1
      | _ => exact ⟨[], (List.append_nil _).symm⟩
    · cases ha with
      | tau => exact ⟨[], by simp [Function.update_of_ne hobj]⟩
      | pushEvent => exact ⟨[], by simp [Function.update_of_ne hobj]⟩
      | _ => exact ⟨[], (List.append_nil _).symm⟩
  obtain ⟨l, hl⟩ := hgrow
  unfold calling at hc ⊢
  rw [Cluster.act_thr hact hne]
  split at hc
  · cases hc
  · split at hc
    · rename_i hcode
      simp only [call_of_grown hcode hl]
      exact hc
    · cases hc

end DistributedLock.Wired
