import DistributedLock.Cluster.Callers

/-!
# The databases a pass has won

`tally` collects, for each object, the databases on which `SET NX` succeeded in its last pass.  In a pass that began
with `have_lock_num_` empty these are the hosts in `have_lock_num_`, and the one about to be added (`WonInv`).
-/

set_option linter.unusedSectionVars false

namespace DistributedLock.Cluster

open Lib Redis DMutex

variable {D : DBInterface} {inside : DBOp → D.Pc → Prop} {ι π ω : Type} [DecidableEq ι] [DecidableEq π]
  [DecidableEq ω] {O : Objects ι π} {C : State D ι π ω → ι → Pass → List ℤ → Prop} {s s' : State D ι π ω}
  {won : ι → List ℤ}

/-- What a step of a caller, from one program point to the next, does to the records of the databases won: a pass
begins with none, and a `SET NX` that succeeds adds the record `x`. -/
def tallyPc {α : Type} (x : α) (xs : List α) : Pc → Option Pc → List α
  | .mainStart _, _ => []
  | .mainSet _ _, some (.mainUnlock _ _ r) => if r = .kSetKeySucceed then xs ++ [x] else xs
  | _, _ => xs

theorem tallyPc_map {α β : Type} (g : α → β) (x : α) (xs : List α) (pc : Pc) (pc' : Option Pc) :
    (tallyPc x xs pc pc').map g = tallyPc (g x) (xs.map g) pc pc' := by
  unfold tallyPc
  split
  · rfl
  · split <;> simp
  · rfl

def tally (s _ : State D ι π ω) (i : ι) : List ℤ → Pc → Option Pc → List ℤ := tallyPc (s.conn i)

/-- In a pass, the databases won are those in `have_lock_num_` and the one about to be added. -/
def WonInv (s : State D ι π ω) (won : ι → List ℤ) : Prop :=
  ∀ i fr, s.thr (.caller i) = some fr → fr.pc.passing = true → won i = (s.fields i).haveLockNum ++ fr.pc.pending

/-- A program point that neither starts a pass nor calls `SetKeyValue` adds nothing. -/
theorem tallyPc_of_ne {α : Type} {x : α} {xs : List α} {pc : Pc} {pc' : Option Pc} (hstart : ∀ c, pc ≠ .mainStart c)
    (hset : ∀ c p, pc ≠ .mainSet c p) : tallyPc x xs pc pc' = xs := by
  unfold tallyPc
  split
  · exact absurd rfl (hstart _)
  · exact absurd rfl (hset _ _)
  · rfl

theorem tallyPc_stay {db : ℤ} {xs : List ℤ} {pc : Pc} (hp : pc.passing = true) :
    tallyPc db xs pc (some pc) = xs := by
  cases pc with
  | mainStart c => cases hp
  | _ => rfl

theorem tallyPc_call {cfg : Cfg} {f : Fields} {pc : Pc} {op : DBOp} {k : DBResult → Pc}
    (hc : code cfg f pc = .call op k) (r : DBResult) {db : ℤ} (hdb : ∀ c p, pc = .mainSet c p → db = p.host)
    (xs : List ℤ) : tallyPc db xs pc (some (k r)) = xs ++ pc.wins r := by
  by_cases hset : ∃ c p, pc = .mainSet c p
  · obtain ⟨c, p, rfl⟩ := hset
    simp only [code, Instr.call.injEq] at hc
    obtain ⟨-, rfl⟩ := hc
    rw [hdb c p rfl]
    cases r <;> simp [tallyPc, Pc.wins]
  · push Not at hset
    have hw : pc.wins r = [] := by
      cases pc with
      | mainSet c p => exact absurd rfl (hset c p)
      | _ => rfl
    rw [tallyPc_of_ne ?_ hset, hw, List.append_nil]
    rintro c rfl
    cases hc

namespace WonInv

theorem goOn {i : ι} (h : WonInv s won) {inp : Input} {fr fr' : Frame D}
    (hfr : s.thr (.caller i) = some fr) (hpass : fr.pc.passing = true) (hset : ∀ c p, fr.pc ≠ .mainSet c p)
    (heq : (s'.fields i).haveLockNum ++ fr'.pc.pending = (s.fields i).haveLockNum ++ fr.pc.pending) :
    atCaller tally s (.act (.caller i) inp) s' won i = (s'.fields i).haveLockNum ++ fr'.pc.pending := by
  have hstart : ∀ c, fr.pc ≠ .mainStart c := by
    intro c hc
    rw [hc] at hpass
    cases hpass
  rw [atCaller_self hfr, tally, tallyPc_of_ne hstart hset, heq]
  exact h i fr hfr hpass

theorem act (h : WonInv s won) (hconn : ConnInv inside O s) (hcallers : CallersOk O C s)
    {i : ι} {inp : Input} (hs : Cluster.act O s (.caller i) inp = some s') {fr' : Frame D}
    (hfr' : s'.thr (.caller i) = some fr') (hp' : fr'.pc.passing = true) :
    atCaller tally s (.act (.caller i) inp) s' won i = (s'.fields i).haveLockNum ++ fr'.pc.pending := by
  obtain ⟨fr, hfr, ha⟩ := act_cases hs
  have ht := code_tallies (O.cfg i) (s.fields i) fr.pc
  have hset : ∀ {instr : Instr}, code (O.cfg i) (s.fields i) fr.pc = instr → (∀ op k, instr ≠ .call op k) →
      ∀ c p, fr.pc ≠ .mainSet c p := by
    rintro instr hc hne c p hpc
    rw [hpc] at hc
    exact hne _ _ hc.symm
  cases ha with
  | tau hc =>
    simp only [Thread.obj] at hc
    rw [hc] at ht
    simp at hfr'
    subst hfr'
    obtain ⟨h1, h2⟩ := ht hp'
    exact h.goOn hfr h1 (hset hc (by simp)) (by simpa [Thread.obj] using h2)
  | lock hc hfree =>
    simp only [Thread.obj] at hc
    rw [hc] at ht
    simp at hfr'
    subst hfr'
    obtain ⟨h1, h2⟩ := ht hp'
    exact h.goOn hfr h1 (hset hc (by simp)) (by simpa [Thread.obj] using h2)
  | unlock hc =>
    simp only [Thread.obj] at hc
    rw [hc] at ht
    simp at hfr'
    subst hfr'
    obtain ⟨h1, h2⟩ := ht hp'
    exact h.goOn hfr h1 (hset hc (by simp)) (by simpa [Thread.obj] using h2)
  | @more op k fault q hc hr =>
    simp only [State.goto_thr, Function.update_self, Option.some.injEq] at hfr'
    subst hfr'
    rw [atCaller_self hfr, tally]
    simp only [State.goto_thr, Function.update_self, Option.map_some]
    rw [tallyPc_stay hp']
    exact h i fr hfr hp'
  | @done op k fault r hc hr =>
    simp only [Thread.obj] at hc
    rw [hc] at ht
    simp only [State.goto_thr, Function.update_self, Option.some.injEq] at hfr'
    subst hfr'
    obtain ⟨h1, h2, h3⟩ := ht r hp'
    rw [atCaller_self hfr, tally]
    simp only [State.goto_thr, Function.update_self, Option.map_some]
    have hdb : ∀ c p, fr.pc = .mainSet c p → s.conn i = p.host :=
      fun c p hpc => hconn.selected (.caller i) fr p.host hfr (by rw [hpc]; rfl)
    rw [tallyPc_call hc r hdb, h i fr hfr h1, h2, h3, List.append_nil]
    rfl
  | raise hc hr => simp at hfr'
  | @clock k t hc =>
    simp only [Thread.obj] at hc
    rw [hc] at ht
    simp at hfr'
    subst hfr'
    obtain ⟨h1, ⟨c, hpc⟩ | ⟨h2, h3⟩⟩ := ht t hp'
    · -- the pass begins, with `have_lock_num_` empty
      have hempty := hcallers i fr hfr
      rw [hpc] at hempty
      replace hempty : (s.fields i).haveLockNum = [] := hempty
      rw [atCaller_self hfr, hpc]
      simp [tally, tallyPc, h1, hempty]
    · exact h.goOn hfr h2 (hset hc (by simp)) (by simp [h1, h3])
  | shuffle hc hv =>
    simp only [Thread.obj] at hc
    rw [hc] at ht
    simp at hfr'
    subst hfr'
    obtain ⟨h1, h2, h3⟩ := ht _ hp'
    exact h.goOn hfr h1 (hset hc (by simp)) (by simp [h2, h3])
  | pushEvent hc =>
    simp only [Thread.obj] at hc
    rw [hc] at ht
    simp at hfr'
    subst hfr'
    obtain ⟨h1, h2⟩ := ht hp'
    exact h.goOn hfr h1 (hset hc (by simp)) (by simpa [Thread.obj] using h2)
  | ret hc => simp at hfr'
  | throw hc => simp at hfr'

theorem step (h : WonInv s won) (hkind : KindInv s) (hconn : ConnInv inside O s)
    (hcallers : CallersOk O C s) {l : Label ι ω} (hs : next O s l = some s') :
    WonInv s' (atCaller tally s l s' won) := by
  intro i fr' hfr' hp'
  by_cases hact : ∃ inp, l = .act (.caller i) inp
  · obtain ⟨inp, rfl⟩ := hact
    exact h.act hconn hcallers hs hfr' hp'
  · push Not at hact
    rw [atCaller_other hact]
    by_cases hcall : ∃ c, l = .call i c
    · obtain ⟨c, rfl⟩ := hcall
      -- no method begins inside a pass
      rcases next_cases hs with ⟨_, hl, -⟩ | ⟨_, _, hl, -, rfl⟩ | ⟨_, _, hl, -⟩ | ⟨_, _, hl, -⟩ <;> cases hl
      simp only [State.enter_thr, Function.update_self, Option.some.injEq] at hfr'
      subst hfr'
      cases c <;> cases hp'
    · push Not at hcall
      obtain ⟨hthr, hf⟩ := next_other hkind hs hcall hact
      rw [hf]
      exact h i fr' (hthr ▸ hfr') hp'

end WonInv

end DistributedLock.Cluster
