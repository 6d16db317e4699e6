import DistributedLock.Wired.Refinement

/-!
# One command at a time

`DBRedis` is called with `mtx_` held, and keeps it while it waits for the reply.  So of the threads of one
process at most one waits (`one_waits`), and although the client can have any number of commands on their way, a
connection of the lock manager has one at most (`one_outstanding`): the pipeline of the client is never used as
one.
-/

set_option linter.unusedSectionVars false

namespace DistributedLock.Wired

open Lib Redis DMutex
open Cluster (Thread Objects Frame Input MutexInv)

variable {databases : ℕ} {ι π ω : Type} [DecidableEq ι] [DecidableEq π] [DecidableEq ω] {O : Objects ι π}
  {w : State databases ι π ω} {θ θ' : Thread ι ω} {i : ι}

theorem WiredInv.waits_owned (h : WiredInv O w) (hθ : (w.pipe i).calls θ ≠ none) :
    θ.obj = i ∧ ∃ fr, w.core.thr θ = some fr ∧ fr.pc.owned = true := by
  obtain ⟨c, hc⟩ := Option.ne_none_iff_exists'.mp hθ
  obtain ⟨hobj, fr, q, k, hcall, -⟩ := h.waits i θ c hc
  exact ⟨hobj, fr, calling_thr hcall, (owned_of_calling hcall).1⟩

theorem WiredInv.eq_of_waits (h : WiredInv O w) {j : ι} (hp : O.proc i = O.proc j) (hθ : (w.pipe i).calls θ ≠ none)
    (hθ' : (w.pipe j).calls θ' ≠ none) : θ = θ' := by
  obtain ⟨rfl, fr, hfr, hown⟩ := h.waits_owned hθ
  obtain ⟨rfl, fr', hfr', hown'⟩ := h.waits_owned hθ'
  exact h.mutex.unique hp hfr hown hfr' hown'

/-- **Of the threads of one process at most one waits for a reply**, on whichever of its connections. -/
theorem one_waits {j : ι} (h : (system O databases ω).Reach Fine w) (hp : O.proc i = O.proc j)
    (hθ : (w.pipe i).calls θ ≠ none) (hθ' : (w.pipe j).calls θ' ≠ none) : θ = θ' :=
  (WiredInv.of_reach h).eq_of_waits hp hθ hθ'

theorem WiredInv.commands_le (h : WiredInv O w) (i : ι) : (w.pipe i).commands.length ≤ 1 := by
  by_contra hlt
  obtain ⟨p, hp⟩ := (h.matching i).delivered (h.calm i).connected
  rw [hp.commands, List.length_range'] at hlt
  have hmem : ∀ j < 2, p + j ∈ (w.pipe i).commands := by
    intro j hj
    rw [hp.commands, List.mem_range'_1]
    omega
  -- two commands in the queue have two threads that wait
  obtain ⟨θ, c, hc, hnum⟩ := (h.calm i).owned _ (hmem 0 (by omega))
  obtain ⟨θ', c', hc', hnum'⟩ := (h.calm i).owned _ (hmem 1 (by omega))
  have hθ : θ = θ' := h.eq_of_waits rfl (by rw [hc]; simp) (by rw [hc']; simp)
  subst hθ
  rw [hc] at hc'
  cases hc'
  omega

theorem WiredInv.sent_le (h : WiredInv O w) (i : ι) : (w.pipe i).sent.length ≤ (w.pipe i).served.length + 1 :=
  ((h.matching i).sent_le (h.calm i).connected).trans (Nat.add_le_add_left (h.commands_le i) _)

/-- **At most one command of a connection is on its way**: it is sent after the previous one has been executed, and
`m_commands` holds one at most. -/
theorem one_outstanding (h : (system O databases ω).Reach Fine w) (i : ι) :
    (w.pipe i).sent.length ≤ (w.pipe i).served.length + 1 ∧ (w.pipe i).commands.length ≤ 1 :=
  ⟨(WiredInv.of_reach h).sent_le i, (WiredInv.of_reach h).commands_le i⟩

/-! ### A thread that waits -/

/-- A test for the runs in which no thread waits while another one acts. -/
def settled (w : State databases Bool π Unit) : Label Bool Unit → Bool
  | .act _ _ =>
    [Thread.caller false, .caller true, .worker false (), .worker true ()].all fun θ =>
      ((w.pipe θ.obj).calls θ).isNone
  | .net _ _ | .serve _ _ => false
  | _ => true

theorem fine_of_settled (w : State databases Bool π Unit) (l : Label Bool Unit) (h : settled w l = true) : Fine w l := by
  cases l with
  | act θ inp =>
    intro _ _ _ _ θ' hobj
    rw [← hobj]
    simp only [settled, List.all_cons, List.all_nil, Bool.and_eq_true, Option.isNone_iff_eq_none] at h
    obtain ⟨h1, h2, h3, h4, -⟩ := h
    cases θ' with
    | caller i => cases i <;> assumption
    | worker i wk => cases i <;> assumption
  | net | serve => cases h
  | _ => trivial

/-- `lock()` up to its first command. -/
def selectLabels : List (Label Bool Unit) :=
  .call false .lock :: ([Input.none, .clock 5, .shuffle [0], .none, .none].map (.act (.caller false))) ++
    [.ask (.caller false)]

/-- At the start all connections have been opened, and the server is empty. -/
def State.blank : State databases ι π ω := ⟨Cluster.State.blank, fun _ => .fresh⟩

theorem State.blank_initial : Initial (State.blank : State databases ι π ω) := ⟨Cluster.State.blank_initial, fun _ => rfl⟩

theorem one_outstanding_select : ∃ w : State 16 Bool Unit Unit, (w.pipe false).sent.length = 1 ∧
    (w.pipe false).sent.length ≤ (w.pipe false).served.length + 1 ∧ (w.pipe false).commands.length ≤ 1 := by
  obtain ⟨w, hr, hw⟩ := (system (Cluster.twoObjects [0]) 16 Unit).exists_reach selectLabels
    (fun w => (w.pipe false).sent.length == 1) fine_of_settled State.blank_initial (by decide)
  exact ⟨w, by simpa using hw, one_outstanding hr false⟩

theorem one_waits_select : ∃ w : State 16 Bool Unit Unit, (w.pipe false).calls (.caller false) ≠ none ∧
    (w.pipe false).calls (.worker false ()) = none := by
  obtain ⟨w, hr, hw⟩ := (system (Cluster.twoObjects [0]) 16 Unit).exists_reach selectLabels
    (fun w => ((w.pipe false).calls (.caller false)).isSome) fine_of_settled State.blank_initial (by decide)
  have hcall : (w.pipe false).calls (.caller false) ≠ none := Option.isSome_iff_ne_none.mp hw
  refine ⟨w, hcall, ?_⟩
  by_contra hne
  have heq := one_waits hr rfl hcall hne
  cases heq

end DistributedLock.Wired
