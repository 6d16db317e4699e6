import DistributedLock.Wired.Outstanding
import DistributedLock.Pipeline.Progress

/-!
# Every call of the database is answered

A thread that has called the database gets its reply, whatever the order in which its connection, the server and
the threads on it go on (`reply_inevitable`), and however the bytes are cut.
-/

set_option linter.unusedSectionVars false

namespace DistributedLock.Wired

open Lib Redis DMutex
open Resp (Bytes wire serverExec)
open Cluster (Thread Objects)

variable {databases : ℕ} {ι π ω : Type} [DecidableEq ι] [DecidableEq π] [DecidableEq ω] {O : Objects ι π}
  {w w' : State databases ι π ω} {l : Label ι ω} {i : ι}

/-- A caller and the workers for each object. -/
instance [Fintype ι] [Fintype ω] : Fintype (Thread ι ω) :=
  .ofEquiv (ι ⊕ ι × ω)
    { toFun := Sum.elim .caller fun x => .worker x.1 x.2
      invFun := fun θ =>
        match θ with
        | .caller i => .inl i
        | .worker i wk => .inr (i, wk)
      left_inv := by rintro (i | x) <;> rfl
      right_inv := by rintro (i | ⟨i, wk⟩) <;> rfl }

/-- The steps of the connection of an object, and of the threads that wait on it. -/
def Label.Of (i : ι) : Label ι ω → Prop
  | .net j l => j = i ∧ l.Internal
  | .serve j _ => j = i
  | .answer θ => θ.obj = i
  | _ => False

/-- The values in the server can be sent as bulk strings. -/
def Brief (s : Store) : Prop := ∀ db key e, s db key = some e → e.value.toList.length + 2 < 2 ^ 31

theorem answer_fits (h : Brief w.core.srv) (i : ι) (cmd : List Bytes) : (wire (answer w i cmd).reply).Fits := by
  unfold answer serverExec
  split
  · rename_i c _
    cases c with
    | select index =>
      simp only [exec]
      split <;> rfl
    | set key value px =>
      simp only [exec]
      split
      · rfl
      · split
        · trivial
        · rfl
    | «exists» key =>
      simp only [exec]
      split <;> exact ⟨by decide, by decide⟩
    | get key =>
      simp only [exec]
      split
      · rename_i e he
        exact h _ _ e (Store.live_eq_some.mp he).1
      · trivial
    | pexpire key ms =>
      simp only [exec]
      split <;> exact ⟨by decide, by decide⟩
    | del key =>
      simp only [exec]
      split <;> exact ⟨by decide, by decide⟩
  · rfl

/-! ## What the steps of a connection do -/

/-- The connection is up and behaves, and the command that is on its way, if there is one, will be answered by a
reply that the client can read. -/
structure Waiting (O : Objects ι π) (i : ι) (w : State databases ι π ω) : Prop where
  reach : (system O databases ω).Reach Fine w
  readable : (w.pipe i).served.length < (w.pipe i).sent.length → ∀ cmd, (wire (answer w i cmd).reply).Fits

theorem pipe_of_step (hl : l.Of i) (hs : Steps O w l w') :
    ∃ m, m.Internal ∧ Pipeline.next (w.pipe i) m = some (w'.pipe i) ∧ (∀ θ cmd, m ≠ .send θ cmd) ∧
      ((∃ cmd r, m = .serve cmd r) ∨ ∀ cmd, answer w' i cmd = answer w i cmd) := by
  cases hs with
  | tick | call | keep | act | ask => cases hl
  | @net j m p hget _ hp =>
    obtain ⟨rfl, hm⟩ := hl
    exact ⟨m, hm, by rw [State.setPipe_self]; exact hp, fun θ cmd => (hget θ).2 cmd, .inr fun _ => rfl⟩
  | @serve j cmd p hp =>
    obtain rfl : j = i := hl
    exact ⟨.serve cmd (wire (answer w j cmd).reply), trivial, hp.trans (congrArg some (State.setPipe_self ..).symm), by simp,
      .inl ⟨_, _, rfl⟩⟩
  | @answer θ fr q k c r p hc hcall hr hp =>
    obtain rfl : θ.obj = i := hl
    refine ⟨.get θ, trivial, hp.trans (congrArg some (State.setPipe_self ..).symm), by simp, .inr fun cmd => ?_⟩
    cases hx : after fr q k r <;> rfl

theorem Waiting.step (h : Waiting O i w) (hl : l.Of i) (hok : Fine w l) (hn : next O w l = some w') : Waiting O i w' where
  reach := h.reach.step hok hn
  readable := by
    obtain ⟨m, -, hp, hsend, hans⟩ := pipe_of_step hl (next_cases hn)
    have hs := Pipeline.next_cases hp
    intro hlt cmd
    rw [Pipeline.sent_of_ne_send hsend hs] at hlt
    rcases hans with ⟨cmd', r, rfl⟩ | hans
    · -- the only command on its way has been executed
      have hle := (WiredInv.of_reach h.reach).sent_le i
      have hserved : (w'.pipe i).served.length = (w.pipe i).served.length + 1 := by
        generalize w'.pipe i = p at hs
        cases hs with
        | serve => simp
      omega
    · rw [hans]
      exact h.readable (lt_of_le_of_lt (Pipeline.served_step hs).length_le hlt) cmd

/-! ## A thread that waits is not left behind -/

theorem exists_next (h : Waiting O i w) {θ : Thread ι ω} {c : Pipeline.Call} (hc : (w.pipe i).calls θ = some c) :
    ∃ l w', (l.Of i ∧ Fine w l) ∧ next O w l = some w' := by
  have hinv := WiredInv.of_reach h.reach
  obtain ⟨m, p, ⟨hm, hgood, -⟩, hp⟩ :=
    Pipeline.not_stuck (hinv.matching i) (.of_calm (hinv.pipe i)) (.of_reach (hinv.pipe i)) hc
  have hs : Pipeline.Steps (w.pipe i) m p := Pipeline.next_cases hp
  -- a step of the client library or of the network
  have hnet : (∀ θ, m ≠ .get θ ∧ ∀ cmd, m ≠ .send θ cmd) → (∀ cmd r, m ≠ .serve cmd r) →
      ∃ l w', (l.Of i ∧ Fine w l) ∧ next O w l = some w' := by
    intro hget hserve
    refine ⟨.net i m, w.setPipe i p, ⟨⟨rfl, hm.1⟩, hgood, hm.2⟩, ?_⟩
    · show net w i m = _
      rw [net_eq hget hserve, show Pipeline.next (w.pipe i) m = some p from hp, Option.map_some]
  cases m with
  | send => exact absurd hm.1 id
  | junk => exact absurd hm.1 id
  | get a =>
    cases hs with
    | @get _ k hcall hpromise =>
      obtain ⟨rfl, fr, q, k', hcalling, -⟩ := hinv.waits i a _ hcall
      obtain ⟨r, hr⟩ := Option.isSome_iff_exists.mp hpromise
      have htake : (take O w a).isSome = true := by
        simp only [take, hcalling, hcall, hr, Pipeline.get, Option.isSome_some, if_true, Option.map_some]
      obtain ⟨w', hw'⟩ := Option.isSome_iff_exists.mp htake
      exact ⟨.answer a, w', ⟨rfl, trivial⟩, hw'⟩
  | serve cmd r =>
    -- the command is on its way, so its reply can be read
    have hlt : (w.pipe i).served.length < (w.pipe i).sent.length := by
      obtain ⟨pending, -, hsent, -⟩ := ((hinv.matching i).step (l := .serve cmd r) hgood hs).outstanding
      cases hs with
      | serve _ =>
        have hlen := congrArg List.length hsent
        simp only [List.length_append, List.length_singleton] at hlen
        omega
    have hserve : (serve w i cmd).isSome = true := by
      cases hs with
      | serve ha =>
        have hpre : (Resp.buildCommand cmd).isPrefixOf (w.pipe i).arrived = true :=
          List.isPrefixOf_iff_prefix.mpr ⟨_, ha.symm⟩
        simp only [serve, Pipeline.serve, hpre, if_true, Option.map_some, Option.isSome_some]
    obtain ⟨w', hw'⟩ := Option.isSome_iff_exists.mp hserve
    exact ⟨.serve i cmd, w', ⟨rfl, h.readable hlt cmd⟩, hw'⟩
  | _ => exact hnet (by simp) (by simp)

/-- **Every call of the database is answered**: as long as the connection of an object is up, and whatever the
order in which it, the server and the threads go on, a state is reached in which no thread waits on it. -/
theorem reply_inevitable [Fintype ι] [Fintype ω] (h : (system O databases ω).Reach Fine w) (hbrief : Brief w.core.srv)
    (i : ι) :
    (system O databases ω).Inevitable (fun w l => l.Of i ∧ Fine w l) (fun w => ∀ θ, (w.pipe i).calls θ = none) w := by
  have hwaiting : Waiting O i w := ⟨h, fun _ => answer_fits hbrief i⟩
  refine .of_measure (fun w => (w.pipe i).measure) (fun w l w' hw hok hn => ?_) (fun w hw hcall => ?_) hwaiting
  · obtain ⟨m, hm, hp, -, -⟩ := pipe_of_step hok.1 (next_cases hn)
    exact ⟨Pipeline.measure_step hm (Pipeline.next_cases hp), hw.step hok.1 hok.2 hn⟩
  · obtain ⟨θ, hθ⟩ := not_forall.mp hcall
    obtain ⟨c, hc⟩ := Option.ne_none_iff_exists'.mp hθ
    exact exists_next hw hc

theorem srv_step (hs : Steps O w l w') (hl : ∀ i cmd, l ≠ .serve i cmd) : w'.core.srv = w.core.srv := by
  cases hs with
  | tick hn =>
    obtain ⟨-, rfl⟩ := tick_cases hn
    rfl
  | call hn =>
    obtain ⟨-, rfl⟩ := call_cases hn
    rfl
  | keep hn =>
    obtain ⟨-, rfl⟩ := keep_cases hn
    rfl
  | act hinp _ hn =>
    obtain ⟨fr, -, ha⟩ := Cluster.act_cases hn
    cases ha with
    | more => exact absurd rfl (hinp _)
    | done => exact absurd rfl (hinp _)
    | raise => exact absurd rfl (hinp _)
    | _ => rfl
  | ask => rfl
  | net => rfl
  | serve => exact absurd rfl (hl _ _)
  | @answer θ fr q k c r p _ _ _ _ => cases hx : after fr q k r <;> rfl

theorem reply_inevitable_select : ∃ w : State 16 Bool Unit Unit, (w.pipe false).calls (.caller false) ≠ none ∧
    (system (Cluster.twoObjects [0]) 16 Unit).Inevitable (fun w l => l.Of false ∧ Fine w l)
      (fun w => ∀ θ, (w.pipe false).calls θ = none) w := by
  have hok : ∀ (w : State 16 Bool Unit Unit) l, settled w l = true → Fine w l ∧ ∀ i cmd, l ≠ .serve i cmd := by
    intro w l h
    refine ⟨fine_of_settled w l h, ?_⟩
    rintro i cmd rfl
    cases h
  obtain ⟨w, hr, hw⟩ := ((system (Cluster.twoObjects [0]) 16 Unit).startingAt State.blank).exists_reach selectLabels
    (fun w => ((w.pipe false).calls (.caller false)).isSome) hok rfl (by decide)
  have hinv : (system (Cluster.twoObjects [0]) 16 Unit).Reach Fine w ∧ w.core.srv = fun _ _ => none := by
    refine hr.invariant (I := fun w => (system (Cluster.twoObjects [0]) 16 Unit).Reach Fine w ∧
      w.core.srv = fun _ _ => none) ?_ fun w l w' _ hi ho hn => ?_
    · rintro _ rfl
      exact ⟨.init State.blank_initial, rfl⟩
    · exact ⟨hi.1.step ho.1 hn, (srv_step (next_cases hn) ho.2).trans hi.2⟩
  have hbrief : Brief w.core.srv := by
    rw [hinv.2]
    rintro _ _ _ ⟨⟩
  exact ⟨w, Option.isSome_iff_ne_none.mp hw, reply_inevitable hinv.1 hbrief false⟩

end DistributedLock.Wired
