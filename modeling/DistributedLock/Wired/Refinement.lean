import DistributedLock.Wired.Mutex
import DistributedLock.Lib.Refinement

/-!
# A database step is atomic

The lock manager over its connections refines the system of `Cluster`, in which a call of `DBRedis` is one
atomic step for each of its commands (`wired_refines`).  The abstract step happens when the server executes the
command; from then on the thread, seen through `abs`, is where the reply will take it, and if the reply will
make it throw, it has released `mtx_`.

The runs are those in which no connection is lost and the network and the server behave (`Pipeline.Calm`), and
`have_lock_num_` is not cleared while a thread of the object waits for a reply (`Fine`): `KeepLock` takes the
host of its `SelectDB` from it, and `Lock` clears it without the mutex.
-/

set_option linter.unusedSectionVars false

namespace DistributedLock.Wired

open Lib Redis DMutex
open Resp (Bytes resumeWire wire serverExec resumeWire_wire serverExec_words)
open Cluster (Thread Objects Frame Input MutexInv)

variable {databases : ℕ} {ι π ω : Type} [DecidableEq ι] [DecidableEq π] [DecidableEq ω] {O : Objects ι π}
  {w w' : State databases ι π ω} {θ θ' : Thread ι ω} {i : ι}

/-! ## What a state is seen as -/

/-- The server's reply to the command that a thread waits for. -/
def State.reply (w : State databases ι π ω) (θ : Thread ι ω) : Option Resp.Reply :=
  ((w.pipe θ.obj).calls θ).bind fun c => (w.pipe θ.obj).answered[c.number]?

/-- Where a thread is once the reply to its command is known. -/
def frame (O : Objects ι π) (w : State databases ι π ω) (θ : Thread ι ω) : Option (Frame (dbRedis databases)) :=
  match calling O w.core θ, w.reply θ with
  | some (fr, q, k), some r => after fr q k r
  | _, _ => w.core.thr θ

/-- The reply to its command will make the thread throw, and release the mutex of its process. -/
def raised (O : Objects ι π) (w : State databases ι π ω) (p : π) (θ : Thread ι ω) : Bool :=
  decide (O.proc θ.obj = p) && (w.core.thr θ).isSome && (frame O w θ).isNone

def abs (O : Objects ι π) (w : State databases ι π ω) : Cluster.State (dbRedis databases) ι π ω :=
  { w.core with
    thr := frame O w
    mtx := fun p => (w.core.mtx p).filter fun θ => !raised O w p θ }

theorem frame_of_reply_none (h : w.reply θ = none) : frame O w θ = w.core.thr θ := by
  unfold frame
  rw [h]
  split
  · rename_i heq
    cases heq
  · rfl

theorem frame_of_reply {fr : Frame (dbRedis databases)} {q : DBRedisPc} {k : DBResult → Pc} {r : Resp.Reply}
    (hc : calling O w.core θ = some (fr, q, k)) (hr : w.reply θ = some r) : frame O w θ = after fr q k r := by
  simp only [frame, hc, hr]

theorem frame_congr (hc : calling O w'.core θ = calling O w.core θ) (ht : w'.core.thr θ = w.core.thr θ)
    (hr : w'.reply θ = w.reply θ) : frame O w' θ = frame O w θ := by
  simp only [frame, hc, ht, hr]

theorem abs_congr (hcore : w'.core = w.core) (hr : ∀ θ, w'.reply θ = w.reply θ) : abs O w' = abs O w := by
  have hframe : frame O w' = frame O w := by
    funext θ
    exact frame_congr (by rw [hcore]) (by rw [hcore]) (hr θ)
  have hraised : raised O w' = raised O w := by
    funext p θ
    simp only [raised, hframe, hcore]
  simp only [abs, hcore, hframe, hraised]

theorem abs_setCore {core : Cluster.State (dbRedis databases) ι π ω} (hr : w.reply θ = none)
    (hthr : ∀ θ', θ' ≠ θ → core.thr θ' = w.core.thr θ')
    (hcall : ∀ θ', θ' ≠ θ → w.reply θ' ≠ none → calling O core θ' = calling O w.core θ') :
    abs O (w.setCore core) =
      { core with
        thr := Function.update (frame O w) θ (core.thr θ)
        mtx := fun p => (core.mtx p).filter fun θ => !raised O w p θ } := by
  have hframe : ∀ θ', frame O (w.setCore core) θ' = if θ' = θ then core.thr θ else frame O w θ' := by
    intro θ'
    split
    · rename_i heq
      subst heq
      exact frame_of_reply_none hr
    · rename_i hne
      cases hr' : w.reply θ' with
      | none =>
        rw [frame_of_reply_none hr']
        exact (frame_of_reply_none (w := w.setCore core) hr').trans (hthr θ' hne)
      | some r => exact frame_congr (hcall θ' hne (by simp [hr'])) (hthr θ' hne) rfl
  have hraised : raised O (w.setCore core) = raised O w := by
    funext p θ'
    simp only [raised, hframe]
    split
    · rename_i heq
      subst heq
      rw [frame_of_reply_none hr]
      cases w.core.thr θ' <;> cases hc : core.thr θ' <;> simp [State.setCore, hc]
    · rename_i hne
      have hc : (w.setCore core).core.thr θ' = w.core.thr θ' := hthr θ' hne
      rw [hc]
  have hthr' : frame O (w.setCore core) = Function.update (frame O w) θ (core.thr θ) := by
    funext θ'
    rw [hframe]
    by_cases heq : θ' = θ
    · rw [if_pos heq, heq, Function.update_self]
    · rw [if_neg heq, Function.update_of_ne heq]
  simp only [abs, hraised, hthr']
  rfl

/-! ## The runs -/

/-- The connections are not lost, the network and the server behave, and `have_lock_num_` is not cleared while a
thread of the object waits for a reply. -/
def Fine (w : State databases ι π ω) : Label ι ω → Prop
  | .act θ _ => ∀ fr c, w.core.thr θ = some fr → fr.pc = .clear c →
      ∀ θ' : Thread ι ω, θ'.obj = θ.obj → (w.pipe θ.obj).calls θ' = none
  | .net i l => Pipeline.Calm (w.pipe i) l
  | .serve i cmd => (wire (answer w i cmd).reply).Fits
  | _ => True

theorem State.setPipe_self (w : State databases ι π ω) (i : ι) (p : Pipeline.State (Thread ι ω)) :
    (w.setPipe i p).pipe i = p := Function.update_self ..

theorem State.setPipe_of_ne {j : ι} (w : State databases ι π ω) (p : Pipeline.State (Thread ι ω)) (h : j ≠ i) :
    (w.setPipe i p).pipe j = w.pipe j := Function.update_of_ne h ..

theorem pipe_step {l : Label ι ω} (hok : Fine w l) (hs : Steps O w l w') (i : ι) :
    w'.pipe i = w.pipe i ∨ ∃ m, Pipeline.Calm (w.pipe i) m ∧ Pipeline.next (w.pipe i) m = some (w'.pipe i) := by
  have hset : ∀ {j : ι} {m : Pipeline.Label (Thread ι ω)} {p : Pipeline.State (Thread ι ω)},
      Pipeline.next (w.pipe j) m = some p → Pipeline.Calm (w.pipe j) m →
      (w.setPipe j p).pipe i = w.pipe i ∨
        ∃ m, Pipeline.Calm (w.pipe i) m ∧ Pipeline.next (w.pipe i) m = some ((w.setPipe j p).pipe i) := by
    intro j m p hp hm
    by_cases hij : i = j
    · subst hij
      exact .inr ⟨m, hm, by rw [State.setPipe_self]; exact hp⟩
    · exact .inl (State.setPipe_of_ne w p hij)
  cases hs with
  | tick | call | keep | act => exact .inl rfl
  | ask _ hp => exact hset hp ⟨trivial, by simp⟩
  | net _ _ hp => exact hset hp hok
  | serve hp => exact hset hp ⟨hok, by simp⟩
  | answer _ _ _ hp => exact hset hp ⟨trivial, by simp⟩

structure WiredInv (O : Objects ι π) (w : State databases ι π ω) : Prop where
  mutex : MutexInv O w.core
  pipe : ∀ i, (Pipeline.system (Thread ι ω)).Reach Pipeline.Calm (w.pipe i)
  /-- A thread that waits for a reply stands at its call, and has sent its command. -/
  waits : ∀ i θ c, (w.pipe i).calls θ = some c → θ.obj = i ∧ ∃ fr q k, calling O w.core θ = some (fr, q, k) ∧
    (w.pipe i).sent[c.number]? = some (Resp.Command.words q.command)

section Pipes

variable (h : WiredInv O w)

include h

theorem WiredInv.matching (i : ι) : Pipeline.MatchInv (w.pipe i) := .of_reach (fun _ _ hm => hm.1) (h.pipe i)

theorem WiredInv.calm (i : ι) : Pipeline.CalmInv (w.pipe i) := .of_reach (h.pipe i)

/-- In runs without loss what a promise is kept with is the server's reply. -/
theorem WiredInv.answered {j : ℕ} {r : Resp.Reply} (hp : (w.pipe i).promises j = some r) :
    (w.pipe i).answered[j]? = some r := by
  refine ((h.matching i).faithful j r hp).resolve_right fun hlost => ?_
  rw [(h.calm i).connected] at hlost
  cases hlost.2

end Pipes

theorem WiredInv.idle (h : WiredInv O w) (hthr : w.core.thr θ = none) (i : ι) : (w.pipe i).calls θ = none := by
  cases hc : (w.pipe i).calls θ with
  | none => rfl
  | some c =>
    obtain ⟨-, fr, q, k, hcall, -⟩ := h.waits i θ c hc
    rw [calling_thr hcall] at hthr
    cases hthr

theorem WiredInv.ne_of_waits (h : WiredInv O w) (hthr : w.core.thr θ = none) (hθ' : (w.pipe i).calls θ' ≠ none) : θ' ≠ θ := by
  rintro rfl
  exact hθ' (h.idle hthr i)

theorem reply_none_of_idle (h : (w.pipe θ.obj).calls θ = none) : w.reply θ = none := by
  rw [State.reply, h]
  rfl

theorem calls_ne_none_of_reply (h : w.reply θ ≠ none) : (w.pipe θ.obj).calls θ ≠ none :=
  fun hc => h (reply_none_of_idle hc)

theorem resume_thr_of_ne {core : Cluster.State (dbRedis databases) ι π ω} (x : Option (Frame (dbRedis databases)))
    (hne : θ' ≠ θ) : (resume O core θ x).thr θ' = core.thr θ' := by
  cases x <;> exact Function.update_of_ne hne ..

theorem resume_fields {core : Cluster.State (dbRedis databases) ι π ω} (x : Option (Frame (dbRedis databases))) :
    (resume O core θ x).fields = core.fields := by
  cases x <;> rfl

/-- What a thread that waits has called stays, whatever another thread does. -/
theorem WiredInv.calling_act {inp : Input} {core : Cluster.State (dbRedis databases) ι π ω} (h : WiredInv O w)
    (hok : Fine w (.act θ inp)) (hidle : (w.pipe θ.obj).calls θ = none) (hact : Cluster.act O w.core θ inp = some core)
    (hθ' : (w.pipe θ'.obj).calls θ' ≠ none) : calling O core θ' = calling O w.core θ' := by
  obtain ⟨c, hc⟩ := Option.ne_none_iff_exists'.mp hθ'
  obtain ⟨-, fr, q, k, hcall, -⟩ := h.waits _ _ _ hc
  have hne : θ' ≠ θ := fun heq => hθ' (by rw [heq]; exact hidle)
  rw [hcall]
  refine Wired.calling_act h.mutex hact hne hcall fun fr' c' hfr' hclear hobj => hθ' ?_
  rw [hobj]
  exact hok fr' c' hfr' hclear θ' hobj

/-- The calls of the threads that wait, over a step of a connection that sends nothing. -/
theorem waits_pipe {core : Cluster.State (dbRedis databases) ι π ω} {m : Pipeline.Label (Thread ι ω)}
    {p : Pipeline.State (Thread ι ω)} (h : WiredInv O w) (hp : Pipeline.next (w.pipe i) m = some p)
    (hm : ∀ θ cmd, m ≠ .send θ cmd)
    (hcall : ∀ j θ, ((w.setPipe i p).pipe j).calls θ ≠ none → θ.obj = j → calling O core θ = calling O w.core θ) :
    ∀ j θ c, ((w.setPipe i p).pipe j).calls θ = some c → θ.obj = j ∧ ∃ fr q k, calling O core θ = some (fr, q, k) ∧
      ((w.setPipe i p).pipe j).sent[c.number]? = some (Resp.Command.words q.command) := by
  intro j θ c hc
  have hold : ∃ d, (w.pipe j).calls θ = some d ∧ d.number = c.number ∧ (w.pipe j).sent <+: ((w.setPipe i p).pipe j).sent := by
    by_cases hij : j = i
    · subst hij
      rw [State.setPipe_self] at hc ⊢
      rcases Pipeline.call_step (Pipeline.next_cases hp) hc with ⟨d, hd, hnum, -⟩ | ⟨-, -, cmd, rfl⟩
      · exact ⟨d, hd, hnum, Pipeline.sent_step (Pipeline.next_cases hp)⟩
      · exact absurd rfl (hm θ cmd)
    · rw [State.setPipe_of_ne w p hij] at hc ⊢
      exact ⟨c, hc, rfl, List.prefix_rfl⟩
  obtain ⟨d, hd, hnum, rest, hrest⟩ := hold
  obtain ⟨hobj, fr, q, k, hfr, hsent⟩ := h.waits j θ d hd
  refine ⟨hobj, fr, q, k, (hcall j θ (by rw [hc]; simp) hobj).trans hfr, ?_⟩
  rw [← hnum, ← hrest]
  exact Pipeline.getElem?_append_of_eq hsent rest

theorem waits_step {l : Label ι ω} (h : WiredInv O w) (hok : Fine w l) (hs : Steps O w l w') :
    ∀ i θ c, (w'.pipe i).calls θ = some c → θ.obj = i ∧ ∃ fr q k, calling O w'.core θ = some (fr, q, k) ∧
      (w'.pipe i).sent[c.number]? = some (Resp.Command.words q.command) := by
  -- a step on the objects alone
  have hcore : ∀ core, (∀ θ, (w.pipe θ.obj).calls θ ≠ none → calling O core θ = calling O w.core θ) →
      ∀ i θ c, (w.pipe i).calls θ = some c → θ.obj = i ∧ ∃ fr q k, calling O core θ = some (fr, q, k) ∧
        (w.pipe i).sent[c.number]? = some (Resp.Command.words q.command) := by
    intro core hsame i θ c hc
    obtain ⟨rfl, fr, q, k, hfr, hsent⟩ := h.waits i θ c hc
    exact ⟨rfl, fr, q, k, (hsame θ (by rw [hc]; simp)).trans hfr, hsent⟩
  cases hs with
  | tick hn =>
    obtain ⟨-, rfl⟩ := tick_cases hn
    exact hcore _ fun θ _ => calling_congr rfl rfl
  | call hn =>
    obtain ⟨hnone, rfl⟩ := call_cases hn
    exact hcore _ fun θ hθ => calling_congr (Function.update_of_ne (h.ne_of_waits hnone hθ) ..) rfl
  | keep hn =>
    obtain ⟨hnone, rfl⟩ := keep_cases hn
    exact hcore _ fun θ hθ => calling_congr (Function.update_of_ne (h.ne_of_waits hnone hθ) ..) rfl
  | act _ hidle hn => exact hcore _ fun θ hθ => h.calling_act hok hidle hn hθ
  | @ask θ fr q k p hc hp =>
    intro j θ' c hcall
    by_cases hj : j = θ.obj
    · subst hj
      rw [State.setPipe_self] at hcall ⊢
      cases Pipeline.next_cases hp with
      | send _ _ =>
        rcases Pipeline.State.setCall_cases (t := w.pipe θ.obj) (b := θ) hcall with ⟨rfl, hnew⟩ | ⟨-, hold⟩
        · cases hnew
          exact ⟨rfl, fr, q, k, hc, by simp⟩
        · obtain ⟨hobj, fr', q', k', hfr, hsent⟩ := h.waits _ _ _ hold
          exact ⟨hobj, fr', q', k', hfr, Pipeline.getElem?_append_of_eq hsent _⟩
    · rw [State.setPipe_of_ne w p hj] at hcall ⊢
      exact h.waits j θ' c hcall
  | net hl _ hp => exact waits_pipe h hp (fun θ cmd => (hl θ).2 cmd) fun _ _ _ _ => rfl
  | serve hp => exact waits_pipe h hp (by simp) fun _ _ _ _ => calling_congr rfl rfl
  | @answer θ fr q k c r p hc hcall hr hp =>
    refine waits_pipe h hp (by simp) fun j θ' hθ' hobj => ?_
    have hne : θ' ≠ θ := by
      rintro rfl
      subst hobj
      rw [State.setPipe_self] at hθ'
      cases Pipeline.next_cases hp with
      | get _ _ => exact hθ' (Function.update_self ..)
    exact calling_congr (resume_thr_of_ne _ hne) (congrFun (resume_fields _) _)

theorem WiredInv.step {l : Label ι ω} (h : WiredInv O w) (hok : Fine w l) (hs : Steps O w l w') : WiredInv O w' where
  mutex := mutex_step h.mutex hs
  pipe i := by
    rcases pipe_step hok hs i with heq | ⟨m, hm, hn⟩
    · rw [heq]
      exact h.pipe i
    · exact (h.pipe i).step hm hn
  waits := waits_step h hok hs

theorem WiredInv.of_initial (h : Initial w) : WiredInv O w where
  mutex := .init h.core
  pipe i := .init (h.pipe i)
  waits i θ c hc := by
    rw [h.pipe i] at hc
    cases hc

/-! ## The abstract steps -/

/-- The command that the server executes next on the connection is that of the thread. -/
def State.Due (w : State databases ι π ω) (θ : Thread ι ω) : Prop :=
  ∃ c, (w.pipe θ.obj).calls θ = some c ∧ c.number = (w.pipe θ.obj).answered.length

/-- What a step of the system over its connections is seen as, if it is seen: a command is executed when the
server comes to it. -/
inductive Shows (w : State databases ι π ω) : Label ι ω → Cluster.Label ι ω → Prop
  | tick (t : ℤ) : Shows w (.tick t) (.tick t)
  | call (i : ι) (c : Call) : Shows w (.call i c) (.call i c)
  | keep (i : ι) (wk : ω) : Shows w (.keep i wk) (.keep i wk)
  | act {θ : Thread ι ω} {inp : Input} (hinp : ∀ f, inp ≠ .db f) : Shows w (.act θ inp) (.act θ inp)
  | serve {θ : Thread ι ω} (cmd : List Bytes) (hdue : w.Due θ) : Shows w (.serve θ.obj cmd) (.act θ (.db .none))

/-- The steps of the abstract system: every command is performed, and answered by a reply that the client can read. -/
def Deliverable (O : Objects ι π) (s : Cluster.State (dbRedis databases) ι π ω) : Cluster.Label ι ω → Prop
  | .act θ (.db fault) => fault = .none ∧ ∀ fr q k, calling O s θ = some (fr, q, k) →
      (wire (exec databases s.now (s.conn θ.obj) s.srv q.command).reply).Fits
  | _ => True

theorem deliverable_of_ne (s : Cluster.State (dbRedis databases) ι π ω) {inp : Input} (hinp : ∀ f, inp ≠ .db f) :
    Deliverable O s (.act θ inp) := by
  cases inp with
  | db f => exact absurd rfl (hinp f)
  | _ => trivial

theorem act_db {t : Cluster.State (dbRedis databases) ι π ω} {fr : Frame (dbRedis databases)} {q : DBRedisPc}
    {k : DBResult → Pc} (hc : calling O t θ = some (fr, q, k)) :
    Cluster.act O t θ (.db .none) =
      some (resume O (t.setConn θ.obj (exec databases t.now (t.conn θ.obj) t.srv q.command).db
          (exec databases t.now (t.conn θ.obj) t.srv q.command).store) θ
        (after fr q k (wire (exec databases t.now (t.conn θ.obj) t.srv q.command).reply))) := by
  unfold calling at hc
  split at hc
  · cases hc
  · rename_i fr' hfr
    split at hc
    · rename_i op k' hcode
      obtain ⟨rfl, hqk⟩ := Prod.mk.inj (Option.some.inj hc)
      obtain ⟨hq, rfl⟩ := Prod.mk.inj hqk
      have hstep : Cluster.dbStep t θ.obj fr'.db op .none =
          ⟨q.resume (exec databases t.now (t.conn θ.obj) t.srv q.command).reply,
            (exec databases t.now (t.conn θ.obj) t.srv q.command).db,
            (exec databases t.now (t.conn θ.obj) t.srv q.command).store⟩ := by
        rw [← hq]
        rfl
      simp only [Cluster.act, hfr, hcode, Cluster.afterDb, hstep, after, resumeWire_wire]
      cases q.resume (exec databases t.now (t.conn θ.obj) t.srv q.command).reply <;> rfl
    · cases hc

theorem calling_abs (hr : w.reply θ = none) : calling O (abs O w) θ = calling O w.core θ :=
  calling_congr (frame_of_reply_none hr) rfl

theorem raised_of_reply_none (hr : w.reply θ = none) (p : π) : raised O w p θ = false := by
  rw [raised, frame_of_reply_none hr]
  cases w.core.thr θ <;> simp

theorem abs_mtx (p : π) : (abs O w).mtx p = (w.core.mtx p).filter fun θ => !raised O w p θ := rfl

theorem abs_mtx_eq_some (hr : w.reply θ = none) (p : π) : (abs O w).mtx p = some θ ↔ w.core.mtx p = some θ := by
  rw [abs_mtx, Option.filter_eq_some_iff, raised_of_reply_none hr]
  simp

theorem leave_mtx_abs (hr : w.reply θ = none) (p : π) :
    (if (abs O w).mtx p = some θ then Function.update (abs O w).mtx p none else (abs O w).mtx) =
      fun p' => ((if w.core.mtx p = some θ then Function.update w.core.mtx p none else w.core.mtx) p').filter
        fun θ' => !raised O w p' θ' := by
  funext p'
  simp only [abs_mtx_eq_some hr]
  split
  · by_cases hp : p' = p
    · subst hp
      simp
    · rw [Function.update_of_ne hp, Function.update_of_ne hp, abs_mtx]
  · rfl

theorem update_mtx_abs (hr : w.reply θ = none) (p : π) {o : Option (Thread ι ω)} (ho : ∀ θ' ∈ o, θ' = θ) :
    Function.update (abs O w).mtx p o =
      fun p' => (Function.update w.core.mtx p o p').filter fun θ' => !raised O w p' θ' := by
  funext p'
  by_cases hp : p' = p
  · subst hp
    rw [Function.update_self, Function.update_self]
    cases o with
    | none => rfl
    | some θ' =>
      obtain rfl := ho θ' rfl
      rw [Option.filter_some, raised_of_reply_none hr]
      rfl
  · rw [Function.update_of_ne hp, Function.update_of_ne hp, abs_mtx]

/-- **An instruction that does not call the database** is the same instruction of the abstract system. -/
theorem act_abs {inp : Input} {core : Cluster.State (dbRedis databases) ι π ω} (hinp : ∀ f, inp ≠ .db f)
    (h : WiredInv O w) (hidle : (w.pipe θ.obj).calls θ = none) (hok : Fine w (.act θ inp))
    (hact : Cluster.act O w.core θ inp = some core) : Cluster.act O (abs O w) θ inp = some (abs O (w.setCore core)) := by
  have hr := reply_none_of_idle hidle
  obtain ⟨fr, hfr, ha⟩ := Cluster.act_cases hact
  have hfr' : (abs O w).thr θ = some fr := (frame_of_reply_none hr).trans hfr
  have hthr : ∀ θ', θ' ≠ θ → core.thr θ' = w.core.thr θ' := fun θ' hne => Cluster.act_thr hact hne
  have habs := abs_setCore (O := O) hr hthr fun θ' _ hrep => h.calling_act hok hidle hact (calls_ne_none_of_reply hrep)
  have hfields : (abs O w).fields = w.core.fields := rfl
  rw [habs]
  cases ha with
  | tau hc =>
    simp only [Cluster.act, hfr', hfields, hc]
    simp [Cluster.State.goto, Cluster.State.setFields, abs]
  | lock hc hfree =>
    have hfree' : (abs O w).mtx (O.proc θ.obj) = none := by rw [abs_mtx, hfree]; rfl
    simp only [Cluster.act, hfr', hfields, hc, hfree', if_true, Cluster.State.goto, Cluster.State.setMtx,
      update_mtx_abs hr (O.proc θ.obj) (o := some θ) (by simp), Function.update_self]
    rfl
  | unlock hc =>
    simp only [Cluster.act, hfr', hfields, hc, Cluster.State.goto, Cluster.State.setMtx,
      update_mtx_abs hr (O.proc θ.obj) (o := none) (by simp), Function.update_self]
    rfl
  | more => exact absurd rfl (hinp _)
  | done => exact absurd rfl (hinp _)
  | raise => exact absurd rfl (hinp _)
  | clock hc =>
    simp only [Cluster.act, hfr', hfields, hc]
    simp [Cluster.State.goto, abs]
  | shuffle hc hv =>
    simp only [Cluster.act, hfr', hfields, hc, hv, if_true]
    simp [Cluster.State.goto, abs]
  | pushEvent hc =>
    simp only [Cluster.act, hfr', hfields, hc]
    simp [Cluster.State.goto, Cluster.State.setFields, abs]
  | ret hc =>
    simp only [Cluster.act, hfr', hfields, hc, Cluster.State.leave, Cluster.State.setHeld, leave_mtx_abs hr,
      Function.update_self]
    rfl
  | throw hc =>
    simp only [Cluster.act, hfr', hfields, hc, Cluster.State.leave, leave_mtx_abs hr, Function.update_self]
    rfl

theorem thr_abs_of_idle (h : WiredInv O w) (hnone : w.core.thr θ = none) : (abs O w).thr θ = none :=
  (frame_of_reply_none (reply_none_of_idle (h.idle hnone θ.obj))).trans hnone

theorem enter_abs {core : Cluster.State (dbRedis databases) ι π ω} {x : Option (Frame (dbRedis databases))}
    (h : WiredInv O w) (hnone : w.core.thr θ = none) (hthr : core.thr = Function.update w.core.thr θ x)
    (hfields : core.fields = w.core.fields) (hmtx : core.mtx = w.core.mtx) :
    abs O (w.setCore core) = { core with thr := Function.update (abs O w).thr θ x, mtx := (abs O w).mtx } := by
  have hr := reply_none_of_idle (h.idle hnone θ.obj)
  have hne : ∀ θ', θ' ≠ θ → core.thr θ' = w.core.thr θ' := fun θ' hθ => by rw [hthr, Function.update_of_ne hθ]
  rw [abs_setCore hr hne fun θ' hθ _ => calling_congr (hne θ' hθ) (by rw [hfields]), hthr, Function.update_self, hmtx]
  rfl

/-! ### Requests and replies -/

theorem reply_setPipe {p : Pipeline.State (Thread ι ω)}
    (hsame : θ.obj = i → ((p.calls θ).map Pipeline.Call.number).bind (p.answered[·]?) =
      (((w.pipe i).calls θ).map Pipeline.Call.number).bind ((w.pipe i).answered[·]?)) :
    (w.setPipe i p).reply θ = w.reply θ := by
  have hbind : ∀ (o : Option Pipeline.Call) (l : List Resp.Reply),
      (o.bind fun c => l[c.number]?) = (o.map Pipeline.Call.number).bind (l[·]?) := by
    intro o l
    cases o <;> rfl
  unfold State.reply
  by_cases hi : θ.obj = i
  · rw [hi, State.setPipe_self, hbind, hbind]
    exact hsame hi
  · rw [State.setPipe_of_ne w p hi]

theorem ask_abs {q : DBRedisPc} {p : Pipeline.State (Thread ι ω)} (h : WiredInv O w)
    (hp : Pipeline.next (w.pipe θ.obj) (.send θ (Resp.Command.words q.command)) = some p) :
    abs O (w.setPipe θ.obj p) = abs O w := by
  refine abs_congr rfl fun θ' => reply_setPipe fun _ => ?_
  have hm := h.matching θ.obj
  have hserved : (w.pipe θ.obj).answered.length ≤ (w.pipe θ.obj).sent.length := by
    obtain ⟨pending, -, hsent, -⟩ := hm.outstanding
    rw [hm.answered, hsent, List.length_append]
    exact Nat.le_add_right _ _
  cases Pipeline.next_cases hp with
  | send hc _ =>
    by_cases hθ : θ' = θ
    · subst hθ
      simp only [Function.update_self, Option.map_some, Option.bind_some, hc, Option.map_none, Option.bind_none]
      exact List.getElem?_eq_none hserved
    · simp only [Function.update_of_ne hθ]

theorem net_abs {l : Pipeline.Label (Thread ι ω)} {p : Pipeline.State (Thread ι ω)} (h : WiredInv O w)
    (hl : ∀ θ, l ≠ .get θ ∧ ∀ cmd, l ≠ .send θ cmd) (hs : ∀ cmd r, l ≠ .serve cmd r)
    (hp : Pipeline.next (w.pipe i) l = some p) : abs O (w.setPipe i p) = abs O w := by
  refine abs_congr rfl fun θ' => reply_setPipe fun _ => ?_
  obtain ⟨hnum, hans⟩ := Pipeline.inner_step (h.matching i).promises (Pipeline.next_cases hp) (h.calm i).connected hl hs
  rw [hnum θ', hans]

theorem resume_mtx_filter {core : Cluster.State (dbRedis databases) ι π ω} (x : Option (Frame (dbRedis databases)))
    {F : Thread ι ω → Bool} (hF : F θ = false) (p : π) :
    ((resume O core θ x).mtx p).filter (fun θ' => !F θ') =
      (core.mtx p).filter fun θ' => !if θ' = θ then decide (O.proc θ.obj = p) && x.isNone else F θ' := by
  by_cases hown : core.mtx p = some θ
  · cases x with
    | some fr => simp [resume, hown, Option.filter_some, hF]
    | none =>
      by_cases hp : O.proc θ.obj = p
      · subst hp
        simp [resume, hown, Option.filter_some]
      · have hkeep : (resume O core θ none).mtx p = core.mtx p := by
          simp only [resume, Cluster.State.leave_mtx]
          split
          · exact Function.update_of_ne (Ne.symm hp) ..
          · rfl
        simp [hkeep, hown, Option.filter_some, hF, hp]
  · have hkeep : (resume O core θ x).mtx p = core.mtx p := by
      cases x with
      | some fr => rfl
      | none =>
        simp only [resume, Cluster.State.leave_mtx]
        split
        · rename_i hproc
          exact Function.update_of_ne (fun heq => hown (by rw [heq]; exact hproc)) ..
        · rfl
    rw [hkeep]
    cases hm : core.mtx p with
    | none => rfl
    | some θ' =>
      have hne : θ' ≠ θ := fun heq => hown (by rw [hm, heq])
      simp only [Option.filter_some, if_neg hne]

theorem abs_of_resumed {v : State databases ι π ω} {fr : Frame (dbRedis databases)} {x : Option (Frame (dbRedis databases))}
    (hthr : w.core.thr θ = some fr) (hcore : v.core = resume O w.core θ x) (hx : frame O w θ = x)
    (hframe : frame O v = frame O w) : abs O v = abs O w := by
  have hraised : ∀ p, raised O v p = fun θ' => if θ' = θ then false else raised O w p θ' := by
    intro p
    funext θ'
    rw [raised, hframe, hcore]
    split
    · rename_i hθ
      subst hθ
      rw [hx]
      cases x with
      | none => simp [resume]
      | some fr' => simp
    · rename_i hθ
      rw [resume_thr_of_ne x hθ, raised]
  have hmtx : (abs O v).mtx = (abs O w).mtx := by
    funext p
    rw [abs_mtx, abs_mtx, hraised, hcore, resume_mtx_filter x (if_pos rfl) p]
    congr 1
    funext θ'
    by_cases hθ : θ' = θ
    · subst hθ
      rw [if_pos rfl, raised, hx, hthr]
      simp
    · simp only [if_neg hθ]
  calc abs O v = { resume O w.core θ x with thr := frame O w, mtx := (abs O w).mtx } := by
        rw [← hmtx, ← hframe, ← hcore]
        rfl
    _ = abs O w := by cases x <;> rfl

theorem frame_taken {p : Pipeline.State (Thread ι ω)} {x : Option (Frame (dbRedis databases))}
    (hp : Pipeline.next (w.pipe θ.obj) (.get θ) = some p) (hx : frame O w θ = x) :
    frame O ((w.setPipe θ.obj p).setCore (resume O w.core θ x)) = frame O w := by
  -- the thread does not wait any more
  have hcalls : p.calls = Function.update (w.pipe θ.obj).calls θ none ∧ p.answered = (w.pipe θ.obj).answered := by
    cases Pipeline.next_cases hp with
    | get _ _ => exact ⟨rfl, rfl⟩
  funext θ'
  by_cases hθ : θ' = θ
  · subst hθ
    have hnone : ((w.setPipe θ'.obj p).setCore (resume O w.core θ' x)).reply θ' = none := by
      refine reply_none_of_idle ?_
      show ((w.setPipe θ'.obj p).pipe θ'.obj).calls θ' = none
      rw [State.setPipe_self, hcalls.1, Function.update_self]
    rw [frame_of_reply_none hnone, hx]
    show (resume O w.core θ' x).thr θ' = x
    cases x <;> exact Function.update_self ..
  · refine frame_congr (calling_congr (resume_thr_of_ne x hθ) (congrFun (resume_fields x) _)) (resume_thr_of_ne x hθ) ?_
    refine reply_setPipe fun _ => ?_
    rw [hcalls.1, hcalls.2, Function.update_of_ne hθ]

/-- **A thread that gets its reply** is where it has been seen since the command was executed. -/
theorem answer_abs {fr : Frame (dbRedis databases)} {q : DBRedisPc} {k : DBResult → Pc} {c : Pipeline.Call}
    {r : Resp.Reply} {p : Pipeline.State (Thread ι ω)} (h : WiredInv O w) (hc : calling O w.core θ = some (fr, q, k))
    (hcall : (w.pipe θ.obj).calls θ = some c) (hr : (w.pipe θ.obj).promises c.number = some r)
    (hp : Pipeline.next (w.pipe θ.obj) (.get θ) = some p) :
    abs O ((w.setPipe θ.obj p).setCore (resume O w.core θ (after fr q k r))) = abs O w := by
  have hreply : w.reply θ = some r := by
    rw [State.reply, hcall]
    exact h.answered hr
  have hframe := frame_of_reply hc hreply
  exact abs_of_resumed (calling_thr hc) rfl hframe (frame_taken hp hframe)

theorem exists_owner {cmd : List Bytes} {r : Resp.Reply} {p : Pipeline.State (Thread ι ω)} (h : WiredInv O w)
    (hfit : r.Fits) (hp : Pipeline.next (w.pipe i) (.serve cmd r) = some p) :
    ∃ θ fr q k, θ.obj = i ∧ w.Due θ ∧ calling O w.core θ = some (fr, q, k) ∧ cmd = Resp.Command.words q.command := by
  obtain ⟨pending, -, hsent, -⟩ := ((h.matching i).step (l := .serve cmd r) hfit (Pipeline.next_cases hp)).outstanding
  have hsent' : (w.pipe i).sent = (w.pipe i).served ++ cmd :: pending := by
    cases Pipeline.next_cases hp with
    | serve _ => simpa using hsent
  obtain ⟨θ, c, hcall, hnum⟩ := (h.calm i).owned (w.pipe i).served.length
    ((h.matching i).mem_commands (h.calm i).connected le_rfl (by rw [hsent']; simp))
  obtain ⟨rfl, fr, q, k, hc, hcmd⟩ := h.waits i θ c hcall
  refine ⟨θ, fr, q, k, rfl, ⟨c, hcall, hnum.trans (h.matching _).answered.symm⟩, hc, ?_⟩
  rw [hnum, hsent', List.getElem?_append_right le_rfl] at hcmd
  simpa using hcmd

theorem State.Due.reply_eq_none (h : w.Due θ) : w.reply θ = none := by
  obtain ⟨c, hcall, hnum⟩ := h
  rw [State.reply, hcall, Option.bind_some, hnum]
  exact List.getElem?_eq_none le_rfl

section Serve

variable {cmd : List Bytes} {r : Resp.Reply} {p : Pipeline.State (Thread ι ω)}

theorem serve_fields (hp : Pipeline.next (w.pipe i) (.serve cmd r) = some p) :
    p.calls = (w.pipe i).calls ∧ p.answered = (w.pipe i).answered ++ [r] := by
  cases Pipeline.next_cases hp with
  | serve _ => exact ⟨rfl, rfl⟩

/-- What the server answers is the reply to the thread whose command is the next one. -/
theorem reply_served (hp : Pipeline.next (w.pipe θ.obj) (.serve cmd r) = some p) (hdue : w.Due θ) :
    (w.setPipe θ.obj p).reply θ = some r := by
  obtain ⟨c, hcall, hnum⟩ := hdue
  obtain ⟨hcalls, hans⟩ := serve_fields hp
  rw [State.reply, State.setPipe_self, hcalls, hcall, Option.bind_some, hans, hnum]
  exact List.getElem?_concat_length

theorem reply_served_of_ne (h : WiredInv O w) (hp : Pipeline.next (w.pipe θ.obj) (.serve cmd r) = some p)
    (hdue : w.Due θ) (hne : θ' ≠ θ) : (w.setPipe θ.obj p).reply θ' = w.reply θ' := by
  obtain ⟨c, hcall, hnum⟩ := hdue
  refine reply_setPipe fun _ => ?_
  obtain ⟨hcalls, hans⟩ := serve_fields hp
  rw [hcalls, hans]
  cases hc : (w.pipe θ.obj).calls θ' with
  | none => rfl
  | some d =>
    have hd : d.number ≠ (w.pipe θ.obj).answered.length := fun heq =>
      hne ((h.calm θ.obj).distinct _ _ _ _ hc hcall (heq.trans hnum.symm))
    show ((w.pipe θ.obj).answered ++ [r])[d.number]? = (w.pipe θ.obj).answered[d.number]?
    rcases Nat.lt_or_gt_of_ne hd with hlt | hgt
    · exact List.getElem?_append_left hlt
    · have hlen : ((w.pipe θ.obj).answered ++ [r]).length ≤ d.number := by
        rw [List.length_append, List.length_singleton]
        exact hgt
      rw [List.getElem?_eq_none hlen, List.getElem?_eq_none hgt.le]

end Serve

/-- The thread goes on, as it is seen: what it will do with its reply shows at once. -/
theorem resume_abs {v : State databases ι π ω} {fr : Frame (dbRedis databases)} {x : Option (Frame (dbRedis databases))}
    {d : ℤ} {st : Store} (hr : w.reply θ = none) (hthr : w.core.thr θ = some fr)
    (hcore : v.core = w.core.setConn θ.obj d st) (hframe : frame O v θ = x)
    (hother : ∀ θ', θ' ≠ θ → frame O v θ' = frame O w θ') :
    resume O ((abs O w).setConn θ.obj d st) θ x = abs O v := by
  have hraised : ∀ p, raised O v p = fun θ' =>
      if θ' = θ then decide (O.proc θ.obj = p) && x.isNone else raised O w p θ' := by
    intro p
    funext θ'
    rw [raised, hcore]
    split
    · rename_i hθ
      rw [hθ, hframe]
      simp [hthr]
    · rename_i hθ
      rw [hother θ' hθ]
      rfl
  have hthr' : (resume O ((abs O w).setConn θ.obj d st) θ x).thr = (abs O v).thr := by
    have hupdate : frame O v = Function.update (frame O w) θ x := by
      funext θ'
      by_cases hθ : θ' = θ
      · rw [hθ, hframe, Function.update_self]
      · rw [hother θ' hθ, Function.update_of_ne hθ]
    show _ = frame O v
    rw [hupdate]
    cases x <;> rfl
  have hmtx' : (resume O ((abs O w).setConn θ.obj d st) θ x).mtx = (abs O v).mtx := by
    have hresume : (resume O ((abs O w).setConn θ.obj d st) θ x).mtx =
        fun p => ((resume O w.core θ x).mtx p).filter fun θ' => !raised O w p θ' := by
      cases x with
      | some fr' => rfl
      | none => exact leave_mtx_abs hr (O.proc θ.obj)
    rw [hresume]
    funext p
    rw [resume_mtx_filter x (raised_of_reply_none hr p), abs_mtx, hraised, hcore]
    rfl
  calc resume O ((abs O w).setConn θ.obj d st) θ x
      = { w.core.setConn θ.obj d st with
          thr := (resume O ((abs O w).setConn θ.obj d st) θ x).thr
          mtx := (resume O ((abs O w).setConn θ.obj d st) θ x).mtx } := by cases x <;> rfl
    _ = { v.core with thr := (abs O v).thr, mtx := (abs O v).mtx } := by rw [hthr', hmtx', hcore]
    _ = abs O v := rfl

/-- **The server executes a command**: the atomic step of the thread that sent it. -/
theorem serve_abs {cmd : List Bytes} {p : Pipeline.State (Thread ι ω)} (h : WiredInv O w)
    (hfit : (wire (answer w i cmd).reply).Fits)
    (hp : Pipeline.next (w.pipe i) (.serve cmd (wire (answer w i cmd).reply)) = some p) :
    ∃ θ, θ.obj = i ∧ w.Due θ ∧ Deliverable O (abs O w) (.act θ (.db .none)) ∧ Cluster.act O (abs O w) θ (.db .none) =
      some (abs O ((w.setPipe i p).setCore (w.core.setConn i (answer w i cmd).db (answer w i cmd).store))) := by
  obtain ⟨θ, fr, q, k, rfl, hdue, hc, rfl⟩ := exists_owner h hfit hp
  have hans : answer w θ.obj (Resp.Command.words q.command) =
      exec databases w.core.now (w.core.conn θ.obj) w.core.srv q.command := serverExec_words ..
  have habs : calling O (abs O w) θ = some (fr, q, k) := (calling_abs hdue.reply_eq_none).trans hc
  rw [hans] at hp hfit ⊢
  refine ⟨θ, rfl, hdue, ⟨rfl, fun fr' q' k' hc' => ?_⟩, ?_⟩
  · rw [habs] at hc'
    cases hc'
    exact hfit
  rw [act_db habs]
  have hsame : ∀ θ', calling O (w.core.setConn θ.obj (exec databases w.core.now (w.core.conn θ.obj) w.core.srv q.command).db
      (exec databases w.core.now (w.core.conn θ.obj) w.core.srv q.command).store) θ' = calling O w.core θ' :=
    fun _ => calling_congr rfl rfl
  refine congrArg some (resume_abs hdue.reply_eq_none (calling_thr hc) rfl ?_ fun θ' hne => ?_)
  · exact frame_of_reply ((hsame θ).trans hc) (reply_served hp hdue)
  · exact frame_congr (hsame θ') rfl (reply_served_of_ne h hp hdue hne)

/-! ## The refinement -/

theorem WiredInv.of_reach (h : (system O databases ω).Reach Fine w) : WiredInv O w :=
  h.invariant (fun _ h₀ => .of_initial h₀) fun _ _ _ _ hi ho hn => hi.step ho (next_cases hn)

theorem abs_initial (h : Initial w) : Cluster.Initial (abs O w) where
  fields := h.core.fields
  held := h.core.held
  thr θ := by
    refine (frame_of_reply_none (reply_none_of_idle ?_)).trans (h.core.thr θ)
    rw [h.pipe]
    rfl
  mtx p := by
    rw [abs_mtx, h.core.mtx]
    rfl

/-- **A step of the system over its connections** is seen as a step of `Cluster`, or not at all. -/
theorem abs_step {l : Label ι ω} (h : WiredInv O w) (hok : Fine w l) (hs : Steps O w l w') :
    abs O w' = abs O w ∨
      ∃ l', Shows w l l' ∧ Deliverable O (abs O w) l' ∧ Cluster.next O (abs O w) l' = some (abs O w') := by
  cases hs with
  | @tick t _ hn =>
    obtain ⟨hle, rfl⟩ := tick_cases hn
    exact .inr ⟨.tick t, .tick t, trivial, if_pos hle⟩
  | @call i c core hn =>
    obtain ⟨hidle, rfl⟩ := call_cases hn
    refine .inr ⟨.call i c, .call i c, trivial, ?_⟩
    have habs : abs O (w.setCore (w.core.enter i c)) = _ := enter_abs h hidle rfl rfl rfl
    rw [habs]
    simp only [Cluster.next, thr_abs_of_idle h hidle, Option.isNone_none, if_true]
    rfl
  | @keep i wk core hn =>
    obtain ⟨hidle, rfl⟩ := keep_cases hn
    refine .inr ⟨.keep i wk, .keep i wk, trivial, ?_⟩
    have habs : abs O (w.setCore (w.core.goto (.worker i wk) .keepLock none)) = _ := enter_abs h hidle rfl rfl rfl
    rw [habs]
    simp only [Cluster.next, thr_abs_of_idle h hidle, Option.isNone_none, if_true]
    rfl
  | @act θ inp _ hinp hidle hn =>
    exact .inr ⟨.act θ inp, .act hinp, deliverable_of_ne _ hinp, act_abs hinp h hidle hok hn⟩
  | ask hc hp => exact .inl (ask_abs h hp)
  | net hl hs hp => exact .inl (net_abs h hl hs hp)
  | @serve i cmd _ hp =>
    obtain ⟨θ, rfl, hdue, hdel, hact⟩ := serve_abs h hok hp
    exact .inr ⟨.act θ (.db .none), .serve cmd hdue, hdel, hact⟩
  | answer hc hcall hr hp => exact .inl (answer_abs h hc hcall hr hp)

/-- The runs whose steps, as far as they are seen, meet `ok`. -/
def Seen (O : Objects ι π) (ok : Cluster.State (dbRedis databases) ι π ω → Cluster.Label ι ω → Prop)
    (w : State databases ι π ω) (l : Label ι ω) : Prop :=
  Fine w l ∧ ∀ l', Shows w l l' → ok (abs O w) l'

/-- **The lock manager over its connections refines the system of `Cluster`** over the client whose database steps are
atomic. -/
theorem wired_refines (O : Objects ι π) (ok : Cluster.State (dbRedis databases) ι π ω → Cluster.Label ι ω → Prop) :
    (system O databases ω).Refinement (Seen O ok) (Cluster.system O (dbRedis databases) ω)
      (fun s l => Deliverable O s l ∧ ok s l) (abs O) where
  init _ h := abs_initial h
  step w l w' hr ho hn := by
    refine (abs_step (.of_reach (hr.mono fun _ _ h => h.1)) ho.1 (next_cases hn)).imp_right ?_
    rintro ⟨l', hl, hdel, hn'⟩
    exact ⟨l', ⟨hdel, ho.2 l' hl⟩, hn'⟩

end DistributedLock.Wired
