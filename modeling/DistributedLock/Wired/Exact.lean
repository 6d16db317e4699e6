import DistributedLock.Wired.Refinement
import DistributedLock.Pipeline.Exchange
import DistributedLock.Cluster.MutualExclusion

/-!
# Nothing is lost by the atomic steps

Every run of `Cluster` whose commands are performed and answered is one of the lock manager over its
connections: from a state in which the connections are at rest (`Rested`) each command can be carried through
before anything else happens (`exists_command`).  With the refinement, what the lock manager over its
connections reaches, as it is seen, is exactly what `Cluster` reaches (`wired_exact`).

So what holds of `Cluster` may be read off here: two objects are never both held (`held_exclusive`).
-/

set_option linter.unusedSectionVars false

namespace DistributedLock.Wired

open Lib Redis DMutex
open Resp (Bytes wire serverExec_words)
open Cluster (Thread Objects Frame Input)
open Pipeline (Onward)
open Relation (ReflTransGen)

variable {databases : ℕ} {ι π ω : Type} [DecidableEq ι] [DecidableEq π] [DecidableEq ω] {O : Objects ι π}
  {w : State databases ι π ω} {θ : Thread ι ω} {i : ι}
  {ok : Cluster.State (dbRedis databases) ι π ω → Cluster.Label ι ω → Prop}

/-! ## Connections at rest -/

/-- All that has been sent has been answered, and no thread waits. -/
def Rested (w : State databases ι π ω) : Prop :=
  ∀ i, ∃ cmds rs promises, rs.length = cmds.length ∧ w.pipe i = Pipeline.State.rest cmds rs promises

theorem Rested.calls (h : Rested w) (i : ι) (θ : Thread ι ω) : (w.pipe i).calls θ = none := by
  obtain ⟨cmds, rs, promises, -, hrest⟩ := h i
  rw [hrest]
  rfl

theorem Rested.reply (h : Rested w) (θ : Thread ι ω) : w.reply θ = none := reply_none_of_idle (h.calls θ.obj θ)

theorem abs_of_reply (h : ∀ θ, w.reply θ = none) : abs O w = w.core := by
  have hthr : frame O w = w.core.thr := funext fun θ => frame_of_reply_none (h θ)
  have hmtx : (abs O w).mtx = w.core.mtx := by
    funext p
    rw [abs_mtx]
    cases w.core.mtx p with
    | none => rfl
    | some θ => rw [Option.filter_some, raised_of_reply_none (h θ)]; rfl
  calc abs O w = { w.core with thr := frame O w, mtx := (abs O w).mtx } := rfl
    _ = w.core := by rw [hthr, hmtx]

theorem Rested.abs (h : Rested w) : abs O w = w.core := abs_of_reply h.reply

/-! ## A command is carried through -/

theorem State.setPipe_setPipe (w : State databases ι π ω) (i : ι) (p p' : Pipeline.State (Thread ι ω)) :
    (w.setPipe i p).setPipe i p' = w.setPipe i p' := by
  simp only [State.setPipe, Function.update_idem]

theorem reach_onward {p p' : Pipeline.State (Thread ι ω)} (hp : ReflTransGen Onward p p')
    (h : (system O databases ω).Reach (Seen O ok) (w.setPipe i p)) :
    (system O databases ω).Reach (Seen O ok) (w.setPipe i p') := by
  induction hp with
  | refl => exact h
  | @tail p p' _ hstep ih =>
    obtain ⟨l, hcalm, hl, hs, hn⟩ := hstep
    refine ih.step (l := .net i l) ⟨?_, by rintro _ ⟨⟩⟩ ?_
    · show Pipeline.Calm ((w.setPipe i p).pipe i) l
      rw [State.setPipe_self]
      exact hcalm
    · show net (w.setPipe i p) i l = _
      rw [net_eq hl hs, State.setPipe_self, hn, Option.map_some, State.setPipe_setPipe]

theorem calling_of_act {s t : Cluster.State (dbRedis databases) ι π ω} {fault : Fault}
    (h : Cluster.act O s θ (.db fault) = some t) : ∃ fr q k, calling O s θ = some (fr, q, k) := by
  obtain ⟨fr, hfr, ha⟩ := Cluster.act_cases h
  cases ha with
  | @more op k _ _ hc _ => exact ⟨fr, fr.db.getD (DBRedisPc.start op), k, by simp only [calling, hfr, hc]⟩
  | @done op k _ _ hc _ => exact ⟨fr, fr.db.getD (DBRedisPc.start op), k, by simp only [calling, hfr, hc]⟩
  | @raise op k _ _ hc _ => exact ⟨fr, fr.db.getD (DBRedisPc.start op), k, by simp only [calling, hfr, hc]⟩

section Command

variable {fr : Frame (dbRedis databases)} {q : DBRedisPc} {k : DBResult → Pc} {cmds : List (List Bytes)}
  {rs : List Resp.Reply} {promises : ℕ → Option Resp.Reply} {r : Resp.Reply}

theorem reach_asking (h : (system O databases ω).Reach (Seen O ok) w) (hc : calling O w.core θ = some (fr, q, k))
    (hpipe : w.pipe θ.obj = .rest cmds rs promises) :
    (system O databases ω).Reach (Seen O ok)
      (w.setPipe θ.obj (.asking cmds rs promises θ (Resp.Command.words q.command))) := by
  refine h.step (l := .ask θ) ⟨trivial, by rintro _ ⟨⟩⟩ ?_
  have hsend : Pipeline.send (Pipeline.State.rest cmds rs promises) θ (Resp.Command.words q.command) = _ :=
    Pipeline.State.send_rest cmds rs promises θ (Resp.Command.words q.command)
  show ask O w θ = _
  simp only [ask, hc, hpipe, hsend, Option.map_some]

/-- No reply has been given to a command that has only arrived. -/
theorem reply_requested (hrest : Rested w) (hlen : rs.length = cmds.length) (cmd : List Bytes) (θ' : Thread ι ω) :
    (w.setPipe θ.obj (.requested cmds rs promises θ cmd)).reply θ' = none := by
  by_cases hobj : θ'.obj = θ.obj
  · rw [State.reply, hobj, State.setPipe_self]
    by_cases hθ : θ' = θ
    · subst hθ
      show ((Pipeline.State.lone θ' cmds.length .waiting θ').bind fun c => rs[c.number]?) = none
      rw [Pipeline.State.lone_self, Option.bind_some]
      exact List.getElem?_eq_none hlen.le
    · show ((Pipeline.State.lone θ cmds.length .waiting θ').bind fun c => rs[c.number]?) = none
      rw [Pipeline.State.lone_of_ne hθ]
      rfl
  · rw [State.reply, State.setPipe_of_ne _ _ hobj, hrest.calls]
    rfl

theorem reach_replied (hrest : Rested w) (hlen : rs.length = cmds.length) {cmd : List Bytes}
    (h : (system O databases ω).Reach (Seen O ok) (w.setPipe θ.obj (.requested cmds rs promises θ cmd)))
    (hfit : (wire (answer w θ.obj cmd).reply).Fits) (hok : ok w.core (.act θ (.db .none))) :
    (system O databases ω).Reach (Seen O ok)
      ((w.setCore (w.core.setConn θ.obj (answer w θ.obj cmd).db (answer w θ.obj cmd).store)).setPipe θ.obj
        (.replied cmds rs promises θ cmd (wire (answer w θ.obj cmd).reply))) := by
  have habs : abs O (w.setPipe θ.obj (.requested cmds rs promises θ cmd)) = w.core :=
    abs_of_reply (reply_requested hrest hlen cmd)
  refine h.step (l := .serve θ.obj cmd) ⟨hfit, fun l' hl => ?_⟩ ?_
  · -- the thread is the only one that waits on its connection
    generalize hj : θ.obj = j at hl
    cases hl with
    | @serve θ' _ hdue =>
      obtain ⟨c, hcall, -⟩ := hdue
      have hθ : θ' = θ := by
        by_contra hne
        rw [← hj, State.setPipe_self] at hcall
        rw [show (Pipeline.State.requested cmds rs promises θ cmd).calls θ' = none from
          Pipeline.State.lone_of_ne hne ..] at hcall
        cases hcall
      subst hθ
      rw [habs]
      exact hok
  · show serve (w.setPipe θ.obj (.requested cmds rs promises θ cmd)) θ.obj cmd = _
    have hserve := Pipeline.State.serve_requested cmds rs promises θ cmd (wire (answer w θ.obj cmd).reply)
    have hserve' : Pipeline.serve (Pipeline.State.requested cmds rs promises θ cmd) cmd (wire (answer w θ.obj cmd).reply) =
      some (.replied cmds rs promises θ cmd (wire (answer w θ.obj cmd).reply)) := hserve
    simp only [serve, State.setPipe_self, show answer (w.setPipe θ.obj (.requested cmds rs promises θ cmd)) θ.obj cmd =
      answer w θ.obj cmd from rfl, hserve', Option.map_some, State.setPipe_setPipe]
    rfl

theorem reach_answered {cmd : List Bytes} (hc : calling O w.core θ = some (fr, q, k))
    (h : (system O databases ω).Reach (Seen O ok) (w.setPipe θ.obj (.obtained cmds rs promises θ cmd r))) :
    (system O databases ω).Reach (Seen O ok)
      ((w.setCore (resume O w.core θ (after fr q k r))).setPipe θ.obj
        (.rest (cmds ++ [cmd]) (rs ++ [r]) (Function.update promises cmds.length (some r)))) := by
  refine h.step (l := .answer θ) ⟨trivial, by rintro _ ⟨⟩⟩ ?_
  show take O (w.setPipe θ.obj (.obtained cmds rs promises θ cmd r)) θ = _
  have hcall : (Pipeline.State.obtained cmds rs promises θ cmd r).calls θ = some ⟨cmds.length, .synced⟩ :=
    Pipeline.State.lone_self ..
  have hpromise : (Pipeline.State.obtained cmds rs promises θ cmd r).promises cmds.length = some r :=
    Function.update_self ..
  have hget : Pipeline.get (Pipeline.State.obtained cmds rs promises θ cmd r) θ = _ :=
    Pipeline.State.get_obtained cmds rs promises θ cmd r
  simp only [take, show calling O (w.setPipe θ.obj (.obtained cmds rs promises θ cmd r)).core θ = some (fr, q, k) from hc,
    State.setPipe_self, hcall, hpromise, hget, Option.map_some, State.setPipe_setPipe]
  rfl

end Command

/-- **A command is carried through**: from connections at rest to connections at rest, with the effect of the
atomic step. -/
theorem exists_command {t : Cluster.State (dbRedis databases) ι π ω} (h : (system O databases ω).Reach (Seen O ok) w)
    (hrest : Rested w) (hdel : Deliverable O w.core (.act θ (.db .none))) (hok : ok w.core (.act θ (.db .none)))
    (hact : Cluster.act O w.core θ (.db .none) = some t) :
    ∃ w', (system O databases ω).Reach (Seen O ok) w' ∧ Rested w' ∧ w'.core = t := by
  obtain ⟨fr, q, k, hc⟩ := calling_of_act hact
  obtain ⟨cmds, rs, promises, hlen, hpipe⟩ := hrest θ.obj
  have hans : answer w θ.obj (Resp.Command.words q.command) =
      exec databases w.core.now (w.core.conn θ.obj) w.core.srv q.command := serverExec_words ..
  rw [act_db hc, ← hans] at hact
  have hfit := hdel.2 fr q k hc
  rw [← hans] at hfit
  have hrequested := reach_onward (Pipeline.State.request_arrives ..) (reach_asking h hc hpipe)
  have hreplied := reach_replied hrest hlen hrequested hfit hok
  have hobtained := reach_onward (Pipeline.State.reply_arrives _ _ _ _ _ _ hfit) hreplied
  have hc' : ∀ d st, calling O (w.setCore (w.core.setConn θ.obj d st)).core θ = some (fr, q, k) :=
    fun _ _ => (calling_congr rfl rfl).trans hc
  have hdone := reach_answered (hc' _ _) hobtained
  refine ⟨_, hdone, fun i => ?_, Option.some.inj hact⟩
  by_cases hi : i = θ.obj
  · subst hi
    exact ⟨_, _, _, by simp [hlen], State.setPipe_self ..⟩
  · obtain ⟨cmds', rs', promises', hlen', hpipe'⟩ := hrest i
    exact ⟨cmds', rs', promises', hlen', (State.setPipe_of_ne _ _ hi).trans hpipe'⟩

/-! ## The two systems -/

/-- **Every atomic run is one over the connections.** -/
theorem exists_wired {s : Cluster.State (dbRedis databases) ι π ω}
    (h : (Cluster.system O (dbRedis databases) ω).Reach (fun s l => Deliverable O s l ∧ ok s l) s) :
    ∃ w, (system O databases ω).Reach (Seen O ok) w ∧ Rested w ∧ w.core = s := by
  induction h with
  | @init s h₀ =>
    refine ⟨⟨s, fun _ => .fresh⟩, .init ⟨h₀, fun _ => rfl⟩, fun _ => ⟨[], [], fun _ => none, rfl, rfl⟩, rfl⟩
  | @step s s' l hr ho hn ih =>
    obtain ⟨w, hw, hrest, rfl⟩ := ih
    -- a step of the objects alone
    have hcore : ∀ m : Label ι ω, Fine w m → (∀ l', Shows w m l' → l' = l) → next O w m = some (w.setCore s') →
        ∃ w, (system O databases ω).Reach (Seen O ok) w ∧ Rested w ∧ w.core = s' := by
      intro m hfine hshows hm
      refine ⟨w.setCore s', hw.step ⟨hfine, fun l' hl => ?_⟩ hm, hrest, rfl⟩
      rw [hshows l' hl, hrest.abs]
      exact ho.2
    cases l with
    | tick t =>
      refine hcore (.tick t) trivial (by rintro _ ⟨⟩; rfl) ?_
      exact congrArg (Option.map w.setCore) hn
    | call i c =>
      refine hcore (.call i c) trivial (by rintro _ ⟨⟩; rfl) ?_
      exact congrArg (Option.map w.setCore) hn
    | keep i wk =>
      refine hcore (.keep i wk) trivial (by rintro _ ⟨⟩; rfl) ?_
      exact congrArg (Option.map w.setCore) hn
    | act θ inp =>
      have hact : (∀ f, inp ≠ .db f) → ∃ w, (system O databases ω).Reach (Seen O ok) w ∧ Rested w ∧ w.core = s' := by
        intro hinp
        refine hcore (.act θ inp) (fun _ _ _ _ θ' _ => hrest.calls θ.obj θ') (by rintro _ ⟨⟩; rfl) ?_
        have hmap := congrArg (Option.map w.setCore) hn
        cases inp with
        | db f => exact absurd rfl (hinp f)
        | _ => exact (if_pos (hrest.calls θ.obj θ)).trans hmap
      cases inp with
      | db fault =>
        obtain rfl := ho.1.1
        exact exists_command hw hrest ho.1 ho.2 hn
      | _ => exact hact (by rintro _ ⟨⟩)

/-- **What the lock manager over its connections reaches, as it is seen, is exactly what the system of atomic steps
reaches**, under any condition on the steps that are seen. -/
theorem wired_exact (O : Objects ι π) (ok : Cluster.State (dbRedis databases) ι π ω → Cluster.Label ι ω → Prop)
    (s : Cluster.State (dbRedis databases) ι π ω) :
    (∃ w, (system O databases ω).Reach (Seen O ok) w ∧ abs O w = s) ↔
      (Cluster.system O (dbRedis databases) ω).Reach (fun s l => Deliverable O s l ∧ ok s l) s := by
  constructor
  · rintro ⟨w, hw, rfl⟩
    exact (wired_refines O ok).reach hw
  · intro h
    obtain ⟨w, hw, hrest, rfl⟩ := exists_wired h
    exact ⟨w, hw, hrest.abs⟩

/-! ## Mutual exclusion over the connections -/

/-- **Mutual exclusion over the connections.**  However the bytes of the commands and of the replies travel, and
whatever the threads do meanwhile, two objects that compete for a lock are never both held, in the runs in which
each object is used alternately and no lifetime runs out. -/
theorem held_exclusive (hO : Cluster.Rivals O) (h : (system O databases ω).Reach (Seen O Cluster.Regular) w) {i j : ι}
    (hi : w.core.held i = true) (hj : w.core.held j = true) : i = j := by
  refine (wired_refines O Cluster.Regular).invariant (P := fun s => s.held i = true → s.held j = true → i = j)
    (fun s hs hi hj => ?_) h hi hj
  exact (Cluster.Inv.of_reach hO.toContenders (hs.mono fun _ _ hok => hok.2)).eq_of_held hO hi hj

def deliverable (O : Objects ι π) (s : Cluster.State (dbRedis databases) ι π ω) : Cluster.Label ι ω → Bool
  | .act θ (.db .none) =>
    match calling O s θ with
    | some (_, q, _) => decide (wire (exec databases s.now (s.conn θ.obj) s.srv q.command).reply).Fits
    | none => true
  | .act _ (.db _) => false
  | _ => true

theorem deliverable_of_test (s : Cluster.State (dbRedis databases) ι π ω) (l : Cluster.Label ι ω)
    (h : deliverable O s l = true) : Deliverable O s l := by
  cases l with
  | act θ inp =>
    cases inp with
    | db fault =>
      cases fault with
      | none =>
        refine ⟨rfl, fun fr q k hc => ?_⟩
        simp only [deliverable, hc] at h
        exact of_decide_eq_true h
      | _ => cases h
    | _ => trivial
  | _ => trivial

/-- The attempt of the second object fails while the first one is held. -/
theorem held_exclusive_two : ∃ w : State 16 Bool Unit Unit,
    (system (Cluster.twoObjects [0, 1, 2]) 16 Unit).Reach (Seen (Cluster.twoObjects [0, 1, 2]) Cluster.Regular) w ∧
      w.core.held false = true ∧ (∃ fr c, w.core.thr (.caller true) = some fr ∧ fr.pc = .failed c) ∧
      w.core.held true = false := by
  have hok : ∀ (s : Cluster.State (dbRedis 16) Bool Unit Unit) l,
      (deliverable (Cluster.twoObjects [0, 1, 2]) s l && Cluster.regular s l) = true →
        Deliverable (Cluster.twoObjects [0, 1, 2]) s l ∧ Cluster.Regular s l := by
    intro s l h
    rw [Bool.and_eq_true] at h
    exact ⟨deliverable_of_test s l h.1, Cluster.regular_of_test s l h.2⟩
  obtain ⟨s, hr, hs⟩ := Machine.exists_reach (Cluster.system (Cluster.twoObjects [0, 1, 2]) (dbRedis 16) Unit)
    (Cluster.lockPass false [2, 0, 1] 5 ++ Cluster.accept false 7 ++ Cluster.refused true [1, 0, 2] 8)
    (fun s => s.held false && Cluster.hasFailed true s) hok Cluster.State.blank_initial (by decide +kernel)
  rw [Bool.and_eq_true] at hs
  obtain ⟨w, hw, -, rfl⟩ := exists_wired hr
  refine ⟨w, hw, hs.1, Cluster.hasFailed_iff hs.2, ?_⟩
  by_contra hne
  have heq := held_exclusive (Cluster.twoObjects_rivals _) hw hs.1 (j := true) (by simpa using hne)
  cases heq

end DistributedLock.Wired
