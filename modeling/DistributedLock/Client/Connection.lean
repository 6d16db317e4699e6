import DistributedLock.Client.Defs
import DistributedLock.DMutex.Points
import DistributedLock.Redis.Steps

/-!
# Every command on the key runs in the database of its loop

The database selected on the connection is hidden state that all threads of the object share.  Whoever is between a
successful `SelectDB` and the operation on the key owns `mtx_`, and so nobody else selects a database in between: when a
`SET`, `EXISTS`, `GET`, `PEXPIRE` or `DEL` is executed, the last `SELECT` was for the host its loop is working on, and
it succeeded (`keyed_command_in_selected_db`).
-/

set_option linter.unusedSectionVars false

namespace DistributedLock.Client

open Lib Redis DMutex
open Cluster (Frame Input)

variable {τ : Type} [DecidableEq τ] {cfg : Cfg} {databases : ℕ}

def commandAt (cfg : Cfg) (s : State (dbRedis databases) τ) (a : τ) : Option Command :=
  (s.thr a).bind fun fr =>
    match code cfg s.fields fr.pc with
    | .call op _ => some (DBRedisPc.command (fr.db.getD (DBRedisPc.start op)))
    | _ => none

/-- The operation was a `SelectDB` that succeeded. -/
def selects : Resp DBRedisPc → Bool
  | .done .kSelectDBSucceed => true
  | _ => false

/-- The index of the last `SELECT` on the connection, and whether it succeeded. -/
def lastSelect (cfg : Cfg) (s : State (dbRedis databases) τ) (l : Label τ) (_ : State (dbRedis databases) τ)
    (g : Option (ℤ × Bool)) : Option (ℤ × Bool) :=
  match l with
  | .act a (.db fault) =>
    match s.thr a with
    | none => g
    | some fr =>
      match code cfg s.fields fr.pc with
      | .call (.selectDB index) _ => some (index, selects (dbStep s fr.db (.selectDB index) fault).resp)
      | _ => g
  | _ => g

/-- The system of one object, with its last `SELECT`. -/
def selecting (cfg : Cfg) (databases : ℕ) (τ : Type) [DecidableEq τ] :
    Machine (State (dbRedis databases) τ × Option (ℤ × Bool)) (Label τ) :=
  (system cfg (dbRedis databases) τ).withHistory none (lastSelect cfg)

/-! ## The invariant -/

variable {s s' : State (dbRedis databases) τ} {g g' : Option (ℤ × Bool)} {a : τ} {fr : Frame (dbRedis databases)}
  {inp : Input}

structure ConnInv (cfg : Cfg) (s : State (dbRedis databases) τ) (g : Option (ℤ × Bool)) : Prop where
  owner : ∀ a fr, s.thr a = some fr → fr.pc.owned = true → s.mtx = some (some a)
  selected : ∀ a fr h, s.thr a = some fr → fr.pc.target = some h → s.conn = h ∧ g = some (h, true)
  within : ∀ a fr q, s.thr a = some fr → fr.db = some q → ∃ op, fr.pc.keyed cfg = some op ∧ DBRedisPc.Inside op q

namespace ConnInv

structure FrameOk (cfg : Cfg) (s : State (dbRedis databases) τ) (g : Option (ℤ × Bool)) (a : τ)
    (fr : Frame (dbRedis databases)) : Prop where
  owner : fr.pc.owned = true → s.mtx = some (some a)
  selected : ∀ h, fr.pc.target = some h → s.conn = h ∧ g = some (h, true)
  within : ∀ q, fr.db = some q → ∃ op, fr.pc.keyed cfg = some op ∧ DBRedisPc.Inside op q

theorem frameOk (h : ConnInv cfg s g) (hfr : s.thr a = some fr) : FrameOk cfg s g a fr :=
  ⟨h.owner a fr hfr, fun x => h.selected a fr x hfr, fun q => h.within a fr q hfr⟩

/-- A step that changes the frame of one thread.  The mutex may change hands only if no other thread of the object owns
it, and the connection only if the thread owns it. -/
theorem frame (h : ConnInv cfg s g) {x : Option (Frame (dbRedis databases))}
    (hthr : s'.thr = Function.update s.thr a x)
    (hmtx : s'.mtx = s.mtx ∨ ∀ b, b ≠ a → s.mtx ≠ some (some b))
    (hconn : (s'.conn = s.conn ∧ g' = g) ∨ s.mtx = some (some a))
    (hx : ∀ fr', x = some fr' → FrameOk cfg s' g' a fr') : ConnInv cfg s' g' := by
  have hall : ∀ b fr', s'.thr b = some fr' → FrameOk cfg s' g' b fr' := by
    intro b fr' hb
    rw [hthr] at hb
    by_cases hba : b = a
    · rw [hba, Function.update_self] at hb
      rw [hba]
      exact hx fr' hb
    · rw [Function.update_of_ne hba] at hb
      have hold := h.frameOk hb
      refine ⟨fun hown => ?_, fun host htarget => ?_, hold.within⟩
      · have hm := hold.owner hown
        rcases hmtx with hmtx | hmtx
        · rw [hmtx]
          exact hm
        · exact absurd hm (hmtx b hba)
      · rcases hconn with ⟨hc, hg⟩ | hm
        · rw [hc, hg]
          exact hold.selected host htarget
        · -- both threads would own the mutex
          have hm' := hold.owner (Pc.owned_of_target htarget)
          rw [hm] at hm'
          cases hm'
          exact absurd rfl hba
  exact ⟨fun b fr' hb => (hall b fr' hb).owner, fun b fr' host hb => (hall b fr' hb).selected host,
    fun b fr' q hb => (hall b fr' hb).within q⟩

/-- A program point without a target, outside the database operations. -/
theorem frameOk_of_target {pc : Pc} (hown : pc.owned = true → s.mtx = some (some a)) (ht : pc.target = none) :
    ∀ fr', some (⟨pc, none⟩ : Frame (dbRedis databases)) = some fr' → FrameOk cfg s g a fr' := by
  rintro _ ⟨⟩
  exact ⟨hown, fun h hh => (by rw [ht] at hh; cases hh), fun q hq => by cases hq⟩

/-- The program point of the database operation a thread is in belongs to the operation it calls. -/
theorem inside_getD (h : ConnInv cfg s g) (hfr : s.thr a = some fr) {op : DBOp} {k : DBResult → Pc}
    (hc : code cfg s.fields fr.pc = .call op k) : DBRedisPc.Inside op (fr.db.getD (DBRedisPc.start op)) := by
  cases hq : fr.db with
  | none => exact inside_start (n := databases) op
  | some q =>
    obtain ⟨op', h1, h2⟩ := h.within a fr q hfr hq
    have ha := code_aims cfg s.fields fr.pc
    rw [hc] at ha
    rcases ha with ⟨index, rfl, -⟩ | ⟨-, hk, -⟩
    · -- a keyed program point calls no `SelectDB`
      cases hpc : fr.pc <;> rw [hpc] at h1 hc <;> simp [Pc.keyed, code] at h1 hc
    · rw [hk] at h1
      cases h1
      exact h2

theorem lastSelect_of_keyed {fault : Fault} {op : DBOp} {k : DBResult → Pc} (hfr : s.thr a = some fr)
    (hc : code cfg s.fields fr.pc = .call op k) (hop : ∀ index, op ≠ .selectDB index) :
    lastSelect cfg s (.act a (.db fault)) s' g = g := by
  simp only [lastSelect, hfr, hc]
  cases op with
  | selectDB index => exact absurd rfl (hop index)
  | setKeyValue key value expire | updateExpire key value expire | delKeyValue key value => rfl

theorem leave (h : ConnInv cfg s g) : ConnInv cfg (s.leave a) g := by
  refine h.frame rfl ?_ (.inl ⟨rfl, rfl⟩) (by rintro _ ⟨⟩)
  by_cases hm : s.mtx = some (some a)
  · refine .inr fun b hb hm' => ?_
    rw [hm] at hm'
    cases hm'
    exact hb rfl
  · exact .inl (if_neg hm)

theorem acts (h : ConnInv cfg s g) (hfr : s.thr a = some fr) (ha : Acts cfg s a fr inp s') :
    ConnInv cfg s' (lastSelect cfg s (.act a inp) s' g) := by
  have hk := code_keeps cfg s.fields fr.pc
  have haim := code_aims cfg s.fields fr.pc
  have hown := h.owner a fr hfr
  cases ha with
  | @tau f pc hc =>
    rw [hc] at hk haim
    exact h.frame rfl (.inl rfl) (.inl ⟨rfl, rfl⟩) (frameOk_of_target (fun ho => hown (hk.symm.trans ho)) haim)
  | @lock pc hc hfree =>
    rw [hc] at haim
    refine h.frame rfl (.inr fun b _ hm => ?_) (.inl ⟨rfl, rfl⟩) (frameOk_of_target (fun _ => rfl) haim)
    rw [hfree] at hm
    cases hm
  | @unlock pc hc =>
    rw [hc] at hk haim
    refine h.frame rfl (.inr fun b hb hm => ?_) (.inl ⟨rfl, rfl⟩) (frameOk_of_target (fun ho => ?_) haim)
    · rw [hown hk.1] at hm
      cases hm
      exact hb rfl
    · rw [hk.2] at ho
      cases ho
  | @more op k fault q hc hr =>
    have hin := h.inside_getD hfr hc
    obtain ⟨hq, hop⟩ := (dbRedis_lawful databases).more hin hr
    rw [hc] at hk haim
    have hdb : (dbStep s fr.db op fault).db = s.conn := (dbRedis_lawful databases).db hin hop
    have hsame : lastSelect cfg s (.act a (.db fault)) ((afterDb s fr.db op fault).goto a fr.pc (some q)) g = g :=
      lastSelect_of_keyed hfr hc hop
    rw [hsame]
    refine h.frame rfl (.inl rfl) (.inl ⟨hdb, rfl⟩) ?_
    rintro _ ⟨⟩
    refine ⟨hown, fun host ht => ⟨hdb.trans (h.selected a fr host hfr ht).1, (h.selected a fr host hfr ht).2⟩, ?_⟩
    rintro q' ⟨⟩
    rcases haim with ⟨index, rfl, -⟩ | ⟨-, hkey, -⟩
    · exact absurd rfl (hop index)
    · exact ⟨op, hkey, hq⟩
  | @done op k fault r hc hr =>
    have hin := h.inside_getD hfr hc
    rw [hc] at hk
    have hm := hown hk.1
    refine h.frame rfl (.inl rfl) (.inr hm) ?_
    rintro _ ⟨⟩
    refine ⟨fun _ => hm, fun host ht => ?_, fun q hq => by cases hq⟩
    rw [hc] at haim
    rcases haim with ⟨index, rfl, hsel⟩ | ⟨-, -, hnone⟩
    · obtain ⟨rfl, rfl⟩ := hsel r host ht
      refine ⟨(dbRedis_lawful databases).select hin hr, ?_⟩
      simp only [lastSelect, hfr, hc, hr]
      rfl
    · rw [hnone r] at ht
      cases ht
  | @raise op k fault what hc hr =>
    rw [hc] at hk
    have hm := hown hk.1
    refine h.frame rfl (.inr fun b hb hm' => ?_) (.inr hm) (by rintro _ ⟨⟩)
    rw [hm] at hm'
    cases hm'
    exact hb rfl
  | @clock k t hc =>
    rw [hc] at hk haim
    exact h.frame rfl (.inl rfl) (.inl ⟨rfl, rfl⟩) (frameOk_of_target (fun ho => hown ((hk t).symm.trans ho)) (haim t))
  | @shuffle k v hc hv =>
    rw [hc] at hk haim
    exact h.frame rfl (.inl rfl) (.inl ⟨rfl, rfl⟩) (frameOk_of_target (fun ho => hown ((hk v).symm.trans ho)) (haim v))
  | @pushEvent f period pc hc =>
    rw [hc] at hk haim
    exact h.frame rfl (.inl rfl) (.inl ⟨rfl, rfl⟩) (frameOk_of_target (fun _ => hown hk.1) haim)
  | ret hc | throw hc => exact h.leave

theorem step (h : ConnInv cfg s g) {l : Label τ} (hs : next cfg s l = some s') :
    ConnInv cfg s' (lastSelect cfg s l s' g) := by
  rcases next_cases hs with ⟨t, srv, rfl, -, rfl⟩ | ⟨rfl, hm, rfl⟩ | ⟨rfl, hm, rfl⟩ | ⟨a, c, rfl, hn, rfl⟩ |
    ⟨a, rfl, hn, rfl⟩ | ⟨a, inp, fr, rfl, hfr, ha⟩
  · exact ⟨h.owner, h.selected, h.within⟩
  · refine ⟨fun a fr hfr hown => ?_, h.selected, h.within⟩
    have := h.owner a fr hfr hown
    rw [hm] at this
    cases this
  · refine ⟨fun a fr hfr hown => ?_, h.selected, h.within⟩
    have := h.owner a fr hfr hown
    rw [hm] at this
    cases this
  · refine h.frame rfl (.inl rfl) (.inl ⟨rfl, rfl⟩) (frameOk_of_target (fun ho => ?_) ?_)
    · cases c <;> cases ho
    · cases c <;> rfl
  · refine h.frame rfl (.inl rfl) (.inl ⟨rfl, rfl⟩) (frameOk_of_target (fun ho => ?_) rfl)
    cases ho
  · exact h.acts hfr ha

theorem of_reach {ok : State (dbRedis databases) τ × Option (ℤ × Bool) → Label τ → Prop}
    {y : State (dbRedis databases) τ × Option (ℤ × Bool)} (h : (selecting cfg databases τ).Reach ok y) :
    ConnInv cfg y.1 y.2 := by
  refine h.invariant (I := fun y => ConnInv cfg y.1 y.2) (fun y h₀ => ?_) fun y l y' _ hi _ hn => ?_
  · have h₀ : Initial y.1 := And.left h₀
    refine ⟨fun a fr hfr => ?_, fun a fr _ hfr => ?_, fun a fr _ hfr => ?_⟩ <;>
      (rw [h₀.thr] at hfr; cases hfr)
  · obtain ⟨hn, hg⟩ := Machine.withHistory_next.mp hn
    rw [hg]
    exact hi.step hn

end ConnInv

/-! ## The result -/

/-- **Every command on the key runs in the database of its loop.**  When a thread is about to send a command other than
`SELECT`, the database selected on the connection is the host its loop is working on, and the last `SELECT` was for
that host and succeeded. -/
theorem keyed_command_in_selected_db {y : State (dbRedis databases) τ × Option (ℤ × Bool)}
    (h : (selecting cfg databases τ).Reach (fun _ _ => True) y) {a : τ} {c : Command}
    (hc : commandAt cfg y.1 a = some c) (hkeyed : ∀ index, c ≠ .select index) :
    ∃ fr host, y.1.thr a = some fr ∧ fr.pc.target = some host ∧ y.1.conn = host ∧ y.2 = some (host, true) := by
  have hinv := ConnInv.of_reach h
  obtain ⟨fr, hfr, hcmd⟩ := Option.bind_eq_some_iff.mp hc
  split at hcmd
  · rename_i op k hcode
    have hin := hinv.inside_getD hfr hcode
    have haim := code_aims cfg y.1.fields fr.pc
    rw [hcode] at haim
    rcases haim with ⟨index, rfl, -⟩ | ⟨-, hkey, -⟩
    · have hq : fr.db.getD (DBRedisPc.start (.selectDB index)) = .select index := hin
      rw [hq] at hcmd
      cases hcmd
      exact absurd rfl (hkeyed index)
    · obtain ⟨host, htarget⟩ := Pc.target_of_keyed hkey
      exact ⟨fr, host, hfr, htarget, hinv.selected a fr host hfr htarget⟩
  · cases hcmd

def oneHost : Cfg := ⟨[3], "k", "1", 30000, 20000⟩

/-- A caller is about to send its `SET` while another one is in `unlock()`. -/
theorem keyed_command_in_selected_db_two : ∃ y : State (dbRedis 16) Bool × Option (ℤ × Bool),
    (selecting oneHost 16 Bool).Reach (fun _ _ => True) y ∧
    (commandAt oneHost y.1 true = some (.set "k" "1" 30000) ∧ (y.1.thr false).isSome = true) ∧
    ∃ fr host, y.1.thr true = some fr ∧ fr.pc.target = some host ∧ y.1.conn = host ∧ y.2 = some (host, true) := by
  obtain ⟨y, hr, hs⟩ := (selecting oneHost 16 Bool).exists_reach_of_decidable (fun _ _ => True)
    (.call false .unlock :: .call true .lock ::
      [.none, .clock 0, .shuffle [3], .none, .none, .db .none].map (.act true))
    (fun y => commandAt oneHost y.1 true == some (.set "k" "1" 30000) && (y.1.thr false).isSome)
    (s := (State.blank, none)) ⟨State.blank_initial, rfl⟩ (by decide)
  simp only [Bool.and_eq_true, beq_iff_eq] at hs
  exact ⟨y, hr, hs, keyed_command_in_selected_db hr hs.1 (by rintro index ⟨⟩)⟩

end DistributedLock.Client
