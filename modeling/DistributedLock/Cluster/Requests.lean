import DistributedLock.Cluster.Connection

/-!
# The lifetimes requested from Redis

`lock_validity_time_` is a 64-bit number of milliseconds.  The acceptance test compares the elapsed time with it as it
is; `SetKeyValue` and `UpdateExpire` pass it to Redis through `int(expire.count())`.

* `At cfg q`: the object calls an operation that has the program point `q`; every command that is sent in a run is sent
  at such a point (`at_of_reach`);
* `OneLifetime`: what is requested on acquisition and on renewal, what Redis then grants, and what the client assumes
  are the same time;
* `one_lifetime`: so it is exactly if a 32-bit `int` can hold `lock_validity_time_`.
-/

set_option linter.unusedSectionVars false

namespace DistributedLock.Redis

def Command.lifetime : Command → Option ℤ
  | .set _ _ px => some px
  | .pexpire _ milliseconds => some milliseconds
  | _ => none

def DBResult.grants : DBResult → Prop
  | .kSetKeySucceed | .kUpdateKeySucceed => True
  | _ => False

end DistributedLock.Redis

namespace DistributedLock.DMutex

open Lib Redis

variable {cfg : Cfg} {q : DBRedisPc}

/-- The object calls an operation that has the program point `q`. -/
def At (cfg : Cfg) (q : DBRedisPc) : Prop := ∃ f pc op k, code cfg f pc = .call op k ∧ DBRedisPc.Inside op q

/-- One lifetime everywhere: it is what every command of the object requests, the time an entry lives from a command on
that has set or renewed it, and what the acceptance test compares the elapsed time with. -/
structure OneLifetime (cfg : Cfg) : Prop where
  requested : ∀ q, At cfg q → ∀ p ∈ q.command.lifetime, p = cfg.lockValidityTime
  granted : ∀ q, At cfg q → q.command.lifetime.isSome → ∀ n now db srv r,
    q.resume (exec n now db srv q.command).reply = .done r → r.grants →
      ∃ e, (exec n now db srv q.command).store db cfg.key = some e ∧ e.expireAt = now + cfg.lockValidityTime
  assumed : ∀ f c p k t, code cfg f (.mainValidity c p) = .clock k →
    (k t = .mainAcceptLock c p ↔ (u64 (t - p.start) : ℤ) ≤ cfg.lockValidityTime)

theorem At.lifetime (h : At cfg q) {p : ℤ} (hp : q.command.lifetime = some p) :
    (q = .set cfg.key cfg.value cfg.lockValidityTime ∨ q = .updatePexpire cfg.key cfg.value cfg.lockValidityTime) ∧
      p = i32 cfg.lockValidityTime := by
  obtain ⟨f, pc, op, k, hc, hin⟩ := h
  rcases code_call hc with ⟨index, rfl⟩ | ⟨_, _, -, rfl⟩ | ⟨_, _, _, _, -, rfl⟩ | ⟨_, _, -, rfl⟩
  · obtain rfl : q = .select index := hin
    cases hp
  · obtain rfl : q = .set cfg.key cfg.value cfg.lockValidityTime := hin
    cases hp
    exact ⟨.inl rfl, rfl⟩
  · rcases hin with rfl | rfl | rfl <;> cases hp
  · rcases hin with rfl | rfl | rfl | rfl <;> cases hp
    · exact ⟨.inl rfl, rfl⟩
    · exact ⟨.inr rfl, rfl⟩

theorem at_set (cfg : Cfg) : At cfg (.set cfg.key cfg.value cfg.lockValidityTime) :=
  ⟨{}, .mainSet .lock ⟨0, [], 0, false⟩, _, _, rfl, rfl⟩

/-- A command that has set or renewed the entry leaves it with the lifetime it requested. -/
theorem At.granted (h : At cfg q) (hpos : 0 < i32 cfg.lockValidityTime) (hsome : q.command.lifetime.isSome)
    {n : ℕ} {now db : ℤ} {srv : Store} {r : DBResult} (hr : q.resume (exec n now db srv q.command).reply = .done r)
    (hgrants : r.grants) : ∃ e, (exec n now db srv q.command).store db cfg.key = some e ∧
      e.expireAt = now + i32 cfg.lockValidityTime := by
  obtain ⟨p, hp⟩ := Option.isSome_iff_exists.mp hsome
  obtain ⟨rfl | rfl, -⟩ := h.lifetime hp
  · simp only [DBRedisPc.command, exec, if_neg (not_le.mpr hpos)] at hr ⊢
    split at hr
    · cases hr
      exact hgrants.elim
    · exact ⟨⟨cfg.value, now + i32 cfg.lockValidityTime⟩, by simp [Store.put], rfl⟩
  · simp only [DBRedisPc.command, exec, if_neg (not_le.mpr hpos)] at hr ⊢
    split at hr
    · rename_i e he
      exact ⟨⟨e.value, now + i32 cfg.lockValidityTime⟩, by simp [Store.put], rfl⟩
    · cases hr
      exact hgrants.elim

/-- **One lifetime everywhere**, exactly if a 32-bit `int` can hold it. -/
theorem one_lifetime (cfg : Cfg) (hpos : 0 < cfg.lockValidityTime) (hint : InInt64 cfg.lockValidityTime) :
    OneLifetime cfg ↔ cfg.lockValidityTime ≤ 2 ^ 31 - 1 := by
  rw [← i32_eq_self_iff hpos]
  constructor
  · intro h
    exact h.requested _ (at_set cfg) _ rfl
  · intro heq
    refine ⟨fun q hq p hp => ?_, fun q hq hsome n now db srv r hr hgrants => ?_, fun f c p k t hc => ?_⟩
    · rw [(hq.lifetime hp).2, heq]
    · have hgranted := hq.granted (by omega) hsome hr hgrants
      rwa [heq] at hgranted
    · simp only [code, Instr.clock.injEq] at hc
      subst hc
      have hu64 : (u64 cfg.lockValidityTime : ℤ) = cfg.lockValidityTime :=
        u64_of_lt hpos.le (by have := hint.2; omega)
      by_cases ht : u64 (t - p.start) ≤ u64 cfg.lockValidityTime
      · refine iff_of_true (if_pos ht) ?_
        omega
      · refine iff_of_false ?_ (by omega)
        beta_reduce
        rw [if_neg ht]
        simp

/-- The default of 30 seconds. -/
theorem one_lifetime_default : OneLifetime ⟨[0], "k", "1", 30000, 20000⟩ :=
  (one_lifetime ⟨[0], "k", "1", 30000, 20000⟩ (by decide) (by decide)).mpr (by decide)

/-- With 2³² + 1 milliseconds, Redis is asked for a lifetime of one. -/
theorem lifetimes_differ :
    ¬ ∀ cfg : Cfg, 0 < cfg.lockValidityTime → InInt64 cfg.lockValidityTime → OneLifetime cfg := by
  intro hall
  have h := (hall ⟨[0], "k", "1", 2 ^ 32 + 1, 20000⟩ (by decide) (by decide)).requested _ (at_set _) 1 (by decide)
  revert h
  decide

end DistributedLock.DMutex

namespace DistributedLock.Cluster

open Lib Redis DMutex

variable {n : ℕ} {ι π ω : Type} [DecidableEq ι] [DecidableEq π] [DecidableEq ω] {O : Objects ι π}
  {s : State (dbRedis n) ι π ω} {θ : Thread ι ω} {fr : Frame (dbRedis n)}

/-- What the threads of an object send in a run, they send at a point of the object. -/
theorem at_of_reach {ok : State (dbRedis n) ι π ω → Label ι ω → Prop} (h : (system O (dbRedis n) ω).Reach ok s)
    (hfr : s.thr θ = some fr) {op : DBOp} {k : DBResult → Pc}
    (hc : code (O.cfg θ.obj) (s.fields θ.obj) fr.pc = .call op k) :
    At (O.cfg θ.obj) (fr.db.getD (DBRedisPc.start op)) :=
  ⟨_, _, op, k, hc, (ConnInv.of_reach (dbRedis_lawful n) h).inside_getD (dbRedis_lawful n) hfr hc⟩

/-- **In every run, all commands of an object request one lifetime**, if an `int` can hold it. -/
theorem requests_one_lifetime {ok : State (dbRedis n) ι π ω → Label ι ω → Prop}
    (h : (system O (dbRedis n) ω).Reach ok s) (hfr : s.thr θ = some fr)
    (hpos : 0 < (O.cfg θ.obj).lockValidityTime) (hint : (O.cfg θ.obj).lockValidityTime ≤ 2 ^ 31 - 1) {op : DBOp}
    {k : DBResult → Pc} (hc : code (O.cfg θ.obj) (s.fields θ.obj) fr.pc = .call op k) {p : ℤ}
    (hp : (fr.db.getD (DBRedisPc.start op)).command.lifetime = some p) : p = (O.cfg θ.obj).lockValidityTime := by
  rw [((at_of_reach h hfr hc).lifetime hp).2]
  exact (i32_eq_self_iff hpos).mpr hint

end DistributedLock.Cluster
