import DistributedLock.Redis.DBRedis

/-!
# What one command of `DBRedis` does

* `DBRedisPc.Inside`: the program points of an operation;
* a command never takes away a held entry unless it is a `DEL` of its key, or a `PEXPIRE` of it with a lifetime
  that is not positive (`step_holds`);
* a `SET` that reports success found no live entry and left one (`step_set_succeed`);
* the acting command of `UpdateExpire` and `DelKeyValue` is only reached from a `GET` that found the value
  (`step_get_more`).
-/

namespace DistributedLock.Redis

open Lib

section Commands

variable {n : ℕ} {now db d : ℤ} {s : Store} {c : Command} {key k value v : String} {fault : Fault}

/-- The command takes the entry of `key` away, if there is one. -/
def Command.Removes (key : String) : Command → Prop
  | .del k => k = key
  | .pexpire k milliseconds => k = key ∧ milliseconds ≤ 0
  | _ => False

theorem exec_holds (h : s.Holds now d k v) (hc : c.Removes k → d ≠ db) :
    (exec n now db s c).store.Holds now d k v := by
  obtain ⟨e, he, rfl⟩ := h
  cases c with
  | select index => simp only [exec]; split <;> exact ⟨e, he, rfl⟩
  | set key value px =>
    simp only [exec]
    split
    · exact ⟨e, he, rfl⟩
    · split
      · exact ⟨e, he, rfl⟩
      · rename_i hnone
        refine ⟨e, ?_, rfl⟩
        rw [Store.live_put_of_ne]
        · exact he
        · rintro ⟨rfl, rfl⟩
          rw [hnone] at he
          cases he
  | «exists» key => exact ⟨e, he, rfl⟩
  | get key => simp only [exec]; split <;> exact ⟨e, he, rfl⟩
  | pexpire key milliseconds =>
    simp only [exec]
    split
    · rename_i e' he'
      by_cases hdk : d = db ∧ k = key
      · obtain ⟨rfl, rfl⟩ := hdk
        rw [he'] at he
        cases he
        have hpos : ¬ milliseconds ≤ 0 := fun hle => hc ⟨rfl, hle⟩ rfl
        simp only [if_neg hpos]
        exact Store.Holds.put ⟨e.value, now + milliseconds⟩ (by simp only; omega)
      · exact ⟨e, by rw [Store.live_put_of_ne _ hdk]; exact he, rfl⟩
    · exact ⟨e, he, rfl⟩
  | del key =>
    simp only [exec]
    split
    · refine ⟨e, ?_, rfl⟩
      rw [Store.live_put_of_ne]
      · exact he
      · rintro ⟨rfl, rfl⟩
        exact hc rfl rfl
    · exact ⟨e, he, rfl⟩

theorem answer_cases (n : ℕ) (fault : Fault) (now db : ℤ) (s : Store) (c : Command) :
    ((answer n fault now db s c).db = db ∧ (answer n fault now db s c).store = s) ∨
      ((answer n fault now db s c).db = (exec n now db s c).db ∧
        (answer n fault now db s c).store = (exec n now db s c).store) := by
  cases fault with
  | none => exact .inr ⟨rfl, rfl⟩
  | unperformed e => exact .inl ⟨rfl, rfl⟩
  | performed e => exact .inr ⟨rfl, rfl⟩

theorem answer_holds (h : s.Holds now d k v) (hc : c.Removes k → d ≠ db) :
    (answer n fault now db s c).store.Holds now d k v := by
  rcases answer_cases n fault now db s c with ⟨-, hs⟩ | ⟨-, hs⟩
  · rw [hs]; exact h
  · rw [hs]; exact exec_holds h hc

theorem exec_absent (h : ¬ s.Holds now d k v) (hc : ∀ px, c ≠ .set k v px) :
    ¬ (exec n now db s c).store.Holds now d k v := by
  -- replacing an entry by one of another value, or by none
  have hput : ∀ {key : String} {x : Option Entry}, (∀ e, x = some e → d = db ∧ k = key → e.value ≠ v) →
      ¬ (s.put db key x).Holds now d k v := by
    rintro key x hx ⟨e, he, hv⟩
    by_cases hdk : d = db ∧ k = key
    · obtain ⟨rfl, rfl⟩ := hdk
      rw [Store.live_put_self, Option.filter_eq_some_iff] at he
      exact hx e he.1 ⟨rfl, rfl⟩ hv
    · rw [Store.live_put_of_ne _ hdk] at he
      exact h ⟨e, he, hv⟩
  cases c with
  | select index => simp only [exec]; split <;> exact h
  | set key value px =>
    simp only [exec]
    split
    · exact h
    · split
      · exact h
      · refine hput ?_
        rintro e ⟨⟩ ⟨-, rfl⟩ rfl
        exact hc px rfl
  | «exists» key => exact h
  | get key => simp only [exec]; split <;> exact h
  | pexpire key milliseconds =>
    simp only [exec]
    split
    · rename_i e₀ he₀
      refine hput ?_
      rintro e he ⟨rfl, rfl⟩ rfl
      split at he
      · cases he
      · cases he
        exact h ⟨e₀, he₀, rfl⟩
    · exact h
  | del key =>
    simp only [exec]
    split
    · exact hput (by rintro e ⟨⟩)
    · exact h

theorem answer_absent (h : ¬ s.Holds now d k v) (hc : ∀ px, c ≠ .set k v px) :
    ¬ (answer n fault now db s c).store.Holds now d k v := by
  rcases answer_cases n fault now db s c with ⟨-, hs⟩ | ⟨-, hs⟩
  · rw [hs]; exact h
  · rw [hs]; exact exec_absent h hc

theorem exec_db (hc : ∀ index, c ≠ .select index) : (exec n now db s c).db = db := by
  cases c with
  | select index => exact absurd rfl (hc index)
  | set key value px => simp only [exec]; split; rfl; split <;> rfl
  | «exists» key => rfl
  | get key => simp only [exec]; split <;> rfl
  | pexpire key milliseconds => simp only [exec]; split <;> rfl
  | del key => simp only [exec]; split <;> rfl

theorem answer_db (hc : ∀ index, c ≠ .select index) : (answer n fault now db s c).db = db := by
  rcases answer_cases n fault now db s c with ⟨h, -⟩ | ⟨h, -⟩
  · exact h
  · exact h.trans (exec_db hc)

end Commands

/-! ## Steps of the operations -/

def DBRedisPc.Inside : DBOp → DBRedisPc → Prop
  | .selectDB index, q => q = .select index
  | .setKeyValue key value expire, q => q = .set key value expire
  | .updateExpire key value expire, q =>
    q = .updateExists key value expire ∨ q = .set key value expire ∨ q = .updateGet key value expire ∨
      q = .updatePexpire key value expire
  | .delKeyValue key value, q => q = .delExists key value ∨ q = .delGet key value ∨ q = .delDel key value

def Fault.text : Fault → Option String
  | .none => Option.none
  | .unperformed e => some e.text
  | .performed e => some e.text

def DBRedisPc.key : DBRedisPc → String
  | .select _ => ""
  | .set k _ _ | .updateExists k _ _ | .updateGet k _ _ | .updatePexpire k _ _ => k
  | .delExists k _ | .delGet k _ | .delDel k _ => k

def DBRedisPc.value : DBRedisPc → String
  | .select _ => ""
  | .set _ v _ | .updateExists _ v _ | .updateGet _ v _ | .updatePexpire _ v _ => v
  | .delExists _ v | .delGet _ v | .delDel _ v => v

/-- The program point is a `GET` of an operation for `value`. -/
def DBRedisPc.gets (value : String) : DBRedisPc → Prop
  | .updateGet _ v _ => v = value
  | .delGet _ v => v = value
  | _ => False

section Operations

variable {n : ℕ} {now db d : ℤ} {s : Store} {key k value v : String} {fault : Fault} {op : DBOp} {q q' : DBRedisPc}

theorem inside_start (op : DBOp) : DBRedisPc.Inside op ((dbRedis n).start op) := by
  cases op with
  | selectDB index => rfl
  | setKeyValue key value expire => rfl
  | updateExpire key value expire => exact .inl rfl
  | delKeyValue key value => exact .inl rfl

theorem step_inside (hin : DBRedisPc.Inside op q) (h : ((dbRedis n).step fault q now db s).resp = .more q') :
    DBRedisPc.Inside op q' := by
  simp only [dbRedis] at h
  cases q <;> simp only [DBRedisPc.resume] at h <;> (repeat' split at h) <;> cases h <;>
    cases op <;> simp_all [DBRedisPc.Inside]

/-- The database of the connection only changes by `SelectDB`. -/
theorem step_db (hin : DBRedisPc.Inside op q) (hop : ∀ index, op ≠ .selectDB index) :
    ((dbRedis n).step fault q now db s).db = db := by
  refine answer_db fun index hq => ?_
  cases q <;> simp only [DBRedisPc.command, reduceCtorEq] at hq
  cases op <;> simp_all [DBRedisPc.Inside]

/-- `SelectDB` reports success only when there is such a database, and it is selected. -/
theorem step_select {index : ℤ} (h : ((dbRedis n).step fault (.select index) now db s).resp = .done .kSelectDBSucceed) :
    (0 ≤ index ∧ index < n) ∧ ((dbRedis n).step fault (.select index) now db s).db = index := by
  cases fault with
  | none =>
    simp only [dbRedis, answer, DBRedisPc.command, exec] at h ⊢
    split at h
    · rename_i hi; exact ⟨hi, by rw [if_pos hi]⟩
    · simp [DBRedisPc.resume, Reply.asString] at h
  | unperformed e =>
    simp [dbRedis, answer, DBRedisPc.resume, Reply.asString, e.ne_ok] at h
    split at h <;> cases h
  | performed e =>
    simp [dbRedis, answer, DBRedisPc.resume, Reply.asString, e.ne_ok] at h
    split at h <;> cases h

/-- A held entry survives every step but a `DEL` of it and a `PEXPIRE` of it with a lifetime that is not
positive. -/
theorem step_holds (h : s.Holds now d k v) (hq : q.command.Removes k → d ≠ db) :
    ((dbRedis n).step fault q now db s).store.Holds now d k v :=
  answer_holds h hq

theorem step_set_succeed {expire : ℤ}
    (h : ((dbRedis n).step fault (.set key value expire) now db s).resp = .done .kSetKeySucceed) :
    0 < i32 expire ∧ s.live now db key = none ∧
      ((dbRedis n).step fault (.set key value expire) now db s).store =
        s.put db key (some ⟨value, now + i32 expire⟩) := by
  cases fault with
  | none =>
    simp only [dbRedis, answer, DBRedisPc.command, exec] at h ⊢
    split at h
    · simp [DBRedisPc.resume, Reply.isNull, Reply.ok, Reply.isError] at h
    · rename_i hpos
      rw [if_neg hpos]
      split at h
      · simp [DBRedisPc.resume, Reply.isNull] at h
      · rename_i hnone
        exact ⟨by omega, hnone, by simp⟩
  | unperformed e => simp [dbRedis, answer, DBRedisPc.resume, Reply.isNull, Reply.ok, Reply.isError] at h
  | performed e => simp [dbRedis, answer, DBRedisPc.resume, Reply.isNull, Reply.ok, Reply.isError] at h

theorem step_absent (h : ¬ s.Holds now d k v) (hq : ∀ expire, q ≠ .set k v expire) :
    ¬ ((dbRedis n).step fault q now db s).store.Holds now d k v := by
  refine answer_absent h fun px hc => ?_
  cases q <;> simp only [DBRedisPc.command, reduceCtorEq, Command.set.injEq] at hc
  obtain ⟨rfl, rfl, -⟩ := hc
  exact hq _ rfl

/-- A `DelKeyValue` that returns, its commands answered, leaves no entry of this key and value. -/
theorem step_del_done (hin : DBRedisPc.Inside (.delKeyValue key value) q) {r : DBResult}
    (h : ((dbRedis n).step .none q now db s).resp = .done r) :
    ¬ ((dbRedis n).step .none q now db s).store.Holds now db key value := by
  rcases hin with rfl | rfl | rfl
  · -- `EXISTS` answers 0
    rintro ⟨e, he, -⟩
    simp only [dbRedis, answer, DBRedisPc.command, exec, DBRedisPc.resume, Reply.asInteger] at h he
    simp [he, u64] at h
  · -- `GET` answers another value
    rintro ⟨e, he, hv⟩
    simp only [dbRedis, answer, DBRedisPc.command, exec] at h he
    split at h
    · rename_i e' he'
      simp only [he', Option.some.injEq] at he
      subst he
      simp [DBRedisPc.resume, Reply.asString, hv] at h
    · simp [DBRedisPc.resume, Reply.asString] at h
  · -- `DEL` was executed
    rintro ⟨e, he, -⟩
    simp only [dbRedis, answer, DBRedisPc.command, exec] at he
    split at he
    · simp at he
    · rename_i hnone
      simp only [hnone] at he
      cases he

/-- A `GET` that reads `value` found it, unless it was answered by an error with that very text. -/
theorem answer_get (hf : fault.text ≠ some value)
    (h : (answer n fault now db s (.get key)).reply.asString = .ok value) : s.Holds now db key value := by
  cases fault with
  | none =>
    simp only [answer, exec] at h
    split at h
    · rename_i e he
      exact ⟨e, he, by simpa [Reply.asString] using h⟩
    · simp [Reply.asString] at h
  | unperformed e =>
    have he : e.text = value := by simpa [answer, Reply.asString] using h
    exact absurd (congrArg some he) hf
  | performed e =>
    have he : e.text = value := by simpa [answer, Reply.asString] using h
    exact absurd (congrArg some he) hf

/-- The acting command is only reached from a `GET` that found the value. -/
theorem step_get_more (hq : q.gets value) (hf : fault.text ≠ some value)
    (h : ((dbRedis n).step fault q now db s).resp = .more q') : s.Holds now db q.key value := by
  cases q with
  | updateGet key v expire =>
    obtain rfl : v = value := hq
    simp only [dbRedis, DBRedisPc.resume, DBRedisPc.command] at h
    split at h
    · cases h
    · rename_i x hx
      split at h
      · rename_i hv
        exact answer_get hf (hv ▸ hx)
      · cases h
  | delGet key v =>
    obtain rfl : v = value := hq
    simp only [dbRedis, DBRedisPc.resume, DBRedisPc.command] at h
    split at h
    · cases h
    · rename_i x hx
      split at h
      · rename_i hv
        exact answer_get hf (hv ▸ hx)
      · cases h
  | _ => exact hq.elim

/-- The program point is the acting command of `UpdateExpire` or `DelKeyValue`. -/
def DBRedisPc.ActsOn : DBRedisPc → Prop
  | .updatePexpire .. => True
  | .delDel .. => True
  | _ => False

/-- When an operation reaches its acting command, the database holds the value the operation is for. -/
theorem step_actsOn (hf : ∀ v, q.gets v → fault.text ≠ some v)
    (h : ((dbRedis n).step fault q now db s).resp = .more q') (hacts : q'.ActsOn) :
    ((dbRedis n).step fault q now db s).store.Holds now db q'.key q'.value := by
  have hsame : ∀ key, (answer n fault now db s (.get key)).store = s := by
    intro key
    rcases answer_cases n fault now db s (.get key) with ⟨-, hs⟩ | ⟨-, hs⟩
    · exact hs
    · rw [hs]; simp only [exec]; split <;> rfl
  cases q with
  | updateGet key v expire =>
    have hg : DBRedisPc.gets v (.updateGet key v expire) := rfl
    have hold := step_get_more hg (hf v hg) h
    simp only [dbRedis, DBRedisPc.resume, DBRedisPc.command, hsame] at h ⊢
    split at h
    · cases h
    · split at h
      · cases h; exact hold
      · cases h
  | delGet key v =>
    have hg : DBRedisPc.gets v (.delGet key v) := rfl
    have hold := step_get_more hg (hf v hg) h
    simp only [dbRedis, DBRedisPc.resume, DBRedisPc.command, hsame] at h ⊢
    split at h
    · cases h
    · split at h
      · cases h; exact hold
      · cases h
  | _ =>
    simp only [dbRedis, DBRedisPc.resume] at h
    repeat' split at h
    all_goals first | cases h; exact hacts.elim | cases h

end Operations

/-! ## What the selected database depends on -/

/-- What the code relies on of an implementation: only `SelectDB` selects a database, in one step, and it
selects the one it reports success for.  `inside op` are the program points of `op`. -/
structure DBInterface.Lawful (D : DBInterface) (inside : DBOp → D.Pc → Prop) : Prop where
  start : ∀ op, inside op (D.start op)
  more : ∀ {op q q' fault now db s}, inside op q → (D.step fault q now db s).resp = .more q' →
    inside op q' ∧ ∀ index, op ≠ .selectDB index
  db : ∀ {op q fault now db s}, inside op q → (∀ index, op ≠ .selectDB index) →
    (D.step fault q now db s).db = db
  select : ∀ {index q fault now db s}, inside (.selectDB index) q →
    (D.step fault q now db s).resp = .done .kSelectDBSucceed → (D.step fault q now db s).db = index

theorem dbRedis_lawful (n : ℕ) : (dbRedis n).Lawful DBRedisPc.Inside where
  start := inside_start
  more := by
    intro op q q' fault now db s hin h
    refine ⟨step_inside hin h, ?_⟩
    rintro index rfl
    obtain rfl : q = .select index := hin
    simp only [dbRedis, DBRedisPc.resume] at h
    split at h
    · cases h
    · split at h
      · cases h
      · split at h <;> cases h
  db := step_db
  select := by
    intro index q fault now db s hin h
    obtain rfl : q = .select index := hin
    exact (step_select h).2

theorem contract_lawful (n : ℕ) : (contract n).Lawful fun op q => q = op where
  start _ := rfl
  more := by
    intro op q q' fault now db s _ h
    cases fault <;> cases h
  db := by
    rintro op q fault now db s rfl hop
    cases fault with
    | unperformed e => rfl
    | none | performed e =>
      cases q with
      | selectDB index => exact absurd rfl (hop index)
      | setKeyValue key value expire => simp only [contract, contractStep]; split <;> rfl
      | updateExpire key value expire =>
        simp only [contract, contractStep]
        split
        · split <;> rfl
        · rfl
      | delKeyValue key value =>
        simp only [contract, contractStep]
        split
        · split <;> rfl
        · rfl
  select := by
    rintro index q fault now db s rfl h
    cases fault with
    | none =>
      simp only [contract, contractStep] at h ⊢
      split at h
      · rename_i hi; rw [if_pos hi]
      · cases h
    | unperformed e => cases h
    | performed e => cases h

end DistributedLock.Redis
