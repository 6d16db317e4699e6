import DistributedLock.Redis.DBRedis

/-!
# The operations of the Redis client, command by command

What each command of an operation does when the server answers it as Redis specifies: one equation for each program
point and each state of the key.  A `GET` of a key that is gone is the only command whose reply raises
(`answered_cases`).
-/

namespace DistributedLock.Redis

open Lib

@[simp] theorem u64_zero : u64 0 = 0 := rfl

@[simp] theorem u64_one : u64 1 = 1 := rfl

section Answers

variable {databases : ℕ} {now db : ℤ} {srv : Store} {key value : String} {expire : ℤ} {e : Entry}

/-- The step at the program point `q`, with the answer of Redis. -/
def answered (databases : ℕ) (q : DBRedisPc) (now db : ℤ) (srv : Store) : Outcome DBRedisPc :=
  (dbRedis databases).step .none q now db srv

/-! ## `SelectDB` and `SetKeyValue` -/

theorem answered_select {index : ℤ} (h : 0 ≤ index ∧ index < databases) :
    answered databases (.select index) now db srv = ⟨.done .kSelectDBSucceed, index, srv⟩ := by
  simp [answered, dbRedis, answer, DBRedisPc.command, exec, h, DBRedisPc.resume, Reply.asString]

theorem answered_set_none (hpx : 0 < i32 expire) (h : srv.live now db key = none) :
    answered databases (.set key value expire) now db srv =
      ⟨.done .kSetKeySucceed, db, srv.put db key (some ⟨value, now + i32 expire⟩)⟩ := by
  have hpx' : ¬ i32 expire ≤ 0 := by omega
  simp [answered, dbRedis, answer, DBRedisPc.command, exec, hpx', h, DBRedisPc.resume, Reply.isNull, Reply.ok,
    Reply.isError]

theorem answered_set_some (hpx : 0 < i32 expire) (h : srv.live now db key = some e) :
    answered databases (.set key value expire) now db srv = ⟨.done .kKeyExist, db, srv⟩ := by
  have hpx' : ¬ i32 expire ≤ 0 := by omega
  simp [answered, dbRedis, answer, DBRedisPc.command, exec, hpx', h, DBRedisPc.resume, Reply.isNull]

/-! ## `UpdateExpire` -/

theorem answered_updateExists_none (h : srv.live now db key = none) :
    answered databases (.updateExists key value expire) now db srv = ⟨.more (.set key value expire), db, srv⟩ := by
  simp [answered, dbRedis, answer, DBRedisPc.command, exec, h, DBRedisPc.resume, Reply.asInteger]

theorem answered_updateExists_some (h : srv.live now db key = some e) :
    answered databases (.updateExists key value expire) now db srv =
      ⟨.more (.updateGet key value expire), db, srv⟩ := by
  simp [answered, dbRedis, answer, DBRedisPc.command, exec, h, DBRedisPc.resume, Reply.asInteger]

theorem answered_updateGet_own (h : srv.live now db key = some e) (hv : e.value = value) :
    answered databases (.updateGet key value expire) now db srv =
      ⟨.more (.updatePexpire key value expire), db, srv⟩ := by
  simp [answered, dbRedis, answer, DBRedisPc.command, exec, h, hv, DBRedisPc.resume, Reply.asString]

theorem answered_updateGet_other (h : srv.live now db key = some e) (hv : e.value ≠ value) :
    answered databases (.updateGet key value expire) now db srv = ⟨.done .kKeyValueWrong, db, srv⟩ := by
  simp [answered, dbRedis, answer, DBRedisPc.command, exec, h, hv, DBRedisPc.resume, Reply.asString]

theorem answered_updateGet_none (h : srv.live now db key = none) :
    answered databases (.updateGet key value expire) now db srv = ⟨.raise "Reply is not a string", db, srv⟩ := by
  simp [answered, dbRedis, answer, DBRedisPc.command, exec, h, DBRedisPc.resume, Reply.asString]

theorem answered_updatePexpire_some (h : srv.live now db key = some e) :
    answered databases (.updatePexpire key value expire) now db srv =
      ⟨.done .kUpdateKeySucceed, db,
        srv.put db key (if i32 expire ≤ 0 then none else some ⟨e.value, now + i32 expire⟩)⟩ := by
  simp [answered, dbRedis, answer, DBRedisPc.command, exec, h, DBRedisPc.resume, Reply.asInteger]

theorem answered_updatePexpire_none (h : srv.live now db key = none) :
    answered databases (.updatePexpire key value expire) now db srv = ⟨.done .kUpdateKeyFailed, db, srv⟩ := by
  simp [answered, dbRedis, answer, DBRedisPc.command, exec, h, DBRedisPc.resume, Reply.asInteger]

/-! ## `DelKeyValue` -/

theorem answered_delExists_none (h : srv.live now db key = none) :
    answered databases (.delExists key value) now db srv = ⟨.done .kKeyDoesNotExist, db, srv⟩ := by
  simp [answered, dbRedis, answer, DBRedisPc.command, exec, h, DBRedisPc.resume, Reply.asInteger]

theorem answered_delExists_some (h : srv.live now db key = some e) :
    answered databases (.delExists key value) now db srv = ⟨.more (.delGet key value), db, srv⟩ := by
  simp [answered, dbRedis, answer, DBRedisPc.command, exec, h, DBRedisPc.resume, Reply.asInteger]

theorem answered_delGet_own (h : srv.live now db key = some e) (hv : e.value = value) :
    answered databases (.delGet key value) now db srv = ⟨.more (.delDel key value), db, srv⟩ := by
  simp [answered, dbRedis, answer, DBRedisPc.command, exec, h, hv, DBRedisPc.resume, Reply.asString]

theorem answered_delGet_other (h : srv.live now db key = some e) (hv : e.value ≠ value) :
    answered databases (.delGet key value) now db srv = ⟨.done .kKeyValueWrong, db, srv⟩ := by
  simp [answered, dbRedis, answer, DBRedisPc.command, exec, h, hv, DBRedisPc.resume, Reply.asString]

theorem answered_delGet_none (h : srv.live now db key = none) :
    answered databases (.delGet key value) now db srv = ⟨.raise "Reply is not a string", db, srv⟩ := by
  simp [answered, dbRedis, answer, DBRedisPc.command, exec, h, DBRedisPc.resume, Reply.asString]

theorem answered_delDel_some (h : srv.live now db key = some e) :
    answered databases (.delDel key value) now db srv = ⟨.done .kDelKeySucceed, db, srv.put db key none⟩ := by
  simp [answered, dbRedis, answer, DBRedisPc.command, exec, h, DBRedisPc.resume, Reply.asInteger]

theorem answered_delDel_none (h : srv.live now db key = none) :
    answered databases (.delDel key value) now db srv = ⟨.done .kDelKeyFailed, db, srv⟩ := by
  simp [answered, dbRedis, answer, DBRedisPc.command, exec, h, DBRedisPc.resume, Reply.asInteger]

/-! ## Which of them raise -/

/-- The command is a `GET` of a key that is gone. -/
def DBRedisPc.Misses (now db : ℤ) (srv : Store) : DBRedisPc → Prop
  | .updateGet key _ _ | .delGet key _ => srv.live now db key = none
  | _ => False

/-- How many commands of the operation are left, at most. -/
def DBRedisPc.rank : DBRedisPc → ℕ
  | .updateExists .. | .delExists .. => 3
  | .updateGet .. | .delGet .. => 2
  | _ => 1

/-- **A command that does not miss ends its operation, or leads to the next one.** -/
theorem answered_cases (databases : ℕ) {q : DBRedisPc} (h : ¬ q.Misses now db srv) :
    (∃ q', (answered databases q now db srv).resp = .more q' ∧ q'.rank < q.rank) ∨
    ∃ r, (answered databases q now db srv).resp = .done r := by
  cases q with
  | select index =>
    simp only [answered, dbRedis, answer, DBRedisPc.command, exec]
    split <;> exact .inr ⟨_, rfl⟩
  | set key value expire =>
    simp only [answered, dbRedis, answer, DBRedisPc.command, exec]
    split
    · exact .inr ⟨_, rfl⟩
    · split <;> exact .inr ⟨_, rfl⟩
  | updateExists key value expire =>
    cases he : srv.live now db key with
    | none =>
      rw [answered_updateExists_none he]
      exact .inl ⟨_, rfl, by simp [DBRedisPc.rank]⟩
    | some e =>
      rw [answered_updateExists_some he]
      exact .inl ⟨_, rfl, by simp [DBRedisPc.rank]⟩
  | delExists key value =>
    cases he : srv.live now db key with
    | none =>
      rw [answered_delExists_none he]
      exact .inr ⟨_, rfl⟩
    | some e =>
      rw [answered_delExists_some he]
      exact .inl ⟨_, rfl, by simp [DBRedisPc.rank]⟩
  | updateGet key value expire =>
    obtain ⟨e, he⟩ := Option.ne_none_iff_exists'.mp h
    by_cases hv : e.value = value
    · rw [answered_updateGet_own he hv]
      exact .inl ⟨_, rfl, by simp [DBRedisPc.rank]⟩
    · rw [answered_updateGet_other he hv]
      exact .inr ⟨_, rfl⟩
  | delGet key value =>
    obtain ⟨e, he⟩ := Option.ne_none_iff_exists'.mp h
    by_cases hv : e.value = value
    · rw [answered_delGet_own he hv]
      exact .inl ⟨_, rfl, by simp [DBRedisPc.rank]⟩
    · rw [answered_delGet_other he hv]
      exact .inr ⟨_, rfl⟩
  | updatePexpire key value expire =>
    cases he : srv.live now db key with
    | none => rw [answered_updatePexpire_none he]; exact .inr ⟨_, rfl⟩
    | some e => rw [answered_updatePexpire_some he]; exact .inr ⟨_, rfl⟩
  | delDel key value =>
    cases he : srv.live now db key with
    | none => rw [answered_delDel_none he]; exact .inr ⟨_, rfl⟩
    | some e => rw [answered_delDel_some he]; exact .inr ⟨_, rfl⟩

theorem answered_misses {q : DBRedisPc} (h : q.Misses now db srv) :
    (answered databases q now db srv).resp = .raise "Reply is not a string" := by
  cases q with
  | updateGet key value expire => rw [answered_updateGet_none h]
  | delGet key value => rw [answered_delGet_none h]
  | _ => cases h

/-- The key that the command of this program point reads. -/
def DBRedisPc.reads : DBRedisPc → Option String
  | .updateGet key _ _ | .delGet key _ => some key
  | _ => none

theorem DBRedisPc.misses_iff {q : DBRedisPc} :
    q.Misses now db srv ↔ ∃ key, q.reads = some key ∧ srv.live now db key = none := by
  cases q <;> simp [DBRedisPc.Misses, DBRedisPc.reads]

theorem DBRedisPc.reads_start (op : DBOp) : (DBRedisPc.start op).reads = none := by
  cases op <;> rfl

/-- **A `GET` follows an `EXISTS` that has found the key.** -/
theorem answered_reads {q q' : DBRedisPc}
    (h : (answered databases q now db srv).resp = .more q') (hg : q'.reads = some key) :
    (answered databases q now db srv).store = srv ∧ (answered databases q now db srv).db = db ∧
      srv.live now db key ≠ none := by
  have hmiss : ¬ q.Misses now db srv := by
    intro hmiss
    rw [answered_misses hmiss] at h
    cases h
  cases q with
  | select index =>
    simp only [answered, dbRedis, answer, DBRedisPc.command, exec] at h
    split at h <;> cases h
  | set key' value expire =>
    simp only [answered, dbRedis, answer, DBRedisPc.command, DBRedisPc.resume] at h
    split at h
    · cases h
    · split at h <;> cases h
  | updateExists key' value expire =>
    cases he : srv.live now db key' with
    | none =>
      rw [answered_updateExists_none he] at h
      cases h
      cases hg
    | some e =>
      rw [answered_updateExists_some he] at h ⊢
      cases h
      cases hg
      exact ⟨rfl, rfl, by simp [he]⟩
  | delExists key' value =>
    cases he : srv.live now db key' with
    | none =>
      rw [answered_delExists_none he] at h
      cases h
    | some e =>
      rw [answered_delExists_some he] at h ⊢
      cases h
      cases hg
      exact ⟨rfl, rfl, by simp [he]⟩
  | updateGet key' value expire =>
    obtain ⟨e, he⟩ := Option.ne_none_iff_exists'.mp hmiss
    by_cases hv : e.value = value
    · rw [answered_updateGet_own he hv] at h
      cases h
      cases hg
    · rw [answered_updateGet_other he hv] at h
      cases h
  | delGet key' value =>
    obtain ⟨e, he⟩ := Option.ne_none_iff_exists'.mp hmiss
    by_cases hv : e.value = value
    · rw [answered_delGet_own he hv] at h
      cases h
      cases hg
    · rw [answered_delGet_other he hv] at h
      cases h
  | updatePexpire key' value expire =>
    cases he : srv.live now db key' with
    | none => rw [answered_updatePexpire_none he] at h; cases h
    | some e => rw [answered_updatePexpire_some he] at h; cases h
  | delDel key' value =>
    cases he : srv.live now db key' with
    | none => rw [answered_delDel_none he] at h; cases h
    | some e => rw [answered_delDel_some he] at h; cases h

end Answers

end DistributedLock.Redis
