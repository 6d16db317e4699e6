import DistributedLock.Redis.Server

/-!
# The database interface

`DBInterface` with its result codes.  The lock manager only calls the four operations `DBOp`; an
implementation runs an operation as one or more atomic steps on the server (`DBInterface.step`), so that the
same client code can be run over the Redis client (`DBRedis`) and over the contract that the comments of the
interface state (`contract`):

* `SetKeyValue`: sets {key, value} if key does not exist;
* `UpdateExpire`: sets {key, value} if key does not exist or value matches;
* `DelKeyValue`: deletes {key, value} if value matches.
-/

namespace DistributedLock.Redis

inductive DBResult where
  | kKeyExist
  | kSetKeySucceed
  | kSetKeyFailed
  | kSetKeyFunFailed
  | kKeyDoesNotExist
  | kKeyValueWrong
  | kUpdateKeySucceed
  | kUpdateKeyFailed
  | kUpdateKeyFunFailed
  | kDelKeySucceed
  | kDelKeyFailed
  | kDelKeyFunFailed
  | kSelectDBSucceed
  | kSelectDBFailed
  | kSelectFunFailed
  deriving DecidableEq, Repr

/-- The operations of the interface, with their arguments. -/
inductive DBOp where
  | selectDB (index : ℤ)
  | setKeyValue (key value : String) (expire : ℤ)
  | updateExpire (key value : String) (expire : ℤ)
  | delKeyValue (key value : String)
  deriving DecidableEq, Repr

/-- How an atomic step of an operation ends: the operation goes on, it returns, or an exception leaves it. -/
inductive Resp (Q : Type) where
  | more (q : Q)
  | done (r : DBResult)
  | raise (what : String)

/-- An atomic step of an operation: how it ends, and what it leaves on the connection and in the store. -/
structure Outcome (Q : Type) where
  resp : Resp Q
  db : ℤ
  store : Store

/-- An implementation of the interface: the program points inside its operations, and the atomic step at each. -/
structure DBInterface where
  Pc : Type
  start : DBOp → Pc
  step : Fault → Pc → (now db : ℤ) → Store → Outcome Pc

/-! ## The contract of the interface -/

/-- The contract of an operation: one atomic step that returns. -/
def contractStep (databases : ℕ) (op : DBOp) (now db : ℤ) (s : Store) : DBResult × ℤ × Store :=
  match op with
  | .selectDB index =>
    if 0 ≤ index ∧ index < databases then (.kSelectDBSucceed, index, s) else (.kSelectDBFailed, db, s)
  | .setKeyValue key value expire =>
    match s.live now db key with
    | some _ => (.kKeyExist, db, s)
    | none => (.kSetKeySucceed, db, s.put db key (some ⟨value, now + expire⟩))
  | .updateExpire key value expire =>
    match s.live now db key with
    | some e =>
      if e.value = value then (.kUpdateKeySucceed, db, s.put db key (some ⟨value, now + expire⟩))
      else (.kKeyValueWrong, db, s)
    | none => (.kSetKeySucceed, db, s.put db key (some ⟨value, now + expire⟩))
  | .delKeyValue key value =>
    match s.live now db key with
    | some e => if e.value = value then (.kDelKeySucceed, db, s.put db key none) else (.kKeyValueWrong, db, s)
    | none => (.kKeyDoesNotExist, db, s)

/-- The code an operation returns on failure. -/
def DBOp.failed : DBOp → DBResult
  | .selectDB _ => .kSelectFunFailed
  | .setKeyValue .. => .kSetKeyFailed
  | .updateExpire .. => .kUpdateKeyFailed
  | .delKeyValue .. => .kDelKeyFailed

/-- The interface as its comments state it: every operation is one atomic step, which may also fail, whether
or not it was performed. -/
def contract (databases : ℕ) : DBInterface where
  Pc := DBOp
  start op := op
  step fault op now db s :=
    match fault with
    | .none =>
      let (r, db', s') := contractStep databases op now db s
      ⟨.done r, db', s'⟩
    | .unperformed _ => ⟨.done op.failed, db, s⟩
    | .performed _ =>
      let (_, db', s') := contractStep databases op now db s
      ⟨.done op.failed, db', s'⟩

end DistributedLock.Redis
