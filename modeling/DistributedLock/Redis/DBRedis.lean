import DistributedLock.Redis.DBInterface
import DistributedLock.Lib.Word

/-!
# The Redis client (`DBRedis`)

Each operation is the sequence of commands the source sends, one atomic step a command: `DBRedisPc` are the
program points, each with the command it waits for (`DBRedisPc.command`) and what the code does with the
reply (`DBRedisPc.resume`).  `SetKeyValue` and `SelectDB` send one command; `UpdateExpire` and `DelKeyValue`
send `EXISTS`, then `GET`, then the command that acts, so other clients and expiry come between them.
-/

namespace DistributedLock.Redis

open Lib

/-- The program points of `DBRedis`, each at the command it has sent. -/
inductive DBRedisPc where
  | select (index : ℤ)
  | set (key value : String) (expire : ℤ)
  | updateExists (key value : String) (expire : ℤ)
  | updateGet (key value : String) (expire : ℤ)
  | updatePexpire (key value : String) (expire : ℤ)
  | delExists (key value : String)
  | delGet (key value : String)
  | delDel (key value : String)
  deriving DecidableEq, Repr

namespace DBRedisPc

def start : DBOp → DBRedisPc
  | .selectDB index => .select index
  | .setKeyValue key value expire => .set key value expire
  | .updateExpire key value expire => .updateExists key value expire
  | .delKeyValue key value => .delExists key value

/-- The command sent; the lifetimes go through `int(expire.count())`. -/
def command : DBRedisPc → Command
  | .select index => .select index
  | .set key value expire => .set key value (i32 expire)
  | .updateExists key _ _ => .exists key
  | .updateGet key _ _ => .get key
  | .updatePexpire key _ expire => .pexpire key (i32 expire)
  | .delExists key _ => .exists key
  | .delGet key _ => .get key
  | .delDel key _ => .del key

def resume : DBRedisPc → Reply → Resp DBRedisPc
  | .select _, r =>
    match r.asString with
    | .error what => .raise what
    | .ok s =>
      if s = "OK" then .done .kSelectDBSucceed
      else if s = "ERR invalid DB index" then .done .kSelectDBFailed
      else .done .kSelectFunFailed
  | .set _ _ _, r =>
    if r.isNull then .done .kKeyExist else if r.ok then .done .kSetKeySucceed else .done .kSetKeyFailed
  | .updateExists key value expire, r =>
    match r.asInteger with
    | .error what => .raise what
    | .ok n => if u64 n = 0 then .more (.set key value expire) else .more (.updateGet key value expire)
  | .updateGet key value expire, r =>
    match r.asString with
    | .error what => .raise what
    | .ok s => if s = value then .more (.updatePexpire key value expire) else .done .kKeyValueWrong
  | .updatePexpire _ _ _, r =>
    match r.asInteger with
    | .error what => .raise what
    | .ok n =>
      if u64 n = 0 then .done .kUpdateKeyFailed
      else if u64 n = 1 then .done .kUpdateKeySucceed
      else .done .kUpdateKeyFunFailed
  | .delExists key value, r =>
    match r.asInteger with
    | .error what => .raise what
    | .ok n => if u64 n = 0 then .done .kKeyDoesNotExist else .more (.delGet key value)
  | .delGet key value, r =>
    match r.asString with
    | .error what => .raise what
    | .ok s => if s = value then .more (.delDel key value) else .done .kKeyValueWrong
  | .delDel _ _, r =>
    match r.asInteger with
    | .error what => .raise what
    | .ok n =>
      if u64 n = 0 then .done .kDelKeyFailed
      else if u64 n = 1 then .done .kDelKeySucceed
      else .done .kDelKeyFunFailed

end DBRedisPc

/-- The Redis client as an implementation of the interface, over a server with `databases` databases. -/
def dbRedis (databases : ℕ) : DBInterface where
  Pc := DBRedisPc
  start := DBRedisPc.start
  step fault q now db s :=
    let a := answer databases fault now db s q.command
    ⟨q.resume a.reply, a.db, a.store⟩

end DistributedLock.Redis
