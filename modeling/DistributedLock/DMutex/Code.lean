import DistributedLock.Redis.DBInterface
import DistributedLock.Lib.Word
import DistributedLock.Lib.Quorum

/-!
# The code of `DMutexImpl`

The methods of `DMutexImpl`, as a machine with explicit program points.  `code cfg f pc` is the instruction at
the program point `pc` of an object with the constants `cfg` and the members `f`: a local computation, an
operation on the mutex `mtx_`, a call of the database interface, a clock reading, the shuffle, the
registration of the renewal event, or a return.  What an instruction does outside the object is left to the
system the code runs in.

The local variables are arguments of the program points.  `lck` is the `unique_lock` of the source; it is
local to `MainLockFunction`, `UnlockAll` and `KeepLock`, and its only state is whether it owns `mtx_`.  In
`MainLockFunction` and `KeepLock` a failed `SelectDB` leaves the loop body without `lck.unlock()`, so the flag
is explicit there (`owns`); `lock()` on a `unique_lock` that already owns its mutex throws `system_error`.

`--lock_index; continue;` followed by the `++lock_index` of the loop stays at the same position (for the
position 0 by way of −1, which is never compared nor used), so the position is a natural number.
-/

namespace DistributedLock.DMutex

open Lib Redis

/-! ## Data -/

/-- The members of a `DMutexImpl` that never change. -/
structure Cfg where
  hosts : List ℤ
  key : String
  value : String
  lockValidityTime : ℤ
  runTime : ℤ

/-- The members of a `DMutexImpl` that its methods write. -/
structure Fields where
  haveLockNum : List ℤ := []
  lockStatus : Bool := false
  lockContinue : Bool := true

/-- `time_out_limit_`, in milliseconds. -/
def timeOutLimit : ℤ := 50

/-- The methods of `DMutex`. -/
inductive Call where
  | lock
  | tryLock
  | tryLockFor (expire : ℤ)
  | unlock
  deriving DecidableEq

/-- The method that called `MainLockFunction`, with its local variables. -/
inductive Caller where
  | lock
  | tryLock
  | tryLockFor (expire : ℤ) (start : ℕ)
  deriving DecidableEq

/-- The local variables of `MainLockFunction`: `start_time_milliseconds`, the shuffled copy of `hosts_`, the
loop variable, and whether `lck` owns `mtx_`. -/
structure Pass where
  start : ℕ
  tempVec : List ℤ
  lockIndex : ℕ := 0
  owns : Bool := false

/-- `temp_vec[lock_index]`; only read inside the loop, where the index is below the size. -/
def Pass.host (p : Pass) : ℤ := p.tempVec.getD p.lockIndex 0

/-- `++lock_index`. -/
def Pass.next (p : Pass) : Pass := { p with lockIndex := p.lockIndex + 1 }

inductive Pc where
  -- `Lock` and the two `TryLock`
  | tryStart (expire : ℤ)
  | clear (c : Caller)
  | failed (c : Caller)
  | done (res : Bool)
  -- `MainLockFunction`
  | mainStart (c : Caller)
  | mainShuffle (c : Caller) (start : ℕ)
  | mainTest (c : Caller) (p : Pass)
  | mainLock (c : Caller) (p : Pass)
  | mainSelect (c : Caller) (p : Pass)
  | mainSet (c : Caller) (p : Pass)
  | mainUnlock (c : Caller) (p : Pass) (r : DBResult)
  | mainResult (c : Caller) (p : Pass) (r : DBResult)
  | mainTimeout (c : Caller) (p : Pass)
  | mainQuorum (c : Caller) (p : Pass)
  | mainValidity (c : Caller) (p : Pass)
  | mainAcceptLock (c : Caller) (p : Pass)
  | mainAccept (c : Caller) (p : Pass)
  | mainAcceptUnlock (c : Caller) (p : Pass)
  -- `UnlockAll`, called by `DMutex::unlock` (`none`) or by `MainLockFunction`, whose `lck` may own `mtx_`
  | unlockLock (c : Option Caller) (owns : Bool)
  | unlockFlags (c : Option Caller)
  | unlockSelect (c : Option Caller) (rest : List ℤ) (lockSize : ℕ)
  | unlockDel (c : Option Caller) (host : ℤ) (rest : List ℤ) (lockSize : ℕ)
  | unlocked (res : Bool)
  -- `KeepLock`
  | keepLock
  | keepCheck
  | keepTest (owns : Bool) (lockIndex : ℕ)
  | keepRelock (owns : Bool) (lockIndex : ℕ)
  | keepSelect (lockIndex : ℕ)
  | keepUpdate (lockIndex : ℕ) (host : ℤ)
  | keepUnlock (lockIndex : ℕ) (r : DBResult)
  | kept (res : Bool)

/-- What the code does at a program point.  The members it writes come with the next program point. -/
inductive Instr where
  | tau (f : Fields) (pc : Pc)
  | lock (pc : Pc)
  | unlock (pc : Pc)
  | call (op : DBOp) (k : DBResult → Pc)
  | clock (k : ℤ → Pc)
  | shuffle (k : List ℤ → Pc)
  | pushEvent (f : Fields) (period : ℤ) (pc : Pc)
  | ret (res : Bool)
  | throw

/-! ## The methods -/

def Call.entry : Call → Pc
  | .lock => .clear .lock
  | .tryLock => .mainStart .tryLock
  | .tryLockFor expire => .tryStart expire
  | .unlock => .unlockLock none false

/-- Where `UnlockAll` returns to; `MainLockFunction` drops its result and returns false. -/
def afterUnlockAll (res : Bool) : Option Caller → Pc
  | none => .unlocked res
  | some c => .failed c

def mainTest (c : Caller) (p : Pass) (f : Fields) : Instr :=
  if p.lockIndex < p.tempVec.length then .tau f (.mainLock c p) else .tau f (.mainQuorum c p)

/-- The `if` chain on `temp_set_res`. -/
def mainResult (c : Caller) (p : Pass) (r : DBResult) (f : Fields) : Instr :=
  match r with
  | .kSetKeySucceed => .tau { f with haveLockNum := f.haveLockNum ++ [p.host] } (.mainTest c p.next)
  | .kKeyExist => .tau f (.mainTest c p.next)
  | _ => .tau f (.mainTimeout c p)

/-- The two guards of `KeepLock`, then the loop; every branch releases `mtx_`. -/
def keepCheck (f : Fields) : Instr :=
  if f.lockContinue = false then .unlock (.kept false)
  else if f.lockStatus = false then .unlock (.kept true)
  else .unlock (.keepTest false 0)

/-- The loop test of `KeepLock`; on its way out the destructor of `lck` releases `mtx_` if it owns it. -/
def keepTest (owns : Bool) (lockIndex : ℕ) (f : Fields) : Instr :=
  if lockIndex < f.haveLockNum.length then .tau f (.keepRelock owns lockIndex)
  else if owns then .unlock (.kept true)
  else .tau f (.kept true)

def code (cfg : Cfg) (f : Fields) : Pc → Instr
  -- `TryLock(expire)` reads its start time; `Lock` and `TryLock(expire)` clear before each pass
  | .tryStart expire => .clock fun t => .clear (.tryLockFor expire (u64 t))
  | .clear c => .tau { f with haveLockNum := [] } (.mainStart c)
  -- `MainLockFunction` returned false; the `WaitUntil` before the next pass only takes time
  | .failed .lock => .tau f (.clear .lock)
  | .failed .tryLock => .tau f (.done false)
  | .failed (.tryLockFor expire start) => .clock fun t =>
    if u64 (t - start) < u64 expire then .clear (.tryLockFor expire start) else .done false
  | .done res => .ret res
  | .mainStart c => .clock fun t => .mainShuffle c (u64 t)
  | .mainShuffle c start => .shuffle fun v => .mainTest c ⟨start, v, 0, false⟩
  | .mainTest c p => mainTest c p f
  | .mainLock c p => if p.owns then .throw else .lock (.mainSelect c p)
  | .mainSelect c p => .call (.selectDB p.host) fun r =>
    if r = .kSelectDBSucceed then .mainSet c p else .mainTest c { p.next with owns := true }
  | .mainSet c p => .call (.setKeyValue cfg.key cfg.value cfg.lockValidityTime) fun r => .mainUnlock c p r
  | .mainUnlock c p r => .unlock (.mainResult c { p with owns := false } r)
  | .mainResult c p r => mainResult c p r f
  | .mainTimeout c p => .clock fun t =>
    if u64 (t - p.start) ≥ u64 timeOutLimit then .mainTest c p.next else .mainTest c p
  | .mainQuorum c p =>
    if f.haveLockNum.length ≥ quorum cfg.hosts.length then .tau f (.mainValidity c p)
    else .tau f (.unlockLock (some c) p.owns)
  | .mainValidity c p => .clock fun t =>
    if u64 (t - p.start) ≤ u64 cfg.lockValidityTime then .mainAcceptLock c p else .unlockLock (some c) p.owns
  | .mainAcceptLock c p => if p.owns then .throw else .lock (.mainAccept c p)
  | .mainAccept c p =>
    .pushEvent { f with lockStatus := true, lockContinue := true } (cfg.runTime.tdiv 3 * 2) (.mainAcceptUnlock c p)
  | .mainAcceptUnlock _ _ => .unlock (.done true)
  | .unlockLock c _ => .lock (.unlockFlags c)
  | .unlockFlags c => .tau { f with lockContinue := false, lockStatus := false } (.unlockSelect c cfg.hosts 0)
  | .unlockSelect c (host :: rest) lockSize => .call (.selectDB host) fun r =>
    if r = .kSelectDBSucceed then .unlockDel c host rest lockSize else .unlockSelect c rest lockSize
  | .unlockSelect c [] lockSize => .unlock (afterUnlockAll (lockSize = f.haveLockNum.length) c)
  | .unlockDel c _ rest lockSize => .call (.delKeyValue cfg.key cfg.value) fun r =>
    .unlockSelect c rest (if r = .kDelKeySucceed then lockSize + 1 else lockSize)
  | .unlocked res => .ret res
  | .keepLock => .lock .keepCheck
  | .keepCheck => keepCheck f
  | .keepTest owns lockIndex => keepTest owns lockIndex f
  | .keepRelock owns lockIndex => if owns then .throw else .lock (.keepSelect lockIndex)
  | .keepSelect lockIndex =>
    match f.haveLockNum[lockIndex]? with
    | none => .throw -- the vector was cleared since the loop test
    | some host => .call (.selectDB host) fun r =>
      if r = .kSelectDBSucceed then .keepUpdate lockIndex host else .keepTest true (lockIndex + 1)
  | .keepUpdate lockIndex _ => .call (.updateExpire cfg.key cfg.value cfg.lockValidityTime) fun r =>
    .keepUnlock lockIndex r
  | .keepUnlock lockIndex r =>
    .unlock (.keepTest false (if r = .kUpdateKeySucceed then lockIndex + 1 else lockIndex))
  | .kept res => .ret res

end DistributedLock.DMutex
