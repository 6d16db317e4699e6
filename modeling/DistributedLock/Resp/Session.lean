import DistributedLock.Resp.Commands
import DistributedLock.Redis.DBRedis

/-!
# The commands of the lock manager on the wire

The words that `client` sends for a command, what the server reads from them, and the replies it writes.

* `Command.ofWords_words`: the server reads the command that was meant, whatever the key and the value contain;
* `serverExec_words`: what it answers is the reply of `exec`, as it is written;
* `DBRedisPc.resumeWire` is what `DBRedis` does with a reply as it comes from the connection; on the replies
  that the server writes it is `DBRedisPc.resume` (`resumeWire_wire`).
-/

namespace DistributedLock.Resp

open Lib Redis

/-! ## Numbers -/

def readDigits (ds : Bytes) : Option ℕ :=
  if ds.all Char.isDigit && !ds.isEmpty then some (Nat.ofDigitChars 10 ds 0) else none

/-- What the server reads where it expects a number. -/
def readDecimal : Bytes → Option ℤ
  | [] => none
  | c :: ds => if c = '-' then (readDigits ds).map fun n => -(n : ℤ) else (readDigits (c :: ds)).map fun n => (n : ℤ)

theorem readDigits_toDigits (n : ℕ) : readDigits (Nat.toDigits 10 n) = some n := by
  have hall : (Nat.toDigits 10 n).all Char.isDigit = true := List.all_eq_true.mpr (isDigit_toDigits n)
  have hne : (Nat.toDigits 10 n).isEmpty = false := by simp
  rw [readDigits, hall, hne, Nat.ofDigitChars_ten_toDigits]
  rfl

theorem readDecimal_decimal (n : ℤ) : readDecimal (decimal n) = some n := by
  cases n with
  | ofNat n =>
    obtain ⟨c, ds, hds⟩ := List.exists_cons_of_ne_nil (Nat.toDigits_ne_nil (n := n) (b := 10))
    have hdigit := isDigit_toDigits n c (by rw [hds]; exact List.mem_cons_self)
    have hc : c ≠ '-' := by
      rintro rfl
      simp at hdigit
    rw [decimal, hds, readDecimal, if_neg hc, ← hds, readDigits_toDigits]
    rfl
  | negSucc n =>
    rw [decimal, readDecimal, if_pos rfl, readDigits_toDigits]
    rfl

/-! ## Commands -/

/-- `set_advanced` -/
def setAdvanced (key value : Bytes) (ex : Bool) (exSec : ℤ) (px : Bool) (pxMilli : ℤ) (nx xx : Bool) : List Bytes :=
  ["SET".toList, key, value] ++ (if ex then ["EX".toList, decimal exSec] else []) ++
    (if px then ["PX".toList, decimal pxMilli] else []) ++ (if nx then ["NX".toList] else []) ++
    (if xx then ["XX".toList] else [])

def Command.words : Command → List Bytes
  | .select index => ["SELECT".toList, decimal index]
  | .set key value px => setAdvanced key.toList value.toList false 0 true px true false
  | .exists key => ["EXISTS".toList, key.toList]
  | .get key => ["GET".toList, key.toList]
  | .pexpire key milliseconds => ["PEXPIRE".toList, key.toList, decimal milliseconds]
  | .del key => ["DEL".toList, key.toList]

/-- The command that the server reads from the words. -/
def Command.ofWords : List Bytes → Option Command
  | [name, x] =>
    if name = "SELECT".toList then (readDecimal x).map .select
    else if name = "EXISTS".toList then some (.exists (String.ofList x))
    else if name = "GET".toList then some (.get (String.ofList x))
    else if name = "DEL".toList then some (.del (String.ofList x))
    else none
  | [name, x, y] =>
    if name = "PEXPIRE".toList then (readDecimal y).map (.pexpire (String.ofList x)) else none
  | [name, x, y, px, t, nx] =>
    if name = "SET".toList ∧ px = "PX".toList ∧ nx = "NX".toList then
      (readDecimal t).map (.set (String.ofList x) (String.ofList y))
    else none
  | _ => none

/-- **The server reads the command that was meant.** -/
theorem Command.ofWords_words (c : Command) : Command.ofWords (Command.words c) = some c := by
  cases c <;>
    simp [Command.words, Command.ofWords, setAdvanced, readDecimal_decimal, String.ofList_toList]

/-! ## Replies -/

def wire : Redis.Reply → Reply
  | .null => .null
  | .simpleString s => .simpleString s.toList
  | .bulkString s => .bulkString s.toList
  | .error s => .error s.toList
  | .integer n => .integer n

/-- What `DBRedis` does with a reply of the connection; an array is neither null nor an error, and neither a string nor an
integer. -/
def resumeWire (q : DBRedisPc) : Reply → Redis.Resp DBRedisPc
  | .null => q.resume .null
  | .simpleString s => q.resume (.simpleString (String.ofList s))
  | .bulkString s => q.resume (.bulkString (String.ofList s))
  | .error s => q.resume (.error (String.ofList s))
  | .integer n => q.resume (.integer n)
  | .array _ =>
    match q with
    | .set _ _ _ => .done .kSetKeySucceed
    | .select _ | .updateGet _ _ _ | .delGet _ _ => .raise "Reply is not a string"
    | .updateExists _ _ _ | .updatePexpire _ _ _ | .delExists _ _ | .delDel _ _ => .raise "Reply is not an integer"

theorem resumeWire_wire (q : DBRedisPc) (r : Redis.Reply) : resumeWire q (wire r) = q.resume r := by
  cases r <;> simp only [wire, resumeWire, String.ofList_toList]

/-! ## The server -/

def serverExec (databases : ℕ) (now db : ℤ) (s : Store) (words : List Bytes) : Answer :=
  match Command.ofWords words with
  | some c => exec databases now db s c
  | none => ⟨.error "ERR unknown command", db, s⟩

/-- **What the server does with the words of a command.** -/
theorem serverExec_words (databases : ℕ) (now db : ℤ) (s : Store) (c : Command) :
    serverExec databases now db s (Command.words c) = exec databases now db s c := by
  rw [serverExec, Command.ofWords_words]

end DistributedLock.Resp
