import Mathlib.Logic.Function.Basic
import Mathlib.Data.Int.Basic
import Mathlib.Data.Option.Basic

/-!
# The Redis server

The server keeps numbered databases of entries with an absolute expiry time, and executes one command at a
time.  An entry set at time `s` with the lifetime `V` is dead when the clock has passed `s + V`; a dead entry
is absent for every command.

* `exec` is the answer of the server to a command, with the database then selected on the connection and the
  store after it;
* `answer` adds what a client may also see: an error reply in place of the answer, the command having been
  performed or not (`Fault`);
* `Reply` is the reply of the vendored client, with the accessors the lock manager uses.  `as_string` and
  `as_integer` throw `redis_error` on a reply of another type.
-/

namespace DistributedLock.Redis

/-! ## The store -/

structure Entry where
  value : String
  expireAt : ℤ
  deriving DecidableEq, Repr

/-- The entries by database index and key, dead ones included. -/
def Store : Type := ℤ → String → Option Entry

namespace Store

/-- The entry of a key, if it is not dead at the time `now`. -/
def live (s : Store) (now db : ℤ) (key : String) : Option Entry :=
  (s db key).filter fun e => decide (now ≤ e.expireAt)

/-- The store with the entry of one key of one database replaced. -/
def put (s : Store) (db : ℤ) (key : String) (e : Option Entry) : Store :=
  fun d k => if d = db ∧ k = key then e else s d k

variable {s : Store} {now now' db d : ℤ} {key k : String} {e e' : Entry}

theorem live_eq_some : s.live now db key = some e ↔ s db key = some e ∧ now ≤ e.expireAt := by
  simp [live, Option.filter_eq_some_iff]

theorem live_of_le (h : s.live now' db key = some e) (hle : now ≤ now') : s.live now db key = some e := by
  rw [live_eq_some] at h ⊢
  exact ⟨h.1, Int.le_trans hle h.2⟩

@[simp] theorem live_put_self (x : Option Entry) :
    (s.put db key x).live now db key = x.filter fun e => decide (now ≤ e.expireAt) := by
  simp [live, put]

theorem live_put_of_ne (x : Option Entry) (h : ¬ (d = db ∧ k = key)) :
    (s.put db key x).live now d k = s.live now d k := by
  simp [live, put, h]

end Store

/-- The database `db` holds a live entry of `key` with this value. -/
def Store.Holds (s : Store) (now db : ℤ) (key value : String) : Prop :=
  ∃ e, s.live now db key = some e ∧ e.value = value

namespace Store.Holds

variable {s : Store} {now now' db : ℤ} {key value value' : String}

theorem value_eq (h : s.Holds now db key value) (h' : s.Holds now db key value') : value = value' := by
  obtain ⟨e, h1, rfl⟩ := h
  obtain ⟨e', h2, rfl⟩ := h'
  rw [h1] at h2
  cases h2
  rfl

theorem put (e : Entry) (hlive : now ≤ e.expireAt) : (s.put db key (some e)).Holds now db key e.value :=
  ⟨e, by simp [Option.filter, hlive], rfl⟩

end Store.Holds

/-! ## Replies -/

/-- The reply of the client library (`array` replies belong to commands that are not used). -/
inductive Reply where
  | null
  | simpleString (s : String)
  | bulkString (s : String)
  | error (s : String)
  | integer (n : ℤ)
  deriving DecidableEq, Repr

namespace Reply

def isError : Reply → Bool
  | .error _ => true
  | _ => false

def isNull : Reply → Bool
  | .null => true
  | _ => false

def ok (r : Reply) : Bool := !r.isError

/-- An error reply is a string too, its text. -/
def asString : Reply → Except String String
  | .simpleString s => .ok s
  | .bulkString s => .ok s
  | .error s => .ok s
  | _ => .error "Reply is not a string"

def asInteger : Reply → Except String ℤ
  | .integer n => .ok n
  | _ => .error "Reply is not an integer"

end Reply

/-! ## Commands -/

/-- The commands the lock manager sends; `set` is `SET key value PX px NX`. -/
inductive Command where
  | select (index : ℤ)
  | set (key value : String) (px : ℤ)
  | exists (key : String)
  | get (key : String)
  | pexpire (key : String) (milliseconds : ℤ)
  | del (key : String)
  deriving DecidableEq, Repr

/-- What a command leaves behind: the reply, the database selected on the connection, the store. -/
structure Answer where
  reply : Reply
  db : ℤ
  store : Store

/-- The server executes a command at the time `now`, on a connection with the database `db` selected;
`databases` is the configured number of databases. -/
def exec (databases : ℕ) (now db : ℤ) (s : Store) : Command → Answer
  | .select index =>
    if 0 ≤ index ∧ index < databases then ⟨.simpleString "OK", index, s⟩
    else ⟨.error "ERR invalid DB index", db, s⟩
  | .set key value px =>
    if px ≤ 0 then ⟨.error "ERR invalid expire time in set", db, s⟩
    else match s.live now db key with
      | some _ => ⟨.null, db, s⟩
      | none => ⟨.simpleString "OK", db, s.put db key (some ⟨value, now + px⟩)⟩
  | .exists key => ⟨.integer (if (s.live now db key).isSome then 1 else 0), db, s⟩
  | .get key =>
    match s.live now db key with
    | some e => ⟨.bulkString e.value, db, s⟩
    | none => ⟨.null, db, s⟩
  | .pexpire key milliseconds =>
    match s.live now db key with
    | some e =>
      -- a lifetime that is not positive deletes the key
      ⟨.integer 1, db, s.put db key (if milliseconds ≤ 0 then none else some ⟨e.value, now + milliseconds⟩)⟩
    | none => ⟨.integer 0, db, s⟩
  | .del key =>
    match s.live now db key with
    | some _ => ⟨.integer 1, db, s.put db key none⟩
    | none => ⟨.integer 0, db, s⟩

/-- The text of an error reply, from the server or (`network failure`) from the client library. -/
structure ErrorText where
  text : String
  ne_ok : text ≠ "OK"

/-- How a command reaches the server: normally, or with an error reply while it was not performed, or with an
error reply although it was. -/
inductive Fault where
  | none
  | unperformed (e : ErrorText)
  | performed (e : ErrorText)

def answer (databases : ℕ) (fault : Fault) (now db : ℤ) (s : Store) (c : Command) : Answer :=
  match fault with
  | .none => exec databases now db s c
  | .unperformed e => ⟨.error e.text, db, s⟩
  | .performed e => { exec databases now db s c with reply := .error e.text }

end DistributedLock.Redis
