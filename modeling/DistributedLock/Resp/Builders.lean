import DistributedLock.Lib.Stream
import DistributedLock.Lib.Word

/-!
# The reply builders

The replies of the server arrive in chunks of any size.  A builder for each kind of reply takes from the front of the
buffer what it can use and is called again with what has arrived by then; `create_builder` makes the builder of a reply
from its first character.  The builder of an array makes the builders of its elements, so builders are nested.

* a state of a builder is what its members hold; `feed` is `operator<<`, which returns the state, the buffer and the
  exception that left it.  After an exception the members stay as they were at the throw;
* `BuildError.undefined` is undefined behaviour: an overflow of `int64_t` or `int`, an index outside the buffer;
* `Builder.feed` gives the nested calls enough fuel: `Builder.feed_array` is the recursion of the source;
* `ReplyBuilder` is `reply_builder`, which makes a builder for each reply of a connection.
-/

namespace DistributedLock.Resp

open Lib

abbrev Bytes := List Char

def crlf : Bytes := ['\r', '\n']

/-- `buffer.find("\r\n")` -/
def findEnd : Bytes → Option ℕ
  | [] => none
  | c :: cs => if c = '\r' ∧ cs.head? = some '\n' then some 0 else (findEnd cs).map (· + 1)

/-! ## Replies -/

/-- The type and the content of a `reply`. -/
inductive Reply where
  | null
  | simpleString (s : Bytes)
  | error (s : Bytes)
  | bulkString (s : Bytes)
  | integer (n : ℤ)
  | array (rows : List Reply)
  deriving Repr

/-- `reply::operator<<` -/
def Reply.push : Reply → Reply → Reply
  | .array rows, r => .array (rows ++ [r])
  | _, r => .array [r]

def Reply.rows : Reply → List Reply
  | .array rows => rows
  | _ => []

inductive BuildError where
  | redisError (what : String)
  | undefined
  deriving DecidableEq, Repr

/-- What `operator<<` of a builder with the state `σ` leaves. -/
abbrev Built (σ : Type) := Fed Char σ BuildError

/-! ## Builders without elements -/

structure SimpleStringBuilder where
  str : Bytes := []
  ready : Bool := false
  reply : Reply := .null

def SimpleStringBuilder.feed (b : SimpleStringBuilder) (buffer : Bytes) : Built SimpleStringBuilder :=
  if b.ready then ⟨b, buffer, none⟩
  else
    match findEnd buffer with
    | none => ⟨b, buffer, none⟩
    | some e => ⟨⟨buffer.take e, true, .simpleString (buffer.take e)⟩, buffer.drop (e + 2), none⟩

structure ErrorBuilder where
  stringBuilder : SimpleStringBuilder := {}
  reply : Reply := .null

def ErrorBuilder.feed (b : ErrorBuilder) (buffer : Bytes) : Built ErrorBuilder :=
  (b.stringBuilder.feed buffer).map fun s => if s.ready then ⟨s, .error s.str⟩ else { b with stringBuilder := s }

def ErrorBuilder.ready (b : ErrorBuilder) : Bool := b.stringBuilder.ready

structure IntegerBuilder where
  nbr : ℤ := 0
  negativeMultiplicator : ℤ := 1
  ready : Bool := false
  reply : Reply := .null

namespace IntegerBuilder

/-- The loop over the characters before the end sequence, from the index `i` on. -/
def digits (b : IntegerBuilder) : ℕ → Bytes → IntegerBuilder × Option BuildError
  | _, [] => (b, none)
  | i, c :: cs =>
    if i = 0 ∧ b.negativeMultiplicator = 1 ∧ c = '-' then digits { b with negativeMultiplicator := -1 } (i + 1) cs
    else if c.isDigit = false then (b, some (.redisError "Invalid character for integer redis reply"))
    else if InInt64 (10 * b.nbr) ∧ InInt64 (10 * b.nbr + (c.toNat - '0'.toNat : ℕ)) then
      digits { b with nbr := 10 * b.nbr + (c.toNat - '0'.toNat : ℕ) } (i + 1) cs
    else (b, some .undefined)

def getInteger (b : IntegerBuilder) : ℤ := b.negativeMultiplicator * b.nbr

def feed (b : IntegerBuilder) (buffer : Bytes) : Built IntegerBuilder :=
  if b.ready then ⟨b, buffer, none⟩
  else
    match findEnd buffer with
    | none => ⟨b, buffer, none⟩
    | some e =>
      match b.digits 0 (buffer.take e) with
      | (b, some fault) => ⟨b, buffer, some fault⟩
      | (b, none) => ⟨{ b with ready := true, reply := .integer b.getInteger }, buffer.drop (e + 2), none⟩

end IntegerBuilder

structure BulkStringBuilder where
  intBuilder : IntegerBuilder := {}
  strSize : ℤ := 0
  str : Bytes := []
  isNull : Bool := false
  ready : Bool := false
  reply : Reply := .null

namespace BulkStringBuilder

def buildReply (b : BulkStringBuilder) : BulkStringBuilder :=
  { b with ready := true, reply := if b.isNull then .null else .bulkString b.str }

/-- The size has been read; it is converted to `int`. -/
def setSize (b : BulkStringBuilder) (i : IntegerBuilder) : BulkStringBuilder :=
  if i.ready then
    if i32 i.getInteger = -1 then { b with intBuilder := i, strSize := -1, isNull := true }.buildReply
    else { b with intBuilder := i, strSize := i32 i.getInteger }
  else { b with intBuilder := i }

def fetchSize (b : BulkStringBuilder) (buffer : Bytes) : Built BulkStringBuilder :=
  if b.intBuilder.ready then ⟨b, buffer, none⟩ else (b.intBuilder.feed buffer).map b.setSize

/-- The end sequence is compared and removed; what is added to the size is added as an `int`. -/
def endFault (size : ℕ) (ending : Bytes) : Option BuildError :=
  if ending[0]? ≠ some '\r' then some (.redisError "Wrong ending sequence")
  else if 2 ^ 31 ≤ size + 1 then some .undefined
  else if ending[1]? ≠ some '\n' then some (.redisError "Wrong ending sequence")
  else if 2 ^ 31 ≤ size + 2 then some .undefined
  else none

def fetchStr (b : BulkStringBuilder) (buffer : Bytes) : Built BulkStringBuilder :=
  if b.strSize < 0 then
    -- a large `std::size_t`, and an index outside the buffer
    if buffer.length < u64 (b.strSize + 2) then ⟨b, buffer, none⟩ else ⟨b, buffer, some .undefined⟩
  else
    let size := b.strSize.toNat
    if buffer.length < size + 2 then ⟨b, buffer, none⟩
    else
      match endFault size ((buffer.drop size).take 2) with
      | some fault => ⟨b, buffer, some fault⟩
      | none => ⟨{ b with str := buffer.take size }.buildReply, buffer.drop (size + 2), none⟩

def feed (b : BulkStringBuilder) (buffer : Bytes) : Built BulkStringBuilder :=
  if b.ready then ⟨b, buffer, none⟩
  else
    let r := b.fetchSize buffer
    if r.fault.isSome || !r.state.intBuilder.ready || r.state.ready then r else r.state.fetchStr r.rest

end BulkStringBuilder

/-! ## Arrays -/

/-- The builder of an array, its elements built by builders of the type `β`. -/
structure ArrayBuilder (β : Type) where
  intBuilder : IntegerBuilder := {}
  arraySize : ℕ := 0
  current : Option β := none
  ready : Bool := false
  reply : Reply := .array []

namespace ArrayBuilder

variable {β : Type}

def setSize (b : ArrayBuilder β) (i : IntegerBuilder) : ArrayBuilder β :=
  if i.ready then
    let size := i.getInteger
    if size < 0 then { b with intBuilder := i, arraySize := u64 size, ready := true, reply := .null }
    else if size = 0 then { b with intBuilder := i, arraySize := u64 size, ready := true }
    else { b with intBuilder := i, arraySize := u64 size }
  else { b with intBuilder := i }

def fetchArraySize (b : ArrayBuilder β) (buffer : Bytes) : Built (ArrayBuilder β) :=
  if b.intBuilder.ready then ⟨b, buffer, none⟩ else (b.intBuilder.feed buffer).map b.setSize

def addRow (b : ArrayBuilder β) (r : Reply) : ArrayBuilder β :=
  { b with current := none, reply := b.reply.push r, ready := b.ready || (b.reply.push r).rows.length == b.arraySize }

/-- `build_row` is an iteration of this loop (`Slot.row`). -/
def rows (create : Char → Except BuildError β) (item : Consumer Char β BuildError) (getReply : β → Reply) :
    Slot Char β (ArrayBuilder β) BuildError where
  create := create
  item := item
  current := current
  hold b s := { b with current := some s }
  emit b s := b.addRow (getReply s)
  done := ready
  current_hold _ _ := rfl
  current_emit _ _ := rfl
  hold_hold _ _ _ := rfl
  emit_hold _ _ _ := rfl
  done_hold _ _ := rfl

def feed (create : Char → Except BuildError β) (item : Consumer Char β BuildError) (getReply : β → Reply)
    (b : ArrayBuilder β) (buffer : Bytes) : Built (ArrayBuilder β) :=
  if b.ready then ⟨b, buffer, none⟩
  else
    let r := b.fetchArraySize buffer
    if r.fault.isSome || !r.state.intBuilder.ready then r
    else (rows create item getReply).drain r.state r.rest

end ArrayBuilder

/-! ## Any builder -/

/-- A builder behind `builder_iface`. -/
inductive Builder where
  | simpleString (b : SimpleStringBuilder)
  | error (b : ErrorBuilder)
  | integer (b : IntegerBuilder)
  | bulkString (b : BulkStringBuilder)
  | array (b : ArrayBuilder Builder)

def createBuilder (id : Char) : Except BuildError Builder :=
  if id = '+' then .ok (.simpleString {})
  else if id = '-' then .ok (.error {})
  else if id = ':' then .ok (.integer {})
  else if id = '$' then .ok (.bulkString {})
  else if id = '*' then .ok (.array {})
  else .error (.redisError "Invalid data")

namespace Builder

def replyReady : Builder → Bool
  | .simpleString b => b.ready
  | .error b => b.ready
  | .integer b => b.ready
  | .bulkString b => b.ready
  | .array b => b.ready

def getReply : Builder → Reply
  | .simpleString b => b.reply
  | .error b => b.reply
  | .integer b => b.reply
  | .bulkString b => b.reply
  | .array b => b.reply

/-- `operator<<` with at most `n` nested calls. -/
def feedN : ℕ → Builder → Bytes → Built Builder
  | 0, b, buffer => ⟨b, buffer, none⟩
  | _ + 1, .simpleString b, buffer => (b.feed buffer).map .simpleString
  | _ + 1, .error b, buffer => (b.feed buffer).map .error
  | _ + 1, .integer b, buffer => (b.feed buffer).map .integer
  | _ + 1, .bulkString b, buffer => (b.feed buffer).map .bulkString
  | n + 1, .array b, buffer => (b.feed createBuilder ⟨feedN n, replyReady⟩ getReply buffer).map .array

def depth : Builder → ℕ
  | .array ⟨_, _, some b, _, _⟩ => b.depth + 1
  | _ => 1

/-- `operator<<`: a nested builder that does not exist yet takes a character of the buffer. -/
def feed (b : Builder) (buffer : Bytes) : Built Builder := feedN (b.depth + buffer.length) b buffer

@[simps] def consumer : Consumer Char Builder BuildError := ⟨feed, replyReady⟩

end Builder

/-! ## The reply builder of a connection -/

/-- `m_builder` and `m_available_replies`; the buffer is kept beside them. -/
structure ReplyBuilder where
  builder : Option Builder := none
  available : List Reply := []

namespace ReplyBuilder

/-- `build_reply` is an iteration of this loop (`Slot.row`); it goes on forever. -/
def replies : Slot Char Builder ReplyBuilder BuildError where
  create := createBuilder
  item := Builder.consumer
  current := builder
  hold r b := { r with builder := some b }
  emit r b := { r with builder := none, available := r.available ++ [b.getReply] }
  done _ := false
  current_hold _ _ := rfl
  current_emit _ _ := rfl
  hold_hold _ _ _ := rfl
  emit_hold _ _ _ := rfl
  done_hold _ _ := rfl

/-- `operator<<` of a builder that has not failed, with what has been left in `m_buffer`; after an exception the
connection reads nothing more. -/
def feed (r : Built ReplyBuilder) (data : Bytes) : Built ReplyBuilder := replies.consumer.receive r data

def fresh : Built ReplyBuilder := ⟨{}, [], none⟩

end ReplyBuilder

end DistributedLock.Resp
