import DistributedLock.Resp.Commands
import DistributedLock.Lib.Machine
import Mathlib.Logic.Function.Basic

/-!
# One client, its connection and the server

The path of a command of `cpp_redis::client`: a thread `send`s it, which puts it into the send buffer and its
callback into the queue, and calls `sync_commit`, which writes the buffer to the socket and waits on
`m_sync_condvar` until every command has been answered and every callback has run; then it takes the reply out
of its future.  The replies come back through the worker of the io service, which hands each to the callback at
the front of the queue.

* a thread has one command at a time on its way, as in `DBRedis`; a command is named by its number on the
  connection;
* the server may answer a command by anything (`serve`) and may write what is not an answer at all (`junk`);
* bytes arrive in chunks of any size, at the server and at the client;
* the io service has one worker, which is its default: the read, the write and the disconnection handlers of a
  connection do not run at the same time;
* a lost connection is not opened again (`max_reconnects` is 0): `clear_callbacks` hands a failure to all
  callbacks that are left, in a detached thread;
* `connection_disconnection_handler` calls `clear_callbacks` with the mutex of the callbacks held, in one step
  (`clear`).  `try_commit` calls it without: there it is three steps (`empty`, `move`, `count`), and other threads
  come between them.  What comes between those of the handler can only leave it an empty queue, whose thread
  merely notifies (`spurious`);
* a thread may come out of its wait on `m_sync_condvar` without a notification (`spurious`).

The mutex of the callbacks is free between the steps of the model, except while a thread in `sync_commit` has
found the condition false and has not gone to sleep yet.
-/

set_option linter.unusedSectionVars false

namespace DistributedLock.Pipeline

open Lib Resp

/-- What a command is answered by when the connection is lost. -/
def networkFailure : Reply := .error "network failure".toList

/-- Where a thread is with its command. -/
inductive Stage where
  /-- The command is in the pipeline; `sync_commit` is next. -/
  | sent
  /-- In `try_commit`. -/
  | committing
  /-- The socket is closed and `commit` of the connection has thrown; `clear_callbacks` is next. -/
  | throwing
  /-- In `clear_callbacks`, after it has found commands in the queue. -/
  | moving
  /-- The commands are in its local queue, and not yet counted. -/
  | moved (commands : List ℕ)
  /-- In `sync_commit`, before it tests the condition. -/
  | waiting
  /-- The condition was false; the mutex is still held. -/
  | parking
  | parked
  /-- `sync_commit` has returned; `get` of the future is next. -/
  | synced
  deriving DecidableEq, Repr

structure Call where
  number : ℕ
  stage : Stage
  deriving DecidableEq, Repr

/-- A thread that sleeps tests the condition again. -/
def Call.wake (c : Call) : Call := if c.stage = .parked then ⟨c.number, .waiting⟩ else c

/-- The worker of the io service, on behalf of the connection. -/
inductive Io where
  /-- A read has been requested. -/
  | reading
  /-- In the loop over the available replies. -/
  | delivering
  | calling (callback : Option ℕ) (reply : Reply)
  | called
  /-- A reply could not be built: nothing is read any more, and nothing else happens. -/
  | stopped
  /-- The socket has failed and is closed. -/
  | lost
  /-- In `connection_disconnection_handler`, before the mutex. -/
  | handling
  | closed

namespace Io

/-- `is_connected()` -/
def connected : Io → Bool
  | .lost | .handling | .closed => false
  | _ => true

/-- `is_reconnecting()` -/
def reconnecting : Io → Bool
  | .handling => true
  | _ => false

/-- The callbacks it counts in `m_callbacks_running`. -/
def running : Io → ℕ
  | .calling _ _ | .called => 1
  | _ => 0

end Io

/-- A detached thread of `clear_callbacks`: the callbacks that are left, and whether the first has been called. -/
structure Clearing where
  queue : List ℕ
  called : Bool
  deriving DecidableEq, Repr

structure State (τ : Type) where
  /-- `m_buffer` of the connection -/
  buffer : Bytes
  /-- `m_commands`: the numbers of the commands whose callbacks are queued. -/
  commands : List ℕ
  callbacksRunning : ℕ
  /-- The owner of `m_callbacks_mutex`. -/
  mutex : Option τ
  calls : τ → Option Call
  clearings : List Clearing
  promises : ℕ → Option Reply
  builder : Built ReplyBuilder
  io : Io
  /-- The write requests of the socket. -/
  writes : List Bytes
  /-- The bytes on their way, those that have arrived at the server, those on their way back. -/
  toServer : Bytes
  arrived : Bytes
  toClient : Bytes
  /-- What has been sent, executed and answered so far. -/
  sent : List (List Bytes)
  served : List (List Bytes)
  answered : List Reply

inductive Label (τ : Type) where
  | send (a : τ) (cmd : List Bytes)
  | sync (a : τ)
  | commit (a : τ)
  | empty (a : τ)
  | move (a : τ)
  | count (a : τ)
  | check (a : τ)
  | park (a : τ)
  | spurious (a : τ)
  | get (a : τ)
  | write (n : ℕ)
  | arrive (n : ℕ)
  | serve (cmd : List Bytes) (reply : Reply)
  | junk (bytes : Bytes)
  | receive (n : ℕ)
  | pop
  | callback
  | finish
  | lose
  | handle
  | clear
  | fail (i : ℕ)
  | forget (i : ℕ)
  | notify (i : ℕ)

section Step

variable {τ : Type} [DecidableEq τ]

namespace State

/-- The connection has been opened, and no command sent. -/
def fresh : State τ where
  buffer := []
  commands := []
  callbacksRunning := 0
  mutex := none
  calls _ := none
  clearings := []
  promises _ := none
  builder := ReplyBuilder.fresh
  io := .reading
  writes := []
  toServer := []
  arrived := []
  toClient := []
  sent := []
  served := []
  answered := []

def setCall (s : State τ) (a : τ) (c : Option Call) : State τ := { s with calls := Function.update s.calls a c }

def notifyAll (s : State τ) : State τ := { s with calls := fun a => (s.calls a).map Call.wake }

/-- `clear_callbacks` with the mutex held. -/
def clearCallbacks (s : State τ) : State τ :=
  if s.commands = [] then s
  else
    { s with
      commands := []
      callbacksRunning := s.callbacksRunning + s.commands.length
      clearings := s.clearings ++ [⟨s.commands, false⟩] }

theorem clearCallbacks_eq (s : State τ) :
    s.clearCallbacks =
      { s with
        commands := []
        callbacksRunning := s.callbacksRunning + s.commands.length
        clearings := if s.commands = [] then s.clearings else s.clearings ++ [⟨s.commands, false⟩] } := by
  unfold clearCallbacks
  split
  · rename_i h
    rw [h]
    cases s
    simp_all
  · rfl

section Fields

variable (s : State τ)

@[simp] theorem clearCallbacks_commands : s.clearCallbacks.commands = [] := by rw [clearCallbacks_eq]

@[simp] theorem clearCallbacks_io : s.clearCallbacks.io = s.io := by rw [clearCallbacks_eq]

@[simp] theorem clearCallbacks_calls : s.clearCallbacks.calls = s.calls := by rw [clearCallbacks_eq]

@[simp] theorem clearCallbacks_promises : s.clearCallbacks.promises = s.promises := by rw [clearCallbacks_eq]

@[simp] theorem clearCallbacks_mutex : s.clearCallbacks.mutex = s.mutex := by rw [clearCallbacks_eq]

@[simp] theorem clearCallbacks_sent : s.clearCallbacks.sent = s.sent := by rw [clearCallbacks_eq]

@[simp] theorem clearCallbacks_served : s.clearCallbacks.served = s.served := by rw [clearCallbacks_eq]

@[simp] theorem clearCallbacks_answered : s.clearCallbacks.answered = s.answered := by rw [clearCallbacks_eq]

end Fields

/-- The condition of `sync_commit`. -/
def Synced (s : State τ) : Prop := s.callbacksRunning = 0 ∧ s.commands = []

instance : DecidablePred (Synced (τ := τ)) := fun s => by unfold Synced; infer_instance

end State

/-! ## The threads of the client -/

/-- `send`, and the promise of `exec_cmd`. -/
def send (s : State τ) (a : τ) (cmd : List Bytes) : Option (State τ) :=
  if s.calls a = none ∧ s.mutex = none then
    some { s with
      buffer := s.buffer ++ buildCommand cmd
      commands := s.commands ++ [s.sent.length]
      sent := s.sent ++ [cmd]
      calls := Function.update s.calls a (some ⟨s.sent.length, .sent⟩) }
  else none

/-- `sync_commit` leaves `try_commit` out while the disconnection is handled. -/
def sync (s : State τ) (a : τ) : Option (State τ) :=
  match s.calls a with
  | some ⟨k, .sent⟩ => some (s.setCall a (some ⟨k, if s.io.reconnecting then .waiting else .committing⟩))
  | _ => none

/-- `commit` of the connection; `async_write` throws on a closed socket, when the buffer has been moved away. -/
def commit (s : State τ) (a : τ) : Option (State τ) :=
  match s.calls a with
  | some ⟨k, .committing⟩ =>
    if s.io.connected then
      some ({ s with buffer := [], writes := s.writes ++ [s.buffer] }.setCall a (some ⟨k, .waiting⟩))
    else some ({ s with buffer := [] }.setCall a (some ⟨k, .throwing⟩))
  | _ => none

/-- The test of `clear_callbacks`; with an empty queue the exception leaves `sync_commit` at once. -/
def empty (s : State τ) (a : τ) : Option (State τ) :=
  match s.calls a with
  | some ⟨k, .throwing⟩ => some (s.setCall a (if s.commands = [] then none else some ⟨k, .moving⟩))
  | _ => none

def move (s : State τ) (a : τ) : Option (State τ) :=
  match s.calls a with
  | some ⟨k, .moving⟩ => some ({ s with commands := [] }.setCall a (some ⟨k, .moved s.commands⟩))
  | _ => none

/-- The commands are counted, the detached thread begins, and the exception leaves `sync_commit`. -/
def count (s : State τ) (a : τ) : Option (State τ) :=
  match s.calls a with
  | some ⟨_, .moved queue⟩ =>
    some (State.setCall { s with
      callbacksRunning := s.callbacksRunning + queue.length
      clearings := s.clearings ++ [⟨queue, false⟩] } a none)
  | _ => none

/-- The wait of `sync_commit` tests its condition. -/
def check (s : State τ) (a : τ) : Option (State τ) :=
  match s.calls a with
  | some ⟨k, .waiting⟩ =>
    if s.mutex = none then
      if s.Synced then some (s.setCall a (some ⟨k, .synced⟩))
      else some ({ s with mutex := some a }.setCall a (some ⟨k, .parking⟩))
    else none
  | _ => none

def park (s : State τ) (a : τ) : Option (State τ) :=
  match s.calls a with
  | some ⟨k, .parking⟩ => some ({ s with mutex := none }.setCall a (some ⟨k, .parked⟩))
  | _ => none

/-- A wait may end without a notification. -/
def spurious (s : State τ) (a : τ) : Option (State τ) :=
  match s.calls a with
  | some ⟨k, .parked⟩ => some (s.setCall a (some ⟨k, .waiting⟩))
  | _ => none

/-- `get` of the future waits for the reply. -/
def get (s : State τ) (a : τ) : Option (State τ) :=
  match s.calls a with
  | some ⟨k, .synced⟩ => if (s.promises k).isSome then some (s.setCall a none) else none
  | _ => none

/-! ## The network and the server -/

/-- `process_write`: the socket takes the first `n` bytes of the request at the front, and the request is popped. -/
def write (s : State τ) (n : ℕ) : Option (State τ) :=
  match s.writes with
  | [] => none
  | w :: ws =>
    if s.io.connected ∧ n ≤ w.length then some { s with writes := ws, toServer := s.toServer ++ w.take n } else none

def arrive (s : State τ) (n : ℕ) : Option (State τ) :=
  if 0 < n ∧ n ≤ s.toServer.length then
    some { s with toServer := s.toServer.drop n, arrived := s.arrived ++ s.toServer.take n }
  else none

/-- The server executes the command at the front of its input. -/
def serve (s : State τ) (cmd : List Bytes) (reply : Reply) : Option (State τ) :=
  if (buildCommand cmd).isPrefixOf s.arrived then
    some { s with
      arrived := s.arrived.drop (buildCommand cmd).length
      toClient := s.toClient ++ reply.encode
      served := s.served ++ [cmd]
      answered := s.answered ++ [reply] }
  else none

/-! ## The worker of the io service -/

/-- `tcp_client_receive_handler` gets a chunk. -/
def receive (s : State τ) (n : ℕ) : Option (State τ) :=
  match s.io with
  | .reading =>
    if 0 < n ∧ n ≤ s.toClient.length then
      let builder := ReplyBuilder.feed s.builder (s.toClient.take n)
      some { s with
        toClient := s.toClient.drop n
        builder := builder
        io := if builder.fault.isSome then .stopped else .delivering }
    else none
  | _ => none

/-- The loop over the available replies; `connection_receive_handler` takes the callback at the front. -/
def pop (s : State τ) : Option (State τ) :=
  match s.io, s.builder.state.available with
  | .delivering, [] => some { s with io := .reading }
  | .delivering, r :: rs =>
    if s.mutex = none then
      some { s with
        builder := { s.builder with state := { s.builder.state with available := rs } }
        callbacksRunning := s.callbacksRunning + 1
        commands := s.commands.tail
        io := .calling s.commands.head? r }
    else none
  | _, _ => none

def callback (s : State τ) : Option (State τ) :=
  match s.io with
  | .calling none _ => some { s with io := .called }
  | .calling (some k) r => some { s with promises := Function.update s.promises k (some r), io := .called }
  | _ => none

def finish (s : State τ) : Option (State τ) :=
  match s.io with
  | .called =>
    if s.mutex = none then
      some ({ s with callbacksRunning := s.callbacksRunning - 1, io := .delivering }.notifyAll)
    else none
  | _ => none

/-- A read or a write fails; `disconnect` drops the requests. -/
def lose (s : State τ) : Option (State τ) :=
  match s.io with
  | .reading | .stopped => some { s with io := .lost, writes := [] }
  | _ => none

/-- `tcp_client_disconnection_handler` clears the buffer; `connection_disconnection_handler` begins. -/
def handle (s : State τ) : Option (State τ) :=
  match s.io with
  | .lost => some { s with io := .handling, buffer := [] }
  | _ => none

/-- `connection_disconnection_handler` has the mutex, and the socket is not connected. -/
def clear (s : State τ) : Option (State τ) :=
  match s.io with
  | .handling => if s.mutex = none then some { s.clearCallbacks with io := .closed } else none
  | _ => none

/-! ## The threads of `clear_callbacks` -/

def fail (s : State τ) (i : ℕ) : Option (State τ) :=
  match s.clearings[i]? with
  | some ⟨k :: ks, false⟩ =>
    some { s with
      promises := Function.update s.promises k (some networkFailure)
      clearings := s.clearings.set i ⟨k :: ks, true⟩ }
  | _ => none

def forget (s : State τ) (i : ℕ) : Option (State τ) :=
  match s.clearings[i]? with
  | some ⟨_ :: ks, true⟩ =>
    some { s with callbacksRunning := s.callbacksRunning - 1, clearings := s.clearings.set i ⟨ks, false⟩ }
  | _ => none

/-- The thread ends; it does not hold the mutex. -/
def notify (s : State τ) (i : ℕ) : Option (State τ) :=
  match s.clearings[i]? with
  | some ⟨[], _⟩ => some ({ s with clearings := s.clearings.eraseIdx i }.notifyAll)
  | _ => none

def next (s : State τ) : Label τ → Option (State τ)
  | .send a cmd => send s a cmd
  | .sync a => sync s a
  | .commit a => commit s a
  | .empty a => empty s a
  | .move a => move s a
  | .count a => count s a
  | .check a => check s a
  | .park a => park s a
  | .spurious a => spurious s a
  | .get a => get s a
  | .write n => write s n
  | .arrive n => arrive s n
  | .serve cmd reply => serve s cmd reply
  | .junk bytes => some { s with toClient := s.toClient ++ bytes }
  | .receive n => receive s n
  | .pop => pop s
  | .callback => callback s
  | .finish => finish s
  | .lose => lose s
  | .handle => handle s
  | .clear => clear s
  | .fail i => fail s i
  | .forget i => forget s i
  | .notify i => notify s i

/-- **The system**: one client, any number of threads. -/
def system (τ : Type) [DecidableEq τ] : Machine (State τ) (Label τ) where
  init s := s = State.fresh
  next := next

end Step

/-! ## Inversion -/

section Inversion

variable {τ : Type} [DecidableEq τ] {s s' : State τ} {l : Label τ}

inductive Steps (s : State τ) : Label τ → State τ → Prop
  | send {a : τ} {cmd : List Bytes} (hc : s.calls a = none) (hm : s.mutex = none) :
      Steps s (.send a cmd) { s with
        buffer := s.buffer ++ buildCommand cmd
        commands := s.commands ++ [s.sent.length]
        sent := s.sent ++ [cmd]
        calls := Function.update s.calls a (some ⟨s.sent.length, .sent⟩) }
  | sync {a : τ} {k : ℕ} (hc : s.calls a = some ⟨k, .sent⟩) (hio : s.io.reconnecting = false) :
      Steps s (.sync a) (s.setCall a (some ⟨k, .committing⟩))
  | syncHandling {a : τ} {k : ℕ} (hc : s.calls a = some ⟨k, .sent⟩) (hio : s.io.reconnecting = true) :
      Steps s (.sync a) (s.setCall a (some ⟨k, .waiting⟩))
  | commit {a : τ} {k : ℕ} (hc : s.calls a = some ⟨k, .committing⟩) (hio : s.io.connected = true) :
      Steps s (.commit a) ({ s with buffer := [], writes := s.writes ++ [s.buffer] }.setCall a (some ⟨k, .waiting⟩))
  | commitThrows {a : τ} {k : ℕ} (hc : s.calls a = some ⟨k, .committing⟩) (hio : s.io.connected = false) :
      Steps s (.commit a) ({ s with buffer := [] }.setCall a (some ⟨k, .throwing⟩))
  | emptied {a : τ} {k : ℕ} (hc : s.calls a = some ⟨k, .throwing⟩) (hq : s.commands = []) :
      Steps s (.empty a) (s.setCall a none)
  | empty {a : τ} {k : ℕ} (hc : s.calls a = some ⟨k, .throwing⟩) (hq : s.commands ≠ []) :
      Steps s (.empty a) (s.setCall a (some ⟨k, .moving⟩))
  | move {a : τ} {k : ℕ} (hc : s.calls a = some ⟨k, .moving⟩) :
      Steps s (.move a) ({ s with commands := [] }.setCall a (some ⟨k, .moved s.commands⟩))
  | count {a : τ} {k : ℕ} {queue : List ℕ} (hc : s.calls a = some ⟨k, .moved queue⟩) :
      Steps s (.count a) (State.setCall { s with
        callbacksRunning := s.callbacksRunning + queue.length
        clearings := s.clearings ++ [⟨queue, false⟩] } a none)
  | synced {a : τ} {k : ℕ} (hc : s.calls a = some ⟨k, .waiting⟩) (hm : s.mutex = none) (hs : s.Synced) :
      Steps s (.check a) (s.setCall a (some ⟨k, .synced⟩))
  | check {a : τ} {k : ℕ} (hc : s.calls a = some ⟨k, .waiting⟩) (hm : s.mutex = none) (hs : ¬ s.Synced) :
      Steps s (.check a) ({ s with mutex := some a }.setCall a (some ⟨k, .parking⟩))
  | park {a : τ} {k : ℕ} (hc : s.calls a = some ⟨k, .parking⟩) :
      Steps s (.park a) ({ s with mutex := none }.setCall a (some ⟨k, .parked⟩))
  | spurious {a : τ} {k : ℕ} (hc : s.calls a = some ⟨k, .parked⟩) :
      Steps s (.spurious a) (s.setCall a (some ⟨k, .waiting⟩))
  | get {a : τ} {k : ℕ} (hc : s.calls a = some ⟨k, .synced⟩) (hp : (s.promises k).isSome = true) :
      Steps s (.get a) (s.setCall a none)
  | write {n : ℕ} {w : Bytes} {ws : List Bytes} (hw : s.writes = w :: ws) (hio : s.io.connected = true)
      (hn : n ≤ w.length) : Steps s (.write n) { s with writes := ws, toServer := s.toServer ++ w.take n }
  | arrive {n : ℕ} (hpos : 0 < n) (hn : n ≤ s.toServer.length) :
      Steps s (.arrive n) { s with toServer := s.toServer.drop n, arrived := s.arrived ++ s.toServer.take n }
  | serve {cmd : List Bytes} {reply : Reply} {rest : Bytes} (ha : s.arrived = buildCommand cmd ++ rest) :
      Steps s (.serve cmd reply) { s with
        arrived := rest
        toClient := s.toClient ++ reply.encode
        served := s.served ++ [cmd]
        answered := s.answered ++ [reply] }
  | junk {bytes : Bytes} : Steps s (.junk bytes) { s with toClient := s.toClient ++ bytes }
  | receive {n : ℕ} (hio : s.io = .reading) (hpos : 0 < n) (hn : n ≤ s.toClient.length) :
      Steps s (.receive n) { s with
        toClient := s.toClient.drop n
        builder := ReplyBuilder.feed s.builder (s.toClient.take n)
        io := if (ReplyBuilder.feed s.builder (s.toClient.take n)).fault.isSome then .stopped else .delivering }
  | read (hio : s.io = .delivering) (ha : s.builder.state.available = []) : Steps s .pop { s with io := .reading }
  | pop {r : Reply} {rs : List Reply} (hio : s.io = .delivering) (ha : s.builder.state.available = r :: rs)
      (hm : s.mutex = none) :
      Steps s .pop { s with
        builder := { s.builder with state := { s.builder.state with available := rs } }
        callbacksRunning := s.callbacksRunning + 1
        commands := s.commands.tail
        io := .calling s.commands.head? r }
  | callbackNone {r : Reply} (hio : s.io = .calling none r) : Steps s .callback { s with io := .called }
  | callback {k : ℕ} {r : Reply} (hio : s.io = .calling (some k) r) :
      Steps s .callback { s with promises := Function.update s.promises k (some r), io := .called }
  | finish (hio : s.io = .called) (hm : s.mutex = none) :
      Steps s .finish ({ s with callbacksRunning := s.callbacksRunning - 1, io := .delivering }.notifyAll)
  | lose (hio : s.io = .reading ∨ s.io = .stopped) : Steps s .lose { s with io := .lost, writes := [] }
  | handle (hio : s.io = .lost) : Steps s .handle { s with io := .handling, buffer := [] }
  | clear (hio : s.io = .handling) (hm : s.mutex = none) : Steps s .clear { s.clearCallbacks with io := .closed }
  | fail {i k : ℕ} {ks : List ℕ} (hc : s.clearings[i]? = some ⟨k :: ks, false⟩) :
      Steps s (.fail i) { s with
        promises := Function.update s.promises k (some networkFailure)
        clearings := s.clearings.set i ⟨k :: ks, true⟩ }
  | forget {i k : ℕ} {ks : List ℕ} (hc : s.clearings[i]? = some ⟨k :: ks, true⟩) :
      Steps s (.forget i) { s with
        callbacksRunning := s.callbacksRunning - 1
        clearings := s.clearings.set i ⟨ks, false⟩ }
  | notify {i : ℕ} {c : Bool} (hc : s.clearings[i]? = some ⟨[], c⟩) :
      Steps s (.notify i) ({ s with clearings := s.clearings.eraseIdx i }.notifyAll)

theorem sync_cases {a : τ} (h : sync s a = some s') : Steps s (.sync a) s' := by
  unfold sync at h
  split at h
  · rename_i k hc
    cases h
    cases hr : s.io.reconnecting with
    | false => simpa using Steps.sync hc hr
    | true => simpa using Steps.syncHandling hc hr
  · cases h

theorem commit_cases {a : τ} (h : commit s a = some s') : Steps s (.commit a) s' := by
  unfold commit at h
  split at h
  · rename_i k hc
    split at h
    · rename_i hio; cases h; exact .commit hc hio
    · rename_i hio; cases h; exact .commitThrows hc (by simpa using hio)
  · cases h

theorem empty_cases {a : τ} (h : empty s a = some s') : Steps s (.empty a) s' := by
  unfold empty at h
  split at h
  · rename_i k hc
    cases h
    split
    · rename_i hq; exact .emptied hc hq
    · rename_i hq; exact .empty hc hq
  · cases h

theorem check_cases {a : τ} (h : check s a = some s') : Steps s (.check a) s' := by
  unfold check at h
  split at h
  · rename_i k hc
    split at h
    · rename_i hm
      split at h
      · rename_i hs; cases h; exact .synced hc hm hs
      · rename_i hs; cases h; exact .check hc hm hs
    · cases h
  · cases h

theorem pop_cases (h : pop s = some s') : Steps s .pop s' := by
  unfold pop at h
  split at h
  · rename_i hio ha; cases h; exact .read hio ha
  · rename_i hio ha
    split at h
    · rename_i hm; cases h; exact .pop hio ha hm
    · cases h
  · cases h

theorem serve_cases {cmd : List Bytes} {reply : Reply} (h : serve s cmd reply = some s') :
    Steps s (.serve cmd reply) s' := by
  unfold serve at h
  split at h
  · rename_i hp
    obtain ⟨rest, hrest⟩ := List.isPrefixOf_iff_prefix.mp hp
    cases h
    rw [← hrest, List.drop_left]
    exact .serve hrest.symm
  · cases h

theorem io_cases (l : Label τ) (h : next s l = some s') (hl : l = .callback ∨ l = .finish ∨ l = .lose ∨ l = .handle ∨
    l = .clear) : Steps s l s' := by
  rcases hl with rfl | rfl | rfl | rfl | rfl
  · simp only [next, callback] at h
    split at h
    · rename_i hio; cases h; exact .callbackNone hio
    · rename_i hio; cases h; exact .callback hio
    · cases h
  · simp only [next, finish] at h
    split at h
    · rename_i hio
      split at h
      · rename_i hm; cases h; exact .finish hio hm
      · cases h
    · cases h
  · simp only [next, lose] at h
    split at h
    · rename_i hio; cases h; exact .lose (.inl hio)
    · rename_i hio; cases h; exact .lose (.inr hio)
    · cases h
  · simp only [next, handle] at h
    split at h
    · rename_i hio; cases h; exact .handle hio
    · cases h
  · simp only [next, clear] at h
    split at h
    · rename_i hio
      split at h
      · rename_i hm; cases h; exact .clear hio hm
      · cases h
    · cases h

/-- **Inversion of a step.** -/
theorem next_cases (h : next s l = some s') : Steps s l s' := by
  cases l with
  | send a cmd =>
    simp only [next, send] at h
    split at h
    · rename_i hc; cases h; exact .send hc.1 hc.2
    · cases h
  | sync a => exact sync_cases h
  | commit a => exact commit_cases h
  | empty a => exact empty_cases h
  | move a =>
    simp only [next, move] at h
    split at h
    · rename_i hc; cases h; exact .move hc
    · cases h
  | count a =>
    simp only [next, count] at h
    split at h
    · rename_i hc; cases h; exact .count hc
    · cases h
  | check a => exact check_cases h
  | park a =>
    simp only [next, park] at h
    split at h
    · rename_i hc; cases h; exact .park hc
    · cases h
  | spurious a =>
    simp only [next, spurious] at h
    split at h
    · rename_i hc; cases h; exact .spurious hc
    · cases h
  | get a =>
    simp only [next, get] at h
    split at h
    · rename_i hc
      split at h
      · rename_i hp; cases h; exact .get hc hp
      · cases h
    · cases h
  | write n =>
    simp only [next, write] at h
    split at h
    · cases h
    · rename_i hw
      split at h
      · rename_i hn; cases h; exact .write hw hn.1 hn.2
      · cases h
  | arrive n =>
    simp only [next, arrive] at h
    split at h
    · rename_i hn; cases h; exact .arrive hn.1 hn.2
    · cases h
  | serve cmd reply => exact serve_cases h
  | junk bytes => cases h; exact .junk
  | receive n =>
    simp only [next, receive] at h
    split at h
    · rename_i hio
      split at h
      · rename_i hn; cases h; exact .receive hio hn.1 hn.2
      · cases h
    · cases h
  | pop => exact pop_cases h
  | callback => exact io_cases _ h (.inl rfl)
  | finish => exact io_cases _ h (.inr (.inl rfl))
  | lose => exact io_cases _ h (.inr (.inr (.inl rfl)))
  | handle => exact io_cases _ h (.inr (.inr (.inr (.inl rfl))))
  | clear => exact io_cases _ h (.inr (.inr (.inr (.inr rfl))))
  | fail i =>
    simp only [next, fail] at h
    split at h
    · rename_i hc; cases h; exact .fail hc
    · cases h
  | forget i =>
    simp only [next, forget] at h
    split at h
    · rename_i hc; cases h; exact .forget hc
    · cases h
  | notify i =>
    simp only [next, notify] at h
    split at h
    · rename_i hc; cases h; exact .notify hc
    · cases h

end Inversion

end DistributedLock.Pipeline
