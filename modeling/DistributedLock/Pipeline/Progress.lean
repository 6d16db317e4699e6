import DistributedLock.Pipeline.Matching
import DistributedLock.Lib.Inevitable
import DistributedLock.Lib.Counting
import Mathlib.Data.Prod.Lex

/-!
# Every call returns

Once no more commands are sent, the threads come out of their calls, whatever the order of the steps, and whether or not
the connection is lost (`every_call_returns`): by the reply, by a failure after the loss, or by the exception of
`commit`.

The condition variable is what makes this difficult.  A thread in `sync_commit` may find the condition false and
be on its way to sleep when a thread of `clear_callbacks` notifies, which does not hold the mutex; that
notification is missed, and there is no other (`Prompt` excludes it).  The worker notifies with the mutex.

* `measure_step`: the steps that are not those of a new command come to an end, if no wait ends by itself;
* `WakeInv`: a thread that sleeps, or is about to, has a notification before it;
* `DueInv`: a thread that has come out of `sync_commit` has been answered, or its callback is going to be called;
* `not_stuck`: where the steps have come to an end, no thread is in a call.
-/

set_option linter.unusedSectionVars false

namespace DistributedLock.Pipeline

open Lib Resp

variable {τ : Type} [DecidableEq τ] {s s' : State τ} {l : Label τ} {a : τ} {k p : ℕ}

/-- What goes on once no command is sent, the server writes only answers, and a wait ends by a notification. -/
def Label.Internal : Label τ → Prop
  | .send _ _ | .junk _ | .spurious _ => False
  | _ => True

def Label.Ongoing (l : Label τ) : Prop := l.Internal ∧ l ≠ .lose

/-- A thread of `clear_callbacks` notifies while no thread is on its way to sleep. -/
def Prompt (s : State τ) : Label τ → Prop
  | .notify _ => s.mutex = none
  | _ => True

/-! ## Every step makes less of something -/

section Measure

/-- The steps of a thread up to its wait, or to the exception. -/
def Stage.ahead : Stage → ℕ
  | .sent => 5
  | .committing => 4
  | .throwing => 3
  | .moving => 2
  | .moved _ => 1
  | .waiting | .parking | .parked | .synced => 0

def Stage.rank : Stage → ℕ
  | .waiting => 3
  | .parking => 2
  | .parked | .synced => 1
  | .sent | .committing | .throwing | .moving | .moved _ => 0

namespace Call

def rank : Option Call → ℕ
  | none => 0
  | some c => c.stage.rank

def ahead : Option Call → ℕ
  | none => 0
  | some c => c.stage.ahead

theorem ahead_wake (o : Option Call) : ahead (o.map Call.wake) = ahead o := by
  cases o with
  | none => rfl
  | some c =>
    rcases c with ⟨k, stage⟩
    cases stage <;> rfl

end Call

def Io.rank : Io → ℕ
  | .calling _ _ => 3
  | .called => 2
  | .delivering => 1
  | .lost => 2
  | .handling => 1
  | .reading | .stopped | .closed => 0

def Clearing.rank (c : Clearing) : ℕ := 2 * c.queue.length + if c.called then 1 else 2

namespace State

/-- The bytes on their way to the server, by how far they have to go. -/
def upstream (s : State τ) : ℕ := (s.writes.map fun w => 2 * w.length + 1).sum + 2 * s.toServer.length + s.arrived.length

def upright (s : State τ) : ℕ := if s.io.connected then 1 else 0

/-- The replies that have arrived, and what clears the callbacks. -/
def deliveries (s : State τ) : ℕ :=
  4 * s.builder.state.available.length + s.io.rank + 4 * s.commands.length + (s.clearings.map Clearing.rank).sum

variable [Fintype τ]

def ahead (s : State τ) : ℕ := ∑ a, Call.ahead (s.calls a)

def waits (s : State τ) : ℕ := ∑ a, Call.rank (s.calls a)

/-- What is left to do: the first component that changes gets smaller. -/
def measure (s : State τ) : ℕ ×ₗ ℕ ×ₗ ℕ ×ₗ ℕ ×ₗ ℕ ×ₗ ℕ :=
  toLex (s.upright, toLex (s.ahead, toLex (s.upstream, toLex (s.toClient.length, toLex (s.deliveries, s.waits)))))

theorem measure_lt (hio : s'.upright = s.upright) (h : s'.ahead < s.ahead ∨ s'.ahead = s.ahead ∧
    (s'.upstream < s.upstream ∨ s'.upstream = s.upstream ∧
      (s'.toClient.length < s.toClient.length ∨ s'.toClient.length = s.toClient.length ∧
        (s'.deliveries < s.deliveries ∨ s'.deliveries = s.deliveries ∧ s'.waits < s.waits)))) :
    s'.measure < s.measure := by
  have hlex : s'.upright < s.upright ∨ s'.upright = s.upright ∧ _ := .inr ⟨hio, h⟩
  simpa only [measure, Prod.Lex.toLex_lt_toLex] using hlex

theorem measure_ahead {t : State τ} {c : Call} {o : Option Call} (hio : t.io = s.io) (ht : t.calls = s.calls)
    (hc : s.calls a = some c) (hlt : Call.ahead o < Call.ahead (some c)) : (t.setCall a o).measure < s.measure := by
  have hsum := sum_update_add Call.ahead s.calls a o
  rw [hc] at hsum
  refine measure_lt (by rw [upright, upright, ← hio]; rfl) (.inl ?_)
  simp only [ahead, setCall, ht]
  omega

theorem measure_setCall {t : State τ} {c : Call} {o : Option Call} (hio : t.io = s.io) (ht : t.calls = s.calls)
    (hup : t.upstream = s.upstream) (hcl : t.toClient = s.toClient) (hdel : t.deliveries = s.deliveries)
    (hc : s.calls a = some c) (hah : Call.ahead o = Call.ahead (some c)) (hlt : Call.rank o < Call.rank (some c)) :
    (t.setCall a o).measure < s.measure := by
  have hsum := sum_update_add Call.ahead s.calls a o
  have hwaits := sum_update_add Call.rank s.calls a o
  rw [hc] at hsum hwaits
  refine measure_lt (by rw [upright, upright, ← hio]; rfl) (.inr ⟨?_, .inr ⟨hup, .inr ⟨congrArg _ hcl, .inr ⟨hdel, ?_⟩⟩⟩⟩)
  · simp only [ahead, setCall, ht]
    omega
  · simp only [waits, setCall, ht]
    omega

theorem measure_deliveries (hio : s'.upright = s.upright) (hah : s'.ahead = s.ahead) (hup : s'.upstream = s.upstream)
    (hcl : s'.toClient = s.toClient) (hlt : s'.deliveries < s.deliveries) : s'.measure < s.measure :=
  measure_lt hio (.inr ⟨hah, .inr ⟨hup, .inr ⟨congrArg _ hcl, .inl hlt⟩⟩⟩)

theorem ahead_notifyAll (s : State τ) : s.notifyAll.ahead = s.ahead := by
  simp only [ahead, notifyAll, Call.ahead_wake]

end State

theorem upright_step (hl : l ≠ .lose) (hs : Steps s l s') : s'.upright = s.upright := by
  have hiff : s'.io.connected = true ↔ s.io.connected = true :=
    ⟨connected_of_step hs, fun hc => connected_step hc hl hs⟩
  simp only [State.upright, hiff]

/-- **Every step that sends no command makes less of something.** -/
theorem measure_step [Fintype τ] (hi : l.Internal) (hs : Steps s l s') : s'.measure < s.measure := by
  have hup : l ≠ .lose → s'.upright = s.upright := fun hl => upright_step hl hs
  cases hs with
  | send => exact absurd hi id
  | junk => exact absurd hi id
  | spurious => exact absurd hi id
  | lose hio =>
    have hcon : s.io.connected = true := by rcases hio with hio | hio <;> (rw [hio]; rfl)
    rw [State.measure, State.measure, Prod.Lex.toLex_lt_toLex]
    refine .inl ?_
    rw [State.upright, State.upright, hcon]
    exact Nat.one_pos
  | sync hc _ | syncHandling hc _ | commit hc _ | commitThrows hc _ | emptied hc _ | empty hc _ | move hc | count hc =>
    exact State.measure_ahead rfl rfl hc (by simp [Call.ahead, Stage.ahead])
  | synced hc _ _ | check hc _ _ | park hc | get hc _ =>
    exact State.measure_setCall rfl rfl rfl rfl rfl hc rfl (by simp [Call.rank, Stage.rank])
  | @write n w ws hw _ hn =>
    refine State.measure_lt (hup (by simp)) (.inr ⟨rfl, .inl ?_⟩)
    simp only [State.upstream, hw, List.map_cons, List.sum_cons, List.length_append, List.length_take]
    omega
  | arrive hpos hn =>
    refine State.measure_lt (hup (by simp)) (.inr ⟨rfl, .inl ?_⟩)
    simp only [State.upstream, List.length_append, List.length_take, List.length_drop]
    omega
  | @serve cmd reply rest ha =>
    have hpos := List.length_pos_of_ne_nil (prefixCode_buildCommand.ne_nil cmd)
    refine State.measure_lt (hup (by simp)) (.inr ⟨rfl, .inl ?_⟩)
    simp only [State.upstream, ha, List.length_append]
    omega
  | receive _ hpos hn =>
    refine State.measure_lt (hup (by simp)) (.inr ⟨rfl, .inr ⟨rfl, .inl ?_⟩⟩)
    simp only [List.length_drop]
    omega
  | read hio ha =>
    refine State.measure_deliveries (hup (by simp)) rfl rfl rfl ?_
    simp only [State.deliveries, hio, Io.rank]
    omega
  | pop hio ha _ =>
    refine State.measure_deliveries (hup (by simp)) rfl rfl rfl ?_
    simp only [State.deliveries, hio, ha, Io.rank, List.length_cons, List.length_tail]
    omega
  | callbackNone hio | callback hio =>
    refine State.measure_deliveries (hup (by simp)) rfl rfl rfl ?_
    simp only [State.deliveries, hio, Io.rank]
    omega
  | finish hio _ =>
    refine State.measure_deliveries (hup (by simp)) (State.ahead_notifyAll _) rfl rfl ?_
    simp only [State.deliveries, State.notifyAll, hio, Io.rank]
    omega
  | handle hio =>
    refine State.measure_deliveries (hup (by simp)) rfl rfl rfl ?_
    simp only [State.deliveries, hio, Io.rank]
    omega
  | clear hio _ =>
    refine State.measure_deliveries (hup (by simp)) (by simp [State.ahead])
      (by simp [State.upstream, State.clearCallbacks_eq]) (by simp [State.clearCallbacks_eq]) ?_
    simp only [State.deliveries, State.clearCallbacks_eq, hio, Io.rank]
    split
    · simp_all
    · rename_i hne
      have hpos := List.length_pos_of_ne_nil hne
      simp only [List.map_append, List.map_cons, List.map_nil, List.sum_append, List.sum_cons, List.sum_nil,
        Clearing.rank, List.length_nil, Bool.false_eq_true, if_false]
      omega
  | fail hc =>
    obtain ⟨pre, post, heq, hset, -⟩ := getElem?_split hc
    refine State.measure_deliveries (hup (by simp)) rfl rfl rfl ?_
    simp only [State.deliveries, hset]
    rw [heq]
    simp [Clearing.rank]
  | forget hc =>
    obtain ⟨pre, post, heq, hset, -⟩ := getElem?_split hc
    refine State.measure_deliveries (hup (by simp)) rfl rfl rfl ?_
    simp only [State.deliveries, hset]
    rw [heq]
    simp only [Clearing.rank, List.map_append, List.map_cons, List.sum_append, List.sum_cons, List.length_cons,
      Bool.false_eq_true, if_false, if_true]
    omega
  | @notify i called hc =>
    obtain ⟨pre, post, heq, -, herase⟩ := getElem?_split hc
    refine State.measure_deliveries (hup (by simp)) (State.ahead_notifyAll _) rfl rfl ?_
    have hpos : 0 < Clearing.rank ⟨[], called⟩ := by cases called <;> decide
    simp only [State.deliveries, State.notifyAll, herase]
    rw [heq]
    simp only [List.map_append, List.map_cons, List.sum_append, List.sum_cons]
    omega

end Measure

/-! ## No notification is missed -/

/-- A thread that sleeps can rely on a notification. -/
def State.Owed (s : State τ) : Prop := ¬ s.Synced ∨ s.clearings ≠ [] ∨ ∃ a, s.moved a ≠ []

/-- A thread has at least `n` steps before its wait. -/
def State.Ahead (s : State τ) (n : ℕ) : Prop := ∃ a c, s.calls a = some c ∧ n ≤ c.stage.ahead

structure WakeInv (s : State τ) : Prop where
  /-- Who holds the mutex is on its way to sleep. -/
  owner : ∀ a, s.mutex = some a → ∃ k, s.calls a = some ⟨k, .parking⟩
  parking : ∀ a k, s.calls a = some ⟨k, .parking⟩ → s.mutex = some a
  /-- A thread that sleeps, or is about to, will be notified. -/
  wake : ∀ a k, s.calls a = some ⟨k, .parking⟩ ∨ s.calls a = some ⟨k, .parked⟩ → s.Owed
  /-- What is in the buffer has a thread that will commit. -/
  buffered : s.io.connected = true → s.buffer ≠ [] → s.Ahead (Stage.ahead .committing)
  /-- What is in the queue of a closed connection has a thread that will move it. -/
  queued : s.io = .closed → s.commands ≠ [] → s.Ahead (Stage.ahead .moving)

theorem WakeInv.fresh : WakeInv (State.fresh : State τ) where
  owner _ h := by cases h
  parking _ _ h := by cases h
  wake _ _ h := by rcases h with h | h <;> cases h
  buffered _ h := absurd rfl h
  queued h := by cases h

theorem Call.wake_parking {c : Call} (h : c.wake = ⟨k, .parking⟩) : c = ⟨k, .parking⟩ := by
  unfold wake at h
  split at h
  · cases h
  · exact h

theorem Call.wake_ne_parked {c : Call} : c.wake ≠ ⟨k, .parked⟩ := by
  unfold wake
  split
  · intro h
    cases h
  · rintro rfl
    contradiction

/-- The mutex is held on the way to sleep, and only there. -/
theorem owner_step (h : WakeInv s) (hs : Steps s l s') :
    (∀ a, s'.mutex = some a → ∃ k, s'.calls a = some ⟨k, .parking⟩) ∧
      ∀ a k, s'.calls a = some ⟨k, .parking⟩ → s'.mutex = some a := by
  -- a thread at another stage goes on
  have hset : ∀ {t : State τ} {b : τ} {c : Call} {o : Option Call}, t.calls = s.calls → t.mutex = s.mutex →
      s.calls b = some c → c.stage ≠ .parking → (∀ d ∈ o, d.stage ≠ .parking) →
      (∀ a, (t.setCall b o).mutex = some a → ∃ k, (t.setCall b o).calls a = some ⟨k, .parking⟩) ∧
        ∀ a k, (t.setCall b o).calls a = some ⟨k, .parking⟩ → (t.setCall b o).mutex = some a := by
    intro t b c o ht hm hb hc ho
    refine ⟨fun a ha => ?_, fun a k ha => ?_⟩
    · obtain ⟨k, hk⟩ := h.owner a (hm ▸ ha)
      have hab : a ≠ b := by
        rintro rfl
        rw [hb] at hk
        cases hk
        exact hc rfl
      exact ⟨k, by simp only [State.setCall, ht]; rw [Function.update_of_ne hab]; exact hk⟩
    · rcases State.setCall_cases ha with ⟨-, rfl⟩ | ⟨-, ha⟩
      · exact absurd rfl (ho _ rfl)
      · exact hm.trans (h.parking a k (ht ▸ ha))
  have hwake : ∀ {t : State τ}, t.calls = s.calls → t.mutex = s.mutex →
      (∀ a, t.notifyAll.mutex = some a → ∃ k, t.notifyAll.calls a = some ⟨k, .parking⟩) ∧
        ∀ a k, t.notifyAll.calls a = some ⟨k, .parking⟩ → t.notifyAll.mutex = some a := by
    intro t ht hm
    refine ⟨fun a ha => ?_, fun a k ha => ?_⟩
    · obtain ⟨k, hk⟩ := h.owner a (hm ▸ ha)
      exact ⟨k, by simp only [State.notifyAll, ht, hk]; rfl⟩
    · obtain ⟨d, hd, hdk⟩ := State.notifyAll_cases ha
      rw [Call.wake_parking hdk, ht] at hd
      exact hm.trans (h.parking a k hd)
  cases hs with
  | @send b cmd hb hm =>
    refine ⟨fun a ha => ?_, fun a k ha => ?_⟩
    · rw [show s.mutex = some a from ha] at hm
      cases hm
    · rcases State.setCall_cases (t := s) (b := b) ha with ⟨-, hk⟩ | ⟨-, hk⟩
      · cases hk
      · exact h.parking a k hk
  | sync hc _ | syncHandling hc _ | commit hc _ | commitThrows hc _ | emptied hc _ | empty hc _ | move hc | count hc
  | synced hc _ _ | spurious hc | get hc _ => exact hset rfl rfl hc (by simp) (by simp)
  | @check b k hc hm _ =>
    refine ⟨fun a ha => ?_, fun a k ha => ?_⟩
    · cases ha
      exact ⟨k, by simp [State.setCall]⟩
    · rcases State.setCall_cases ha with ⟨rfl, -⟩ | ⟨-, ha⟩
      · rfl
      · rw [h.parking a k ha] at hm
        cases hm
  | @park b k hc =>
    refine ⟨fun a ha => (by cases ha), fun a k ha => ?_⟩
    -- the mutex has one owner
    rcases State.setCall_cases ha with ⟨-, hk⟩ | ⟨hab, ha⟩
    · cases hk
    · have hb := h.parking b _ hc
      rw [h.parking a k ha] at hb
      exact absurd (Option.some.inj hb) hab
  | finish _ _ => exact hwake rfl rfl
  | notify _ => exact hwake rfl rfl
  | clear _ _ =>
    simp only [State.clearCallbacks_mutex, State.clearCallbacks_calls]
    exact ⟨h.owner, h.parking⟩
  | write | arrive | serve | junk | receive | read | pop | callbackNone | callback | lose | handle | fail | forget =>
    exact ⟨h.owner, h.parking⟩

theorem owed_step (h : s.Owed) (hs : Steps s l s') : l = .finish ∨ (∃ i, l = .notify i) ∨ s'.Owed := by
  have hstep := hs
  have hmoved : (∀ a, l ≠ .move a ∧ l ≠ .count a) → s'.callbacksRunning = s.callbacksRunning →
      s'.commands = s.commands → s'.clearings = s.clearings → s'.Owed := by
    intro hl hrun hq hcl
    simpa only [State.Owed, State.Synced, moved_step hstep hl, hrun, hq, hcl] using h
  cases hs with
  | finish => exact .inl rfl
  | notify => exact .inr (.inl ⟨_, rfl⟩)
  | send _ _ => exact .inr (.inr (.inl (by simp [State.Synced])))
  | @move b k hb =>
    refine .inr (.inr ?_)
    have hsetCall := State.moved_setCall ({ s with commands := [] } : State τ) b (some ⟨k, .moved s.commands⟩)
    by_cases hq : s.commands = []
    · -- nothing is moved
      rcases h with hns | hcl | ⟨a, ha⟩
      · exact .inl fun hsy => hns ⟨hsy.1, hq⟩
      · exact .inr (.inl hcl)
      · have hab : a ≠ b := by
          rintro rfl
          rw [State.moved, hb] at ha
          exact ha rfl
        exact .inr (.inr ⟨a, by rw [hsetCall, Function.update_of_ne hab]; exact ha⟩)
    · exact .inr (.inr ⟨b, by rw [hsetCall, Function.update_self]; exact hq⟩)
  | count _ => exact .inr (.inr (.inr (.inl (by simp [State.setCall]))))
  | clear _ _ =>
    refine .inr (.inr ?_)
    by_cases hq : s.commands = []
    · exact hmoved (by simp) (by simp [State.clearCallbacks_eq, hq]) (by simp [hq])
        (by simp [State.clearCallbacks_eq, hq])
    · exact .inr (.inl (by simp [State.clearCallbacks_eq, hq]))
  | pop _ _ _ => exact .inr (.inr (.inl (by simp [State.Synced])))
  | fail hc =>
    obtain ⟨pre, post, -, hset, -⟩ := getElem?_split hc
    exact .inr (.inr (.inr (.inl (by simp [hset]))))
  | forget hc =>
    obtain ⟨pre, post, -, hset, -⟩ := getElem?_split hc
    exact .inr (.inr (.inr (.inl (by simp [hset]))))
  | sync | syncHandling | commit | commitThrows | emptied | empty | synced | check | park | spurious | get | write | arrive
  | serve | junk | receive | read | callbackNone | callback | lose | handle =>
    exact .inr (.inr (hmoved (by simp) rfl rfl rfl))

/-- A thread goes to sleep only after it has found the condition false. -/
theorem sleeper_step (hs : Steps s l s') (hc : s'.calls a = some ⟨k, .parking⟩ ∨ s'.calls a = some ⟨k, .parked⟩) :
    (s.calls a = some ⟨k, .parking⟩ ∨ s.calls a = some ⟨k, .parked⟩) ∨ s'.Owed := by
  -- a thread comes to another stage
  have hset : ∀ {t : State τ} {b : τ} {o : Option Call}, t.calls = s.calls →
      (∀ d ∈ o, d.stage ≠ .parking ∧ d.stage ≠ .parked) →
      (t.setCall b o).calls a = some ⟨k, .parking⟩ ∨ (t.setCall b o).calls a = some ⟨k, .parked⟩ →
      s.calls a = some ⟨k, .parking⟩ ∨ s.calls a = some ⟨k, .parked⟩ := by
    intro t b o ht ho h
    rw [← ht]
    rcases h with h | h <;> rcases State.setCall_cases h with ⟨-, rfl⟩ | ⟨-, h⟩
    · exact absurd rfl (ho _ rfl).1
    · exact .inl h
    · exact absurd rfl (ho _ rfl).2
    · exact .inr h
  have hwake : ∀ {t : State τ}, t.calls = s.calls →
      t.notifyAll.calls a = some ⟨k, .parking⟩ ∨ t.notifyAll.calls a = some ⟨k, .parked⟩ →
      s.calls a = some ⟨k, .parking⟩ ∨ s.calls a = some ⟨k, .parked⟩ := by
    intro t ht h
    rw [← ht]
    rcases h with h | h <;> obtain ⟨d, hd, hdk⟩ := State.notifyAll_cases h
    · rw [Call.wake_parking hdk] at hd
      exact .inl hd
    · exact absurd hdk Call.wake_ne_parked
  cases hs with
  | @send b cmd _ _ => exact .inl (hset (t := s) (b := b) (o := some ⟨s.sent.length, .sent⟩) rfl (by simp) hc)
  | sync | syncHandling | commit | commitThrows | emptied | empty | move | count | synced | spurious | get =>
    exact .inl (hset rfl (by simp) hc)
  | check _ _ hns => exact .inr (.inl hns)
  | @park b j hb =>
    rcases hc with hc | hc <;> rcases State.setCall_cases hc with ⟨rfl, hk⟩ | ⟨-, hc⟩
    · cases hk
    · exact .inl (.inl hc)
    · cases hk
      exact .inl (.inl hb)
    · exact .inl (.inr hc)
  | finish _ _ => exact .inl (hwake rfl hc)
  | notify _ => exact .inl (hwake rfl hc)
  | clear _ _ => exact .inl (by simpa using hc)
  | write | arrive | serve | junk | receive | read | pop | callbackNone | callback | lose | handle | fail | forget =>
    exact .inl hc

/-- **No notification is missed.** -/
theorem wake_step (h : WakeInv s) (hok : Prompt s l) (hs : Steps s l s') :
    ∀ a k, s'.calls a = some ⟨k, .parking⟩ ∨ s'.calls a = some ⟨k, .parked⟩ → s'.Owed := by
  -- a notification finds no thread on its way to sleep, and wakes the others
  have hnotify : ∀ {t : State τ}, t.calls = s.calls → s.mutex = none → ∀ a k,
      t.notifyAll.calls a = some ⟨k, .parking⟩ ∨ t.notifyAll.calls a = some ⟨k, .parked⟩ → False := by
    intro t ht hm a k hc
    rcases hc with hc | hc <;> obtain ⟨d, hd, hdk⟩ := State.notifyAll_cases hc
    · rw [Call.wake_parking hdk, ht] at hd
      rw [h.parking a k hd] at hm
      cases hm
    · exact Call.wake_ne_parked hdk
  intro a k hc
  rcases sleeper_step hs hc with hold | howed
  · rcases owed_step (h.wake a k hold) hs with rfl | ⟨i, rfl⟩ | howed
    · cases hs with
      | finish _ hm => exact (hnotify rfl hm a k hc).elim
    · cases hs with
      | notify _ => exact (hnotify rfl hok a k hc).elim
    · exact howed
  · exact howed

def Label.thread : Label τ → Option τ
  | .send a _ | .sync a | .commit a | .empty a | .move a | .count a | .check a | .park a | .spurious a | .get a => some a
  | _ => none

theorem ahead_step {c : Call} (hs : Steps s l s') (hc : s.calls a = some c) (hpos : 0 < c.stage.ahead)
    (hl : l.thread ≠ some a) : s'.calls a = some c := by
  have hset : ∀ {t : State τ} {b : τ} {o : Option Call}, t.calls = s.calls → b ≠ a → (t.setCall b o).calls a = some c := by
    intro t b o ht hab
    simp only [State.setCall, ht]
    rw [Function.update_of_ne hab.symm]
    exact hc
  have hwake : c.wake = c := by
    rcases c with ⟨k, stage⟩
    cases stage <;> first | rfl | cases hpos
  have hnotify : ∀ {t : State τ}, t.calls = s.calls → t.notifyAll.calls a = some c := by
    intro t ht
    simp only [State.notifyAll, ht, hc, Option.map_some, hwake]
  cases hs with
  | @send b cmd _ _ => exact hset (t := s) rfl fun h => hl (congrArg some h)
  | sync | syncHandling | commit | commitThrows | emptied | empty | move | count | synced | check | park | spurious | get =>
    exact hset rfl fun h => hl (congrArg some h)
  | finish _ _ => exact hnotify rfl
  | notify _ => exact hnotify rfl
  | clear _ _ => simpa using hc
  | write | arrive | serve | junk | receive | read | pop | callbackNone | callback | lose | handle | fail | forget =>
    exact hc

theorem State.Ahead.step {n : ℕ} (h : s.Ahead n) (hpos : 0 < n) (hs : Steps s l s')
    (hl : ∀ b ∈ l.thread, Call.ahead (s.calls b) < n) : s'.Ahead n := by
  obtain ⟨a, c, hc, hn⟩ := h
  refine ⟨a, c, ahead_step hs hc (hpos.trans_le hn) fun hth => ?_, hn⟩
  have hlt := hl a hth
  rw [hc] at hlt
  exact absurd hn (Nat.not_le.mpr hlt)

/-- What is in the buffer, and what is in the queue of a closed connection, has a thread that takes care of it. -/
theorem ahead_of_step (h : WakeInv s) (hs : Steps s l s') :
    (s'.io.connected = true → s'.buffer ≠ [] → s'.Ahead (Stage.ahead .committing)) ∧
      (s'.io = .closed → s'.commands ≠ [] → s'.Ahead (Stage.ahead .moving)) := by
  have hstep := hs
  have hbuf : (∀ b ∈ l.thread, Call.ahead (s.calls b) < 4) → s'.buffer = s.buffer → s'.io.connected = true →
      s'.buffer ≠ [] → s'.Ahead (Stage.ahead .committing) := fun hl hb hcon hne =>
    (h.buffered (connected_of_step hstep hcon) (hb ▸ hne)).step (by decide) hstep hl
  have hqueue : (∀ b ∈ l.thread, Call.ahead (s.calls b) < 2) → (s'.io = .closed → s.io = .closed) →
      s'.commands = s.commands → s'.io = .closed → s'.commands ≠ [] → s'.Ahead (Stage.ahead .moving) :=
    fun hl hio hq hcl hne => (h.queued (hio hcl) (hq ▸ hne)).step (by decide) hstep hl
  -- the thread that takes the step has enough before it
  have hself : ∀ {t : State τ} {b : τ} {c : Call} {n : ℕ}, n ≤ c.stage.ahead → (t.setCall b (some c)).Ahead n := by
    intro t b c n hn
    exact ⟨b, c, Function.update_self .., hn⟩
  cases hs with
  | @send b cmd _ _ =>
    have hb : ∀ {n : ℕ}, n ≤ 5 → State.Ahead (τ := τ) { s with
        buffer := s.buffer ++ buildCommand cmd
        commands := s.commands ++ [s.sent.length]
        sent := s.sent ++ [cmd]
        calls := Function.update s.calls b (some ⟨s.sent.length, .sent⟩) } n := fun hn =>
      ⟨b, _, Function.update_self .., hn⟩
    exact ⟨fun _ _ => hb (by decide), fun _ _ => hb (by decide)⟩
  | sync _ _ => exact ⟨fun _ _ => hself le_rfl, fun _ _ => hself (by simp [Stage.ahead])⟩
  | syncHandling _ hio =>
    have hh : s.io = .handling := by cases hi : s.io <;> simp_all [Io.reconnecting]
    exact ⟨fun hcon => (by simp [State.setCall, hh, Io.connected] at hcon), fun hcl => (by simp [State.setCall, hh] at hcl)⟩
  | commit _ hio =>
    refine ⟨fun _ hne => absurd rfl hne, fun hcl => ?_⟩
    rw [show s.io = .closed from hcl] at hio
    cases hio
  | commitThrows _ _ => exact ⟨fun _ hne => absurd rfl hne, fun _ _ => hself (by simp [Stage.ahead])⟩
  | emptied hb hq =>
    exact ⟨hbuf (by simp [Label.thread, hb, Call.ahead, Stage.ahead]) rfl, fun _ hne => absurd hq hne⟩
  | empty hb _ =>
    exact ⟨hbuf (by simp [Label.thread, hb, Call.ahead, Stage.ahead]) rfl, fun _ _ => hself le_rfl⟩
  | move hb => exact ⟨hbuf (by simp [Label.thread, hb, Call.ahead, Stage.ahead]) rfl, fun _ hne => absurd rfl hne⟩
  | count hb | synced hb _ _ | check hb _ _ | park hb | spurious hb | get hb _ =>
    exact ⟨hbuf (by simp [Label.thread, hb, Call.ahead, Stage.ahead]) rfl,
      hqueue (by simp [Label.thread, hb, Call.ahead, Stage.ahead]) id rfl⟩
  | pop hio _ _ => exact ⟨hbuf (by simp [Label.thread]) rfl, fun hcl => (by cases hcl)⟩
  | receive hio _ _ =>
    refine ⟨hbuf (by simp [Label.thread]) rfl, hqueue (by simp [Label.thread]) (fun hcl => ?_) rfl⟩
    split at hcl <;> cases hcl
  | handle _ => exact ⟨fun hcon => (by cases hcon), fun hcl => (by cases hcl)⟩
  | clear _ _ => exact ⟨fun hcon => (by cases hcon), fun _ hne => absurd (State.clearCallbacks_commands _) hne⟩
  | read | callbackNone | callback | lose =>
    exact ⟨hbuf (by simp [Label.thread]) rfl, hqueue (by simp [Label.thread]) (by simp) rfl⟩
  | finish _ _ => exact ⟨hbuf (by simp [Label.thread]) rfl, hqueue (by simp [Label.thread]) (by simp [State.notifyAll]) rfl⟩
  | write | arrive | serve | junk | fail | forget | notify =>
    exact ⟨hbuf (by simp [Label.thread]) rfl, hqueue (by simp [Label.thread]) id rfl⟩

theorem WakeInv.step (h : WakeInv s) (hok : Prompt s l) (hs : Steps s l s') : WakeInv s' where
  owner := (owner_step h hs).1
  parking := (owner_step h hs).2
  wake := wake_step h hok hs
  buffered := (ahead_of_step h hs).1
  queued := (ahead_of_step h hs).2

/-! ## No promise is forgotten -/

/-- The promise of the command is kept, or its callback is going to be called with a failure. -/
def State.Due (s : State τ) (k : ℕ) : Prop :=
  s.Answered k ∨ (∃ a, k ∈ s.moved a) ∨ k ∈ s.clearings.flatMap Clearing.uncalled

theorem due_step (h : s.Due k) (hs : Steps s l s') : s'.Due k := by
  rcases h with h | ⟨a, ha⟩ | h
  · exact .inl (answered_step h hs)
  · by_cases hl : ∀ a, l ≠ .move a ∧ l ≠ .count a
    · exact .inr (.inl ⟨a, by rw [moved_step hs hl]; exact ha⟩)
    · cases hs with
      | @move b j hb =>
        have hab : a ≠ b := by
          rintro rfl
          rw [State.moved, hb] at ha
          cases ha
        refine .inr (.inl ⟨a, ?_⟩)
        rw [State.moved_setCall, Function.update_of_ne hab]
        exact ha
      | @count b j queue hb =>
        by_cases hab : a = b
        · rw [hab, State.moved, hb] at ha
          exact .inr (.inr (by simpa [State.setCall, Clearing.uncalled] using .inr ha))
        · refine .inr (.inl ⟨a, ?_⟩)
          rw [State.moved_setCall, Function.update_of_ne hab]
          exact ha
      | _ => simp at hl
  · cases hs with
    | @fail i j ks hc =>
      obtain ⟨pre, post, heq, hset, -⟩ := getElem?_split hc
      by_cases hk : k = j
      · exact .inl (by simp [State.Answered, hk])
      · refine .inr (.inr ?_)
        rw [heq] at h
        simpa [hset, Clearing.uncalled, hk] using h
    | forget hc =>
      obtain ⟨pre, post, heq, hset, -⟩ := getElem?_split hc
      rw [heq] at h
      exact .inr (.inr (by simpa [hset, Clearing.uncalled] using h))
    | @notify i called hc =>
      obtain ⟨pre, post, heq, -, herase⟩ := getElem?_split hc
      have hnil : Clearing.uncalled ⟨[], called⟩ = [] := by cases called <;> rfl
      rw [heq] at h
      exact .inr (.inr (by simpa [State.notifyAll, herase, hnil] using h))
    | count _ => exact .inr (.inr (by rw [State.setCall, List.flatMap_append]; exact List.mem_append_left _ h))
    | clear _ _ =>
      refine .inr (.inr ?_)
      simp only [State.clearCallbacks_eq]
      split
      · exact h
      · rw [List.flatMap_append]
        exact List.mem_append_left _ h
    | send | sync | syncHandling | commit | commitThrows | emptied | empty | move | synced | check | park | spurious | get
    | write | arrive | serve | junk | receive | read | pop | callbackNone | callback | finish | lose | handle =>
      exact .inr (.inr h)

/-- A thread that has come out of `sync_commit` will be answered. -/
def DueInv (s : State τ) : Prop := ∀ a k, s.calls a = some ⟨k, .synced⟩ → s.Due k

theorem DueInv.fresh : DueInv (State.fresh : State τ) := by
  rintro _ _ ⟨⟩

theorem DueInv.step (h : DueInv s) (hp : PromiseInv s) (hs : Steps s l s') : DueInv s' := by
  intro a k hc
  refine due_step ?_ hs
  rcases call_step hs hc with ⟨⟨j, stage⟩, hd, rfl, hfrom, -⟩ | ⟨heq, -⟩
  · rcases hfrom rfl with rfl | ⟨hsync, -⟩
    · exact h a j hd
    · exact (hp.answered hsync (hp.number a _ hd)).imp_right .inl
  · cases heq

theorem DueInv.of_reach {ok : State τ → Label τ → Prop} (h : (system τ).Reach ok s) : DueInv s :=
  h.invariant (by rintro s rfl; exact .fresh) fun _ _ _ hr hi _ hn => hi.step (.of_reach hr) (next_cases hn)

/-! ## No thread is left behind -/

def Regular (s : State τ) (l : Label τ) : Prop := Good s l ∧ Prompt s l

def State.Moves (s : State τ) : Prop := ∃ l s', (l.Ongoing ∧ Regular s l) ∧ (system τ).next s l = some s'

theorem State.Moves.of_isSome (l : Label τ) (hi : l.Ongoing) (hr : Regular s l)
    (h : ((system τ).next s l).isSome = true) : s.Moves := by
  obtain ⟨s', hs⟩ := Option.isSome_iff_exists.mp h
  exact ⟨l, s', ⟨hi, hr⟩, hs⟩

theorem moves_of_ahead {c : Call} (hc : s.calls a = some c) (hpos : 0 < c.stage.ahead) : s.Moves := by
  rcases c with ⟨k, stage⟩
  cases stage with
  | sent =>
    refine .of_isSome (.sync a) ⟨trivial, by simp⟩ ⟨trivial, trivial⟩ ?_
    simp only [system, next, sync, hc]
    rfl
  | committing =>
    refine .of_isSome (.commit a) ⟨trivial, by simp⟩ ⟨trivial, trivial⟩ ?_
    simp only [system, next, commit, hc]
    split <;> rfl
  | throwing =>
    refine .of_isSome (.empty a) ⟨trivial, by simp⟩ ⟨trivial, trivial⟩ ?_
    simp only [system, next, empty, hc]
    rfl
  | moving =>
    refine .of_isSome (.move a) ⟨trivial, by simp⟩ ⟨trivial, trivial⟩ ?_
    simp only [system, next, move, hc]
    rfl
  | moved queue =>
    refine .of_isSome (.count a) ⟨trivial, by simp⟩ ⟨trivial, trivial⟩ ?_
    simp only [system, next, count, hc]
    rfl
  | waiting | parking | parked | synced => cases hpos

theorem moves_of_parking (hc : s.calls a = some ⟨k, .parking⟩) : s.Moves := by
  refine .of_isSome (.park a) ⟨trivial, by simp⟩ ⟨trivial, trivial⟩ ?_
  simp only [system, next, park, hc]
  rfl

theorem moves_of_waiting (hc : s.calls a = some ⟨k, .waiting⟩) (hm : s.mutex = none) : s.Moves := by
  refine .of_isSome (.check a) ⟨trivial, by simp⟩ ⟨trivial, trivial⟩ ?_
  simp only [system, next, check, hc, hm, if_true]
  split <;> rfl

theorem moves_of_synced (hc : s.calls a = some ⟨k, .synced⟩) (hk : s.Answered k) : s.Moves := by
  refine .of_isSome (.get a) ⟨trivial, by simp⟩ ⟨trivial, trivial⟩ ?_
  have hsome : (s.promises k).isSome = true := hk
  simp only [system, next, get, hc, hsome, if_true]
  rfl

theorem moves_of_clearing (hm : s.mutex = none) (hc : s.clearings ≠ []) : s.Moves := by
  obtain ⟨⟨queue, called⟩, cs, hcs⟩ := List.exists_cons_of_ne_nil hc
  have hget : s.clearings[0]? = some ⟨queue, called⟩ := by rw [hcs]; rfl
  cases queue with
  | nil =>
    refine .of_isSome (.notify 0) ⟨trivial, by simp⟩ ⟨trivial, hm⟩ ?_
    simp only [system, next, notify, hget]
    rfl
  | cons k ks =>
    cases called with
    | false =>
      refine .of_isSome (.fail 0) ⟨trivial, by simp⟩ ⟨trivial, trivial⟩ ?_
      simp only [system, next, fail, hget]
      rfl
    | true =>
      refine .of_isSome (.forget 0) ⟨trivial, by simp⟩ ⟨trivial, trivial⟩ ?_
      simp only [system, next, forget, hget]
      rfl

/-- The worker moves, unless it waits for bytes or has nothing more to do. -/
theorem moves_of_io (hm : s.mutex = none) (hio : s.io ≠ .reading ∧ s.io ≠ .stopped ∧ s.io ≠ .closed) : s.Moves := by
  cases h : s.io with
  | reading => exact absurd h hio.1
  | stopped => exact absurd h hio.2.1
  | closed => exact absurd h hio.2.2
  | delivering =>
    refine .of_isSome .pop ⟨trivial, by simp⟩ ⟨trivial, trivial⟩ ?_
    cases ha : s.builder.state.available <;> simp [system, next, pop, h, hm, ha]
  | calling o r =>
    refine .of_isSome .callback ⟨trivial, by simp⟩ ⟨trivial, trivial⟩ ?_
    cases o <;> simp [system, next, callback, h]
  | called => exact .of_isSome .finish ⟨trivial, by simp⟩ ⟨trivial, trivial⟩ (by simp [system, next, finish, h, hm])
  | lost => exact .of_isSome .handle ⟨trivial, by simp⟩ ⟨trivial, trivial⟩ (by simp [system, next, handle, h])
  | handling => exact .of_isSome .clear ⟨trivial, by simp⟩ ⟨trivial, trivial⟩ (by simp [system, next, clear, h, hm])

theorem moves_of_upstream (hout : s.Outstanding) (hio : s.io.connected = true) (hb : s.buffer = [])
    (hlt : s.served.length < s.sent.length) : s.Moves := by
  by_cases hw : s.writes = []
  · by_cases ht : s.toServer = []
    · -- all of the next command has arrived
      obtain ⟨pending, rest, hsent, hbytes, hrest⟩ := hout
      rw [hrest hio, hw, ht, hb] at hbytes
      cases pending with
      | nil => simp [hsent] at hlt
      | cons cmd pending =>
        simp only [List.flatten_nil, List.append_nil, List.flatMap_cons] at hbytes
        refine .of_isSome (.serve cmd .null) ⟨trivial, by simp⟩ ⟨trivial, trivial⟩ ?_
        have hpre : (buildCommand cmd).isPrefixOf s.arrived = true :=
          List.isPrefixOf_iff_prefix.mpr ⟨_, hbytes.symm⟩
        simp only [system, next, serve, hpre, if_true]
        rfl
    · have hpos := List.length_pos_of_ne_nil ht
      refine .of_isSome (.arrive s.toServer.length) ⟨trivial, by simp⟩ ⟨trivial, trivial⟩ ?_
      simp only [system, next, arrive, hpos, le_refl, and_self, if_true]
      rfl
  · obtain ⟨w, ws, hws⟩ := List.exists_cons_of_ne_nil hw
    refine .of_isSome (.write w.length) ⟨trivial, by simp⟩ ⟨fun v hv => ?_, trivial⟩ ?_
    · rw [hws] at hv
      cases hv
      rfl
    · simp only [system, next, write, hws, hio, le_refl, and_self, if_true]
      rfl

/-- **No thread is left behind**: while a thread is in a call, something can go on. -/
theorem not_stuck (hmt : MatchInv s) (hw : WakeInv s) (hdue : DueInv s) {c : Call} (hc : s.calls a = some c) :
    s.Moves := by
  by_contra hstuck
  have hm : s.mutex = none := by
    cases hm : s.mutex with
    | none => rfl
    | some b =>
      obtain ⟨k, hk⟩ := hw.owner b hm
      exact absurd (moves_of_parking hk) hstuck
  have hahead : ∀ n, 0 < n → ¬ s.Ahead n := by
    rintro n hn ⟨b, d, hd, hle⟩
    exact hstuck (moves_of_ahead hd (hn.trans_le hle))
  have hclear : s.clearings = [] := Classical.byContradiction fun h => hstuck (moves_of_clearing hm h)
  have hmoved : ∀ b, s.moved b = [] := by
    intro b
    by_contra hne
    cases hd : s.calls b with
    | none => simp [State.moved, hd, Call.queue] at hne
    | some d =>
      rcases d with ⟨k, stage⟩
      cases stage with
      | moved queue => exact hahead 1 Nat.one_pos ⟨b, _, hd, le_rfl⟩
      | _ => simp [State.moved, hd, Call.queue, Stage.queue] at hne
  -- no stage is left for the thread but the sleep
  have hparked : c.stage = .parked := by
    rcases c with ⟨k, stage⟩
    cases stage with
    | parked => rfl
    | parking => exact absurd (moves_of_parking hc) hstuck
    | waiting => exact absurd (moves_of_waiting hc hm) hstuck
    | synced =>
      refine absurd (moves_of_synced hc ?_) hstuck
      rcases hdue a k hc with hk | ⟨b, hb⟩ | hk
      · exact hk
      · rw [hmoved b] at hb
        cases hb
      · rw [hclear] at hk
        cases hk
    | sent | committing | throwing | moving | moved =>
      exact absurd (moves_of_ahead hc (by simp [Stage.ahead])) hstuck
  -- it is owed a notification, so there is a command in the queue
  have howed : s.Owed := hw.wake a c.number (.inr (by rw [hc, ← hparked]))
  have hns : ¬ s.Synced := howed.resolve_right (by simp [hclear, hmoved])
  have hio : s.io = .reading ∨ s.io = .stopped ∨ s.io = .closed := by
    by_contra h
    simp only [not_or] at h
    exact hstuck (moves_of_io hm h)
  have hrun : s.callbacksRunning = 0 := by
    rw [hmt.promises.running]
    rcases hio with h | h | h <;> simp [h, Io.running, State.uncleared, hclear]
  have hqueue : s.commands ≠ [] := fun h => hns ⟨hrun, h⟩
  rcases hio with h | h | h
  · obtain ⟨p, hdel⟩ := hmt.delivered (by rw [h]; rfl)
    have hcl : s.toClient = [] := by
      by_contra hne
      have hpos := List.length_pos_of_ne_nil hne
      exact hstuck (.of_isSome (.receive s.toClient.length) ⟨trivial, by simp⟩ ⟨trivial, trivial⟩
        (by simp [system, next, receive, h, hpos]))
    have hserved : ¬ s.served.length < s.sent.length := fun hlt => hstuck (moves_of_upstream hmt.outstanding
      (by rw [h]; rfl) (Classical.byContradiction fun hne =>
        hahead _ (by decide) (hw.buffered (by rw [h]; rfl) hne)) hlt)
    -- all that has been answered has reached its callback
    have hdrop : s.answered.drop p = [] := by
      have hrep := hdel.replies
      rw [hcl, hdel.used] at hrep
      have hav := hdel.reading h
      rw [hrep] at hav
      exact hav
    have hlen := List.length_eq_zero_iff.mpr hdrop
    rw [List.length_drop, hmt.answered] at hlen
    refine hqueue ?_
    rw [hdel.commands, show s.sent.length - p = 0 by omega]
    rfl
  · obtain ⟨p, hdel⟩ := hmt.delivered (by rw [h]; rfl)
    exact hdel.running h
  · exact hahead _ (by decide) (hw.queued h hqueue)

structure ProgressInv (s : State τ) : Prop where
  matching : MatchInv s
  wake : WakeInv s
  due : DueInv s

theorem ProgressInv.fresh : ProgressInv (State.fresh : State τ) where
  matching := .fresh
  wake := .fresh
  due := .fresh

theorem ProgressInv.step (h : ProgressInv s) (hok : Regular s l) (hs : Steps s l s') : ProgressInv s' :=
  ⟨h.matching.step hok.1 hs, h.wake.step hok.2 hs, h.due.step h.matching.promises hs⟩

/-- **Every call returns**: from any state of a run in which the network and the server behave and no
notification comes while a thread is on its way to sleep, and whatever the order of the steps from there, whether or
not the connection can still be lost, a state is reached in which no thread is in a call, if no command is sent and no
thread wakes without a notification. -/
theorem every_call_returns [Fintype τ] (h : (system τ).Reach Regular s) (loss : Prop) :
    (system τ).Inevitable (fun s l => l.Internal ∧ (l = .lose → loss) ∧ Regular s l) (fun s => ∀ a, s.calls a = none)
      s := by
  have hinv : ProgressInv s := h.invariant (by rintro s rfl; exact .fresh)
    fun _ _ _ _ hi ho hn => hi.step ho (next_cases hn)
  refine .of_measure State.measure (fun s l s' hi hok hn => ?_) (fun s hi hcall => ?_) hinv
  · exact ⟨measure_step hok.1 (next_cases hn), hi.step hok.2.2 (next_cases hn)⟩
  · obtain ⟨a, ha⟩ := not_forall.mp hcall
    obtain ⟨c, hc⟩ := Option.ne_none_iff_exists'.mp ha
    -- the step that is left is not the loss
    obtain ⟨l, s', ⟨hl, hok⟩, hn⟩ := not_stuck hi.matching hi.wake hi.due hc
    exact ⟨l, s', ⟨hl.1, fun h => absurd h hl.2, hok⟩, hn⟩

theorem regular_of_plain (s : State τ) (l : Label τ) (h : plain s l = true) : Regular s l := by
  refine ⟨good_of_plain s l h, ?_⟩
  cases l with
  | notify => cases h
  | _ => trivial

theorem every_call_returns_roundTrip : ∃ s : State Unit, s.calls () = some ⟨0, .parked⟩ ∧
    (system Unit).Inevitable (fun s l => l.Internal ∧ l ≠ .lose ∧ Regular s l) (fun s => ∀ a, s.calls a = none) s := by
  obtain ⟨s, hr, hs⟩ := (system Unit).exists_reach (roundTrip.take 3 ++ [.check (), .park ()])
    (fun s => decide (s.calls () = some ⟨0, .parked⟩)) regular_of_plain (s := State.fresh) rfl (by decide)
  exact ⟨s, of_decide_eq_true hs, every_call_returns hr False⟩

/-! ### Runs without loss -/

theorem clearings_step (hinv : PromiseInv s) (hio : s.io.connected = true) (h : s.clearings = []) (hs : Steps s l s') :
    s'.clearings = [] := by
  cases hs with
  | count hc => simp [hinv.thrown _ _ hc rfl] at hio
  | clear hlost _ => simp [hlost, Io.connected] at hio
  | fail hi => simp [h] at hi
  | forget hi => simp [h] at hi
  | notify hi => simp [h] at hi
  | _ => exact h

theorem WakeInv.of_calm (h : (system τ).Reach Calm s) : WakeInv s := by
  have hinv : WakeInv s ∧ s.clearings = [] := by
    refine h.invariant (I := fun s => WakeInv s ∧ s.clearings = []) ?_ fun s l s' hr hi ho hn => ?_
    · rintro s rfl
      exact ⟨.fresh, rfl⟩
    · have hs : Steps s l s' := next_cases hn
      have hprompt : Prompt s l := by
        cases hs with
        | notify hc => simp [hi.2] at hc
        | _ => trivial
      exact ⟨hi.1.step hprompt hs, clearings_step (.of_reach hr) (CalmInv.of_reach hr).connected hi.2 hs⟩
  exact hinv.1

/-! ### The missed notification -/

/-- The network and the server take no part in the step. -/
def Label.offline : Label τ → Bool
  | .write _ | .arrive _ | .serve _ _ | .junk _ => false
  | _ => true

def Io.isClosed : Io → Bool
  | .closed => true
  | _ => false

namespace State

/-- Nothing is left to do, but a thread sleeps. -/
structure Stranded (s : State Unit) : Prop where
  calls : s.calls () = some ⟨0, .parked⟩
  io : s.io.isClosed = true
  clearings : s.clearings = []
  arrived : s.arrived = []
  toServer : s.toServer = []

theorem Stranded.io_eq {s : State Unit} (h : s.Stranded) : s.io = .closed := by
  have hio := h.io
  cases hs : s.io with
  | closed => rfl
  | _ => rw [hs] at hio; cases hio

theorem Stranded.not_moves {s s' : State Unit} {l : Label Unit} (h : s.Stranded) (hi : l.Internal) : ¬ Steps s l s' := by
  intro hs
  cases hs with
  | send => exact hi
  | junk => exact hi
  | spurious => exact hi
  | @serve cmd _ _ ha =>
    rw [h.arrived] at ha
    exact prefixCode_buildCommand.ne_nil cmd (List.append_eq_nil_iff.mp ha.symm).1
  | arrive hpos hn =>
    rw [h.toServer] at hn
    exact absurd hn (Nat.not_le.mpr hpos)
  | sync hc _ | syncHandling hc _ | commit hc _ | commitThrows hc _ | emptied hc _ | empty hc _ | move hc | count hc
  | synced hc _ _ | check hc _ _ | park hc | get hc _ => simp [h.calls] at hc
  | fail hc => simp [h.clearings] at hc
  | forget hc => simp [h.clearings] at hc
  | notify hc => simp [h.clearings] at hc
  | write _ hio _ => simp [h.io_eq, Io.connected] at hio
  | receive hio _ _ => simp [h.io_eq] at hio
  | read hio _ => simp [h.io_eq] at hio
  | pop hio _ _ => simp [h.io_eq] at hio
  | callbackNone hio => simp [h.io_eq] at hio
  | callback hio => simp [h.io_eq] at hio
  | finish hio _ => simp [h.io_eq] at hio
  | lose hio => simp [h.io_eq] at hio
  | handle hio => simp [h.io_eq] at hio
  | clear hio _ => simp [h.io_eq] at hio

end State

/-- **A notification can be missed**: without the condition on the notifications a call need not return.  The
connection is lost while the thread is on its way to sleep, and the thread of `clear_callbacks` is faster. -/
theorem notification_missed : ∃ s : State Unit, (system Unit).Reach Good s ∧
    ¬ (system Unit).Inevitable (fun s l => l.Internal ∧ Good s l) (fun s => ∀ a, s.calls a = none) s := by
  have hok : ∀ (s : State Unit) (l : Label Unit), l.offline = true → Good s l := by
    intro s l h
    cases l with
    | write | serve | junk => cases h
    | _ => trivial
  obtain ⟨s, hr, hs⟩ := (system Unit).exists_reach
    [.send () [], .sync (), .commit (), .lose, .handle, .clear, .check (), .fail 0, .forget 0, .notify 0, .park ()]
    (fun s => decide (s.calls () = some ⟨0, .parked⟩) && s.io.isClosed && s.clearings.isEmpty &&
      s.arrived.isEmpty && s.toServer.isEmpty) hok (s := State.fresh) rfl (by decide)
  simp only [Bool.and_eq_true, decide_eq_true_eq, List.isEmpty_iff] at hs
  obtain ⟨⟨⟨⟨hcalls, hio⟩, hclear⟩, harr⟩, hserver⟩ := hs
  have hstranded : s.Stranded := ⟨hcalls, hio, hclear, harr, hserver⟩
  refine ⟨s, hr, fun h => ?_⟩
  cases h with
  | now h => simp [hcalls] at h
  | later hmove _ =>
    obtain ⟨l, s', ⟨hi, -⟩, hn⟩ := hmove
    exact hstranded.not_moves hi (next_cases hn)

end DistributedLock.Pipeline
