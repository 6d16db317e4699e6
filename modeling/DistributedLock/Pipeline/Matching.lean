import DistributedLock.Pipeline.Promises

/-!
# A reply goes to its own command

In every run, until and after the connection is lost,

* the server executes the commands in the order in which they were sent, each at most once, and nothing else, if the
  socket takes each request as a whole (`executed_in_order`);
* what a thread gets is the server's reply to its own command, or a failure after the loss of the connection, if the
  server also writes nothing but answers that the client can read (`reply_of_own_command`);

although nothing on the wire says which command a reply belongs to.

* `Outstanding`: the bytes on their way to the server are those of the commands that it has not executed, as
  long as the connection is up, and the beginning of them afterwards;
* `Delivered`: the bytes on their way back are the replies that the callbacks in the queue wait for, in their
  order.
-/

set_option linter.unusedSectionVars false

namespace DistributedLock.Pipeline

open Lib Resp

variable {τ : Type} [DecidableEq τ] {s s' : State τ} {l : Label τ} {a : τ} {k p : ℕ}

/-- The socket takes each request as a whole. -/
def Whole (s : State τ) : Label τ → Prop
  | .write n => ∀ w ∈ s.writes.head?, n = w.length
  | _ => True

/-- The network and the server behave: a request is written as a whole, the server writes replies that the client can
read, and nothing else. -/
def Good (s : State τ) : Label τ → Prop
  | .write n => ∀ w ∈ s.writes.head?, n = w.length
  | .serve _ reply => reply.Fits
  | .junk _ => False
  | _ => True

theorem Good.whole (h : Good s l) : Whole s l := by
  cases l with
  | write n => exact h
  | _ => trivial

/-! ## The way to the server -/

/-- The commands that the server has not executed, and the bytes that are on their way to it. -/
def State.Outstanding (s : State τ) : Prop :=
  ∃ pending rest, s.sent = s.served ++ pending ∧ s.arrived ++ s.toServer ++ rest = pending.flatMap buildCommand ∧
    (s.io.connected = true → rest = s.writes.flatten ++ s.buffer)

/-- **The way to the server.** -/
theorem outstanding_step (h : s.Outstanding) (hok : Whole s l) (hs : Steps s l s') : s'.Outstanding := by
  obtain ⟨pending, rest, hsent, hbytes, hrest⟩ := h
  cases hs with
  | @send a cmd _ _ =>
    refine ⟨pending ++ [cmd], rest ++ buildCommand cmd, ?_, ?_, fun hc => ?_⟩
    · simp only [hsent, List.append_assoc]
    · simp only [List.flatMap_append, ← hbytes, List.flatMap_cons, List.flatMap_nil, List.append_nil, List.append_assoc]
    · simp only [hrest hc, List.append_assoc]
  | commit _ hio =>
    refine ⟨pending, rest, hsent, hbytes, fun _ => ?_⟩
    simp [State.setCall, hrest hio]
  | commitThrows _ hio =>
    refine ⟨pending, rest, hsent, hbytes, fun hc => ?_⟩
    rw [State.setCall, hio] at hc
    cases hc
  | @write n w ws hw hio _ =>
    -- the request is taken as a whole
    obtain rfl : n = w.length := hok w (by rw [hw]; rfl)
    refine ⟨pending, ws.flatten ++ s.buffer, hsent, ?_, fun _ => rfl⟩
    rw [← hbytes, hrest hio, hw]
    simp
  | @arrive n _ _ =>
    refine ⟨pending, rest, hsent, ?_, hrest⟩
    rw [← hbytes]
    simp
  | @serve cmd reply rest' ha =>
    cases pending with
    | nil =>
      rw [ha] at hbytes
      have hnil := (List.append_eq_nil_iff.mp (List.append_eq_nil_iff.mp (List.append_eq_nil_iff.mp hbytes).1).1).1
      exact absurd hnil (prefixCode_buildCommand.ne_nil cmd)
    | cons cmd' pending =>
      -- the command at the front can be read in one way only
      rw [ha, List.flatMap_cons, List.append_assoc, List.append_assoc] at hbytes
      obtain ⟨rfl, htail⟩ := prefixCode_buildCommand.unique _ _ _ _ hbytes
      exact ⟨pending, rest, by simp [hsent], (List.append_assoc _ _ _).trans htail, hrest⟩
  | receive hio _ _ => exact ⟨pending, rest, hsent, hbytes, fun _ => hrest (by rw [hio]; rfl)⟩
  | read hio _ => exact ⟨pending, rest, hsent, hbytes, fun _ => hrest (by rw [hio]; rfl)⟩
  | pop hio _ _ => exact ⟨pending, rest, hsent, hbytes, fun _ => hrest (by rw [hio]; rfl)⟩
  | callbackNone hio => exact ⟨pending, rest, hsent, hbytes, fun _ => hrest (by rw [hio]; rfl)⟩
  | callback hio => exact ⟨pending, rest, hsent, hbytes, fun _ => hrest (by rw [hio]; rfl)⟩
  | finish hio _ => exact ⟨pending, rest, hsent, hbytes, fun _ => hrest (by rw [hio]; rfl)⟩
  | lose _ => exact ⟨pending, rest, hsent, hbytes, fun hc => by cases hc⟩
  | handle _ => exact ⟨pending, rest, hsent, hbytes, fun hc => by cases hc⟩
  | clear _ _ =>
    refine ⟨pending, rest, ?_, ?_, fun hc => by cases hc⟩
    · simpa using hsent
    · simpa [State.clearCallbacks_eq] using hbytes
  | sync | syncHandling | emptied | empty | move | count | synced | check | park | spurious | get | junk | fail | forget
  | notify => exact ⟨pending, rest, hsent, hbytes, hrest⟩

theorem State.Outstanding.served_sent (h : s.Outstanding) : s.served <+: s.sent := by
  obtain ⟨pending, -, hsent, -⟩ := h
  exact ⟨pending, hsent.symm⟩

/-! ## The way back -/

theorem getElem?_append_of_eq {α : Type*} {l : List α} {x : α} (h : l[k]? = some x) (l' : List α) :
    (l ++ l')[k]? = some x := by
  rw [List.getElem?_append_left (List.getElem?_eq_some_iff.mp h).1]
  exact h

/-- What the server has answered and what of it has reached the callbacks: the first `p` replies. -/
structure Delivered (s : State τ) (p : ℕ) : Prop where
  le : p ≤ s.answered.length
  commands : s.commands = List.range' p (s.sent.length - p)
  replies : ReplyBuilder.feed s.builder s.toClient = ⟨⟨none, s.answered.drop p⟩, [], none⟩
  /-- What has arrived has been used. -/
  used : ReplyBuilder.feed s.builder [] = s.builder
  calling : ∀ o r, s.io = .calling o r → ∃ j, o = some j ∧ s.answered[j]? = some r
  clearings : s.clearings = []
  reading : s.io = .reading → s.builder.state.available = []
  running : s.io ≠ .stopped

theorem Delivered.fault (h : Delivered s p) : s.builder.fault = none := by
  have hrep := h.replies
  cases hf : s.builder.fault with
  | none => rfl
  | some e =>
    rw [ReplyBuilder.feed, Consumer.receive, hf, if_pos (by rfl)] at hrep
    have hfault := congrArg Fed.fault hrep
    rw [Fed.append_fault, hf] at hfault
    cases hfault

/-- The reply that is taken next belongs to the command at the front of the queue. -/
theorem Delivered.available {r : Reply} {rs : List Reply} (h : Delivered s p)
    (ha : s.builder.state.available = r :: rs) :
    s.answered.drop p = r :: s.answered.drop (p + 1) ∧
      ReplyBuilder.feed { s.builder with state := { s.builder.state with available := rs } } s.toClient =
        ⟨⟨none, s.answered.drop (p + 1)⟩, [], none⟩ ∧
      ReplyBuilder.feed { s.builder with state := { s.builder.state with available := rs } } [] =
        { s.builder with state := { s.builder.state with available := rs } } := by
  have hbuilder : s.builder = ⟨⟨s.builder.state.builder, [r] ++ rs⟩, s.builder.rest, none⟩ := by
    rw [List.singleton_append, ← ha, ← h.fault]
  have hrep := h.replies
  rw [hbuilder, ReplyBuilder.feed_available, Fed.map_eq_mk] at hrep
  obtain ⟨t, ht, heq⟩ := hrep
  obtain ⟨b, rs'⟩ := t
  obtain ⟨rfl, hdrop⟩ := ReplyBuilder.mk.inj heq
  have htail : s.answered.drop (p + 1) = rs' := by
    rw [← List.tail_drop, ← hdrop]
    rfl
  refine ⟨by rw [htail, ← hdrop]; rfl, ?_, ?_⟩
  · show ReplyBuilder.feed ⟨⟨s.builder.state.builder, rs⟩, s.builder.rest, s.builder.fault⟩ s.toClient = _
    rw [htail, h.fault, ht]
  · have hused := h.used
    rw [hbuilder, ReplyBuilder.feed_available, Fed.map_eq_mk] at hused
    obtain ⟨⟨b, rs''⟩, hu, heq⟩ := hused
    obtain ⟨rfl, hrs⟩ := ReplyBuilder.mk.inj heq
    obtain rfl : rs'' = rs := List.append_cancel_left hrs
    show ReplyBuilder.feed ⟨⟨s.builder.state.builder, rs''⟩, s.builder.rest, s.builder.fault⟩ [] =
      ⟨⟨s.builder.state.builder, rs''⟩, s.builder.rest, s.builder.fault⟩
    rw [h.fault, hu]

/-- **The way back.** -/
theorem delivered_step (h : Delivered s p) (hinv : PromiseInv s) (hout : s.Outstanding)
    (hlen : s.answered.length = s.served.length) (hok : Good s l) (hs : Steps s l s') (hc : s'.io.connected = true) :
    ∃ p, Delivered s' p := by
  have hle : s.answered.length ≤ s.sent.length := by
    obtain ⟨pending, -, hsent, -⟩ := hout
    rw [hlen, hsent, List.length_append]
    exact Nat.le_add_right _ _
  cases hs with
  | send _ _ =>
    refine ⟨p, h.le, ?_, h.replies, h.used, h.calling, h.clearings, h.reading, h.running⟩
    have hp : p ≤ s.sent.length := h.le.trans hle
    simp only [h.commands, List.length_append, List.length_singleton]
    rw [Nat.sub_add_comm hp, List.range'_1_concat, Nat.add_sub_cancel' hp]
  | commitThrows _ hh => rw [State.setCall, hh] at hc; cases hc
  -- the connection is up, and no commit has failed
  | move ha => exact absurd hc (by simp [State.setCall, hinv.thrown _ _ ha rfl])
  | count ha => exact absurd hc (by simp [State.setCall, hinv.thrown _ _ ha rfl])
  | sync | syncHandling | commit | emptied | empty | synced | check | park | spurious | get | write | arrive =>
    exact ⟨p, h.le, h.commands, h.replies, h.used, h.calling, h.clearings, h.reading, h.running⟩
  | @serve cmd reply rest ha =>
    refine ⟨p, ?_, h.commands, ?_, h.used, fun o r hr => ?_, h.clearings, h.reading, h.running⟩
    · simp only [List.length_append]
      exact h.le.trans (Nat.le_add_right _ _)
    · have hchunks := ReplyBuilder.feed_chunks s.toClient [reply.encode] s.builder
      simp only [List.foldl_cons, List.foldl_nil, List.flatten_cons, List.flatten_nil, List.append_nil] at hchunks
      rw [← hchunks, h.replies, ReplyBuilder.feed_encode hok, List.drop_append_of_le_length h.le]
    · obtain ⟨j, rfl, hj⟩ := h.calling o r hr
      exact ⟨j, rfl, getElem?_append_of_eq hj _⟩
  | junk => exact absurd hok id
  | @receive n _ _ _ =>
    have hchunks := ReplyBuilder.feed_chunks (s.toClient.take n) [s.toClient.drop n] s.builder
    simp only [List.foldl_cons, List.foldl_nil, List.flatten_cons, List.flatten_nil, List.append_nil,
      List.take_append_drop] at hchunks
    rw [h.replies] at hchunks
    have hused := ReplyBuilder.feed_chunks (s.toClient.take n) [[]] s.builder
    simp only [List.foldl_cons, List.foldl_nil, List.flatten_cons, List.flatten_nil, List.append_nil] at hused
    -- a fault would stay
    have hf : (ReplyBuilder.feed s.builder (s.toClient.take n)).fault.isSome = false := by
      cases hf : (ReplyBuilder.feed s.builder (s.toClient.take n)).fault with
      | none => rfl
      | some e =>
        rw [ReplyBuilder.feed, Consumer.receive, hf, if_pos (by rfl)] at hchunks
        have hfault := congrArg Fed.fault hchunks
        rw [Fed.append_fault, hf] at hfault
        cases hfault
    refine ⟨p, h.le, h.commands, hchunks, hused, fun o r hr => ?_, h.clearings, fun hr => ?_, fun hr => ?_⟩
    all_goals
      simp only [hf, Bool.false_eq_true, if_false] at hr
      cases hr
  | read _ ha =>
    exact ⟨p, h.le, h.commands, h.replies, h.used, by rintro _ _ ⟨⟩, h.clearings, fun _ => ha, by rintro ⟨⟩⟩
  | @pop r rs _ ha _ =>
    obtain ⟨hdrop, hrep, hused⟩ := h.available ha
    have hget : s.answered[p]? = some r := by rw [← List.head?_drop, hdrop]; rfl
    have hlt : p < s.answered.length := (List.getElem?_eq_some_iff.mp hget).1
    have hcommands : s.commands = p :: List.range' (p + 1) (s.sent.length - (p + 1)) := by
      rw [h.commands, show s.sent.length - p = s.sent.length - (p + 1) + 1 by omega, List.range'_succ]
    refine ⟨p + 1, hlt, ?_, hrep, hused, fun o r' hr => ?_, h.clearings, by rintro ⟨⟩, by rintro ⟨⟩⟩
    · simp only [hcommands, List.tail_cons]
    · simp only [hcommands, List.head?_cons] at hr
      cases hr
      exact ⟨p, rfl, hget⟩
  | callbackNone _ => exact ⟨p, h.le, h.commands, h.replies, h.used, by rintro _ _ ⟨⟩, h.clearings, by rintro ⟨⟩, by rintro ⟨⟩⟩
  | callback _ => exact ⟨p, h.le, h.commands, h.replies, h.used, by rintro _ _ ⟨⟩, h.clearings, by rintro ⟨⟩, by rintro ⟨⟩⟩
  | finish _ _ => exact ⟨p, h.le, h.commands, h.replies, h.used, by rintro _ _ ⟨⟩, h.clearings, by rintro ⟨⟩, by rintro ⟨⟩⟩
  | lose _ => cases hc
  | handle _ => cases hc
  | clear _ _ => cases hc
  | fail hi => simp [h.clearings] at hi
  | forget hi => simp [h.clearings] at hi
  | notify hi => simp [h.clearings] at hi

/-! ## The replies -/

/-- The promises that are kept: by the reply to the command, or after the loss of the connection by a failure. -/
def State.Faithful (s : State τ) : Prop :=
  ∀ k r, s.promises k = some r → s.answered[k]? = some r ∨ (r = networkFailure ∧ s.io.connected = false)

theorem faithful_step (h : s.Faithful) (hdel : s.io.connected = true → ∃ p, Delivered s p) (hs : Steps s l s') :
    s'.Faithful := by
  -- the worker stays connected or not
  have hio : ∀ io : Io, io.connected = s.io.connected → State.Faithful { s with io := io } := by
    intro io heq k r hr
    exact (h k r hr).imp_right fun hf => ⟨hf.1, heq.trans hf.2⟩
  intro k r hr
  cases hs with
  | send | sync | syncHandling | commit | commitThrows | emptied | empty | move | count | synced | check | park | spurious
  | get | write | arrive | junk | forget | notify => exact h k r hr
  | serve _ => exact (h k r hr).imp_left fun hk => getElem?_append_of_eq hk _
  | receive hi _ _ =>
    refine (h k r hr).imp_right fun hf => ?_
    rw [hi] at hf
    cases hf.2
  | read hi _ => exact hio .reading (by rw [hi]; rfl) k r hr
  | pop hi _ _ => exact hio (.calling _ _) (by rw [hi]; rfl) k r hr
  | callbackNone hi => exact hio .called (by rw [hi]; rfl) k r hr
  | @callback j r' hi =>
    have hr : Function.update s.promises j (some r') k = some r := hr
    by_cases hk : k = j
    · -- the callback that was taken with this reply
      obtain ⟨p, hp⟩ := hdel (by rw [hi]; rfl)
      obtain ⟨i, hj, hget⟩ := hp.calling _ _ hi
      cases hj
      rw [hk, Function.update_self] at hr
      cases hr
      rw [hk]
      exact .inl hget
    · rw [Function.update_of_ne hk] at hr
      exact hio .called (by rw [hi]; rfl) k r hr
  | finish hi _ => exact hio .delivering (by rw [hi]; rfl) k r hr
  | lose _ => exact (h k r hr).imp_right fun hf => ⟨hf.1, rfl⟩
  | handle _ => exact (h k r hr).imp_right fun hf => ⟨hf.1, rfl⟩
  | clear _ _ =>
    have hr' : s.promises k = some r := by simpa using hr
    simpa [Io.connected] using (h k r hr').imp_right fun hf => hf.1
  | @fail i j ks hc =>
    have hr : Function.update s.promises j (some networkFailure) k = some r := hr
    by_cases hk : k = j
    · rw [hk, Function.update_self] at hr
      cases hr
      refine .inr ⟨rfl, ?_⟩
      -- while the connection is up no thread clears callbacks
      by_contra hcon
      obtain ⟨p, hp⟩ := hdel (by simpa using hcon)
      simp [hp.clearings] at hc
    · rw [Function.update_of_ne hk] at hr
      exact h k r hr

/-! ## The runs -/

structure MatchInv (s : State τ) : Prop where
  promises : PromiseInv s
  outstanding : s.Outstanding
  answered : s.answered.length = s.served.length
  delivered : s.io.connected = true → ∃ p, Delivered s p
  faithful : s.Faithful

theorem MatchInv.fresh : MatchInv (State.fresh : State τ) where
  promises := .fresh
  outstanding := ⟨[], [], rfl, rfl, fun _ => rfl⟩
  answered := rfl
  delivered _ := ⟨0, le_rfl, rfl, Slot.drain_nil (S := ReplyBuilder.replies) Builder.incremental_feed,
    Slot.drain_nil (S := ReplyBuilder.replies) Builder.incremental_feed, by rintro _ _ ⟨⟩, rfl, fun _ => rfl, by rintro ⟨⟩⟩
  faithful := by rintro _ _ ⟨⟩

theorem answered_length_step (h : s.answered.length = s.served.length) (hs : Steps s l s') :
    s'.answered.length = s'.served.length := by
  cases hs with
  | serve _ => simp [h]
  | clear _ _ => simpa using h
  | send | sync | syncHandling | commit | commitThrows | emptied | empty | move | count | synced | check | park | spurious
  | get | write | arrive | junk | receive | read | pop | callbackNone | callback | finish | lose | handle | fail | forget
  | notify => exact h

theorem MatchInv.step (h : MatchInv s) (hok : Good s l) (hs : Steps s l s') : MatchInv s' where
  promises := h.promises.step hs
  outstanding := outstanding_step h.outstanding hok.whole hs
  answered := answered_length_step h.answered hs
  delivered hc := by
    obtain ⟨p, hp⟩ := h.delivered (connected_of_step hs hc)
    exact delivered_step hp h.promises h.outstanding h.answered hok hs hc
  faithful := faithful_step h.faithful h.delivered hs

theorem MatchInv.of_reach {ok : State τ → Label τ → Prop} (hok : ∀ s l, ok s l → Good s l)
    (h : (system τ).Reach ok s) : MatchInv s :=
  h.invariant (by rintro s rfl; exact .fresh) fun _ _ _ _ hi ho hn => hi.step (hok _ _ ho) (next_cases hn)

/-- `Good`, as a test for runs in which no thread of `clear_callbacks` ends. -/
def plain (s : State τ) : Label τ → Bool
  | .write n => s.writes.head?.all fun w => n == w.length
  | .serve _ reply => decide reply.Fits
  | .junk _ | .notify _ => false
  | _ => true

theorem good_of_plain (s : State τ) (l : Label τ) (h : plain s l = true) : Good s l := by
  unfold plain at h
  split at h
  · intro w hw
    rw [hw] at h
    simpa using h
  · simpa [Good] using h
  · cases h
  · cases h
  · unfold Good
    split <;> simp_all

/-- **The commands are executed in the order in which they were sent**, each at most once and nothing else, also
when the connection is lost, and whatever is answered. -/
theorem executed_in_order (h : (system τ).Reach Whole s) : s.served <+: s.sent := by
  have hout : s.Outstanding := h.invariant (by rintro s rfl; exact ⟨[], [], rfl, rfl, fun _ => rfl⟩)
    fun _ _ _ _ hi ho hn => outstanding_step hi ho (next_cases hn)
  exact hout.served_sent

/-- Two threads, one of which commits for both, and whose replies come back in three pieces. -/
def twoTrips : List (Label Bool) :=
  [.send false ["A".toList], .send true ["B".toList], .sync false, .commit false, .write 22, .arrive 15,
    .serve ["A".toList] (.simpleString "1".toList), .arrive 7, .serve ["B".toList] (.simpleString "2".toList),
    .receive 3, .pop, .receive 3, .pop, .callback, .finish, .pop, .receive 2, .pop, .callback, .finish]

theorem executed_in_order_twoTrips : ∃ s : State Bool, s.served.length = 1 ∧ s.sent.length = 2 ∧
    s.served <+: s.sent := by
  obtain ⟨s, hr, hs⟩ := (system Bool).exists_reach (twoTrips.take 7)
    (fun s => decide (s.served.length = 1 ∧ s.sent.length = 2)) (fun s l h => (good_of_plain s l h).whole)
    (s := State.fresh) rfl (by decide)
  have hlen := of_decide_eq_true hs
  exact ⟨s, hlen.1, hlen.2, executed_in_order hr⟩

/-- **A reply goes to its own command**: what the promise of a command is kept with is what the server answered
to this command, or, once the connection is lost, a failure. -/
theorem reply_of_own_command (h : (system τ).Reach Good s) {r : Reply} (hp : s.promises k = some r) :
    (∃ cmd, s.sent[k]? = some cmd ∧ s.served[k]? = some cmd ∧ s.answered[k]? = some r) ∨
      (r = networkFailure ∧ s.io.connected = false) := by
  have hinv := MatchInv.of_reach (fun _ _ h => h) h
  refine (hinv.faithful k r hp).imp_left fun hget => ?_
  have hlt : k < s.served.length := by
    rw [← hinv.answered]
    exact (List.getElem?_eq_some_iff.mp hget).1
  obtain ⟨pending, hsent⟩ := hinv.outstanding.served_sent
  refine ⟨s.served[k], ?_, List.getElem?_eq_getElem hlt, hget⟩
  rw [← hsent, List.getElem?_append_left hlt, List.getElem?_eq_getElem hlt]

theorem reply_of_own_command_twoTrips : ∃ (s : State Bool) (r : Reply), (s.promises 0).isSome = true ∧
    s.promises 1 = some r ∧ ((∃ cmd, s.sent[1]? = some cmd ∧ s.served[1]? = some cmd ∧ s.answered[1]? = some r) ∨
      (r = networkFailure ∧ s.io.connected = false)) := by
  obtain ⟨s, hr, hs⟩ := (system Bool).exists_reach twoTrips (fun s => (s.promises 0).isSome && (s.promises 1).isSome)
    good_of_plain (s := State.fresh) rfl (by decide)
  simp only [Bool.and_eq_true, Option.isSome_iff_exists (x := s.promises 1)] at hs
  obtain ⟨h0, r, hp⟩ := hs
  exact ⟨s, r, h0, hp, reply_of_own_command hr hp⟩

/-! ## Runs without loss -/

/-- The connection is not lost. -/
def Calm (s : State τ) (l : Label τ) : Prop := Good s l ∧ l ≠ .lose

theorem connected_step (hc : s.io.connected = true) (hl : l ≠ .lose) (hs : Steps s l s') : s'.io.connected = true := by
  cases hs with
  | lose => exact absurd rfl hl
  | handle hio => simp [hio, Io.connected] at hc
  | clear hio _ => simp [hio, Io.connected] at hc
  | receive _ _ _ =>
    simp only
    split <;> rfl
  | read | pop | callbackNone | callback | finish => rfl
  | send | sync | syncHandling | commit | commitThrows | emptied | empty | move | count | synced | check | park | spurious
  | get | write | arrive | serve | junk | fail | forget | notify => exact hc

theorem call_kept (hinv : PromiseInv s) (hs : Steps s l s') (hio : s.io.connected = true) {c : Call}
    (hc : s.calls a = some c) :
    l = .get a ∨ ∃ d, s'.calls a = some d ∧ d.number = c.number := by
  -- another thread, or the same one with its command
  have hset : ∀ {t : State τ} {b : τ} {o : Option Call}, t.calls = s.calls →
      (a = b → ∃ d, o = some d ∧ d.number = c.number) → ∃ d, (t.setCall b o).calls a = some d ∧ d.number = c.number := by
    intro t b o ht ho
    simp only [State.setCall, ht]
    by_cases hab : a = b
    · obtain ⟨d, rfl, hd⟩ := ho hab
      exact ⟨d, by rw [hab, Function.update_self], hd⟩
    · exact ⟨c, by rw [Function.update_of_ne hab]; exact hc, rfl⟩
  have hsame : ∀ {t : State τ} {b : τ} {j : ℕ} {stage stage' : Stage}, t.calls = s.calls →
      s.calls b = some ⟨j, stage⟩ → ∃ d, (t.setCall b (some ⟨j, stage'⟩)).calls a = some d ∧ d.number = c.number := by
    intro t b j stage stage' ht hb
    refine hset ht ?_
    rintro rfl
    rw [hb] at hc
    cases hc
    exact ⟨_, rfl, rfl⟩
  have hwake : ∀ {t : State τ}, t.calls = s.calls → ∃ d, t.notifyAll.calls a = some d ∧ d.number = c.number := by
    intro t ht
    exact ⟨c.wake, by simp only [State.notifyAll, ht, hc, Option.map_some], c.wake_number⟩
  cases hs with
  | @send b cmd hb _ =>
    refine .inr (hset (t := s) (b := b) (o := some ⟨s.sent.length, .sent⟩) rfl ?_)
    rintro rfl
    rw [hb] at hc
    cases hc
  | sync hb _ | syncHandling hb _ | commit hb _ | commitThrows hb _ | empty hb _ | move hb | synced hb _ _ | check hb _ _
  | park hb | spurious hb => exact .inr (hsame rfl hb)
  | emptied hb _ => exact absurd hio (by simp [hinv.thrown _ _ hb rfl])
  | count hb => exact absurd hio (by simp [hinv.thrown _ _ hb rfl])
  | @get b j _ _ =>
    by_cases hab : b = a
    · exact .inl (by rw [hab])
    · exact .inr (hset rfl fun h => absurd h.symm hab)
  | finish _ _ => exact .inr (hwake rfl)
  | notify _ => exact .inr (hwake rfl)
  | clear _ _ => exact .inr ⟨c, by simpa using hc, rfl⟩
  | write | arrive | serve | junk | receive | read | pop | callbackNone | callback | lose | handle | fail | forget =>
    exact .inr ⟨c, hc, rfl⟩

/-- A step of the client library or of the network changes neither whose the commands are nor what has been
answered. -/
theorem inner_step (hinv : PromiseInv s) (hs : Steps s l s') (hio : s.io.connected = true)
    (hl : ∀ a, l ≠ .get a ∧ ∀ cmd, l ≠ .send a cmd) (hserve : ∀ cmd r, l ≠ .serve cmd r) :
    (∀ a, (s'.calls a).map Call.number = (s.calls a).map Call.number) ∧ s'.answered = s.answered := by
  refine ⟨fun a => ?_, ?_⟩
  · cases hc : s.calls a with
    | some c =>
      obtain ⟨d, hd, hnum⟩ := (call_kept hinv hs hio hc).resolve_left (hl a).1
      rw [hd, Option.map_some, hnum, Option.map_some]
    | none =>
      cases hc' : s'.calls a with
      | none => rfl
      | some c =>
        rcases call_step hs hc' with ⟨d, hd, -⟩ | ⟨-, -, cmd, rfl⟩
        · rw [hc] at hd
          cases hd
        · exact absurd rfl ((hl a).2 cmd)
  · cases hs with
    | serve _ => exact absurd rfl (hserve _ _)
    | clear _ _ => simp
    | send | sync | syncHandling | commit | commitThrows | emptied | empty | move | count | synced | check | park
    | spurious | get | write | arrive | junk | receive | read | pop | callbackNone | callback | finish | lose | handle
    | fail | forget | notify => rfl

structure CalmInv (s : State τ) : Prop where
  connected : s.io.connected = true
  distinct : ∀ a b c d, s.calls a = some c → s.calls b = some d → c.number = d.number → a = b
  /-- A command in the queue has a thread that waits for it. -/
  owned : ∀ k ∈ s.commands, ∃ a c, s.calls a = some c ∧ c.number = k

theorem CalmInv.fresh : CalmInv (State.fresh : State τ) where
  connected := rfl
  distinct _ _ _ _ h := by cases h
  owned _ h := by cases h

theorem commands_step (hs : Steps s l s') (hk : k ∈ s'.commands) :
    k ∈ s.commands ∨ k = s.sent.length ∧ ∃ a cmd, l = .send a cmd := by
  cases hs with
  | @send a cmd _ _ => exact (List.mem_append.mp hk).imp_right fun h => ⟨List.mem_singleton.mp h, a, cmd, rfl⟩
  | move _ => cases hk
  | clear _ _ => simp at hk
  | pop _ _ _ => exact .inl (List.mem_of_mem_tail hk)
  | sync | syncHandling | commit | commitThrows | emptied | empty | count | synced | check | park | spurious | get | write
  | arrive | serve | junk | receive | read | callbackNone | callback | finish | lose | handle | fail | forget | notify =>
    exact .inl hk

theorem served_step (hs : Steps s l s') : s.served <+: s'.served := by
  cases hs with
  | serve _ => exact List.prefix_append ..
  | clear _ _ => simp
  | send | sync | syncHandling | commit | commitThrows | emptied | empty | move | count | synced | check | park | spurious
  | get | write | arrive | junk | receive | read | pop | callbackNone | callback | finish | lose | handle | fail | forget
  | notify => exact List.prefix_rfl

theorem CalmInv.step (h : CalmInv s) (hm : MatchInv s) (hl : l ≠ .lose) (hs : Steps s l s') : CalmInv s' where
  connected := connected_step h.connected hl hs
  distinct a b c d hc hd heq := by
    rcases call_step hs hc with ⟨c', hc', hnc, -⟩ | ⟨rfl, -, cmd, rfl⟩
    · rcases call_step hs hd with ⟨d', hd', hnd, -⟩ | ⟨rfl, -, -⟩
      · exact h.distinct a b c' d' hc' hd' (by rw [hnc, hnd, heq])
      · have hlt := hm.promises.number a c' hc'
        rw [hnc, heq] at hlt
        exact absurd hlt (lt_irrefl _)
    · rcases call_step hs hd with ⟨d', hd', hnd, -⟩ | ⟨-, -, cmd', heq'⟩
      · have hlt := hm.promises.number b d' hd'
        rw [hnd, ← heq] at hlt
        exact absurd hlt (lt_irrefl _)
      · cases heq'
        rfl
  owned k hk := by
    rcases commands_step hs hk with hold | ⟨rfl, a, cmd, rfl⟩
    · obtain ⟨a, c, hc, rfl⟩ := h.owned k hold
      rcases call_kept hm.promises hs h.connected hc with rfl | hkept
      · -- a thread that returns has been answered
        have hnone := hm.promises.conserved.unanswered (k := c.number) (by simp [State.uncalled, hold])
        cases hs with
        | get hc' hp =>
          rw [hc] at hc'
          cases hc'
          rw [hnone] at hp
          cases hp
      · exact ⟨a, hkept⟩
    · cases hs with
      | send _ _ => exact ⟨a, _, Function.update_self .., rfl⟩

theorem CalmInv.of_reach (h : (system τ).Reach Calm s) : CalmInv s :=
  h.invariant (by rintro s rfl; exact .fresh) fun _ _ _ hr hi ho hn =>
    hi.step (MatchInv.of_reach (fun _ _ h => h.1) hr) ho.2 (next_cases hn)

theorem MatchInv.mem_commands (h : MatchInv s) (hcon : s.io.connected = true) (hle : s.served.length ≤ k)
    (hlt : k < s.sent.length) : k ∈ s.commands := by
  obtain ⟨p, hp⟩ := h.delivered hcon
  have hpk : p ≤ k := (hp.le.trans h.answered.le).trans hle
  rw [hp.commands, List.mem_range'_1]
  omega

theorem MatchInv.sent_le (h : MatchInv s) (hcon : s.io.connected = true) :
    s.sent.length ≤ s.served.length + s.commands.length := by
  obtain ⟨p, hp⟩ := h.delivered hcon
  have hle : p ≤ s.served.length := hp.le.trans h.answered.le
  rw [hp.commands, List.length_range']
  omega

end DistributedLock.Pipeline
