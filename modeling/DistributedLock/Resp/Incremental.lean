import DistributedLock.Resp.Builders
import Mathlib.Data.List.Basic

/-!
# The builders do not see the chunks

Each builder is an incremental consumer (`Builder.incremental_feed`): whatever part of a reply has arrived when
a builder is called, and whatever arrives later, it ends in the same state, with the same buffer and the same
exception.

* `findEnd_append`, `findEnd_line`: a line ends at its first end sequence;
* `Builder.incremental_feedN`: with any number of nested calls;
* `Builder.feedN_succ`: `Builder.feed` has enough of them, and calls itself for the elements of an array
  (`Builder.feed_array`).
-/

namespace DistributedLock.Resp

open Lib

/-! ## Lines -/

section Lines

variable {b line : Bytes} {e : ℕ}

theorem findEnd_cons (c : Char) (cs : Bytes) :
    findEnd (c :: cs) = if c = '\r' ∧ cs.head? = some '\n' then some 0 else (findEnd cs).map (· + 1) := rfl

theorem findEnd_append (h : findEnd b = some e) (d : Bytes) : findEnd (b ++ d) = some e := by
  induction b generalizing e with
  | nil => cases h
  | cons c cs ih =>
    rw [List.cons_append]
    rw [findEnd_cons] at h ⊢
    split at h
    · rename_i hc
      rw [if_pos ⟨hc.1, by rw [List.head?_append, hc.2]; rfl⟩]
      exact h
    · rename_i hc
      obtain ⟨k, hk, rfl⟩ := Option.map_eq_some_iff.mp h
      have hhead : (cs ++ d).head? = cs.head? := by
        cases cs with
        | nil => cases hk
        | cons c' cs => rfl
      rw [hhead, if_neg hc, ih hk]
      rfl

theorem findEnd_eq_some (h : findEnd b = some e) :
    e + 2 ≤ b.length ∧ b = b.take e ++ crlf ++ b.drop (e + 2) ∧ findEnd (b.take e) = none := by
  induction b generalizing e with
  | nil => cases h
  | cons c cs ih =>
    rw [findEnd_cons] at h
    split at h
    · rename_i hc
      obtain rfl : e = 0 := by simpa using h.symm
      obtain ⟨rfl, hhead⟩ := hc
      cases cs with
      | nil => cases hhead
      | cons c' cs =>
        obtain rfl : c' = '\n' := by simpa using hhead
        exact ⟨by simp, rfl, rfl⟩
    · rename_i hc
      obtain ⟨k, hk, rfl⟩ := Option.map_eq_some_iff.mp h
      obtain ⟨hlen, heq, hnone⟩ := ih hk
      refine ⟨by simp only [List.length_cons]; omega, ?_, ?_⟩
      · conv_lhs => rw [heq]
        simp
      · rw [List.take_succ_cons, findEnd_cons, hnone, if_neg]
        · rfl
        · -- the head of the line that is left is the head of what is left, unless the line ends here
          rintro ⟨hr, hhead⟩
          refine hc ⟨hr, ?_⟩
          cases k with
          | zero => cases hhead
          | succ k => simpa [List.head?_take] using hhead

theorem findEnd_le (h : findEnd b = some e) : e + 2 ≤ b.length := (findEnd_eq_some h).1

/-- A line without an end sequence ends where it is followed by one. -/
theorem findEnd_line (h : findEnd line = none) (d : Bytes) : findEnd (line ++ crlf ++ d) = some line.length := by
  induction line with
  | nil => rfl
  | cons c cs ih =>
    rw [findEnd_cons] at h
    split at h
    · cases h
    · rename_i hc
      have hcs : findEnd cs = none := by simpa using h
      rw [List.cons_append, List.cons_append, findEnd_cons, ih hcs, if_neg]
      · rfl
      · rintro ⟨hr, hhead⟩
        cases cs with
        | nil => simp [crlf] at hhead
        | cons c' cs => exact hc ⟨hr, by simpa using hhead⟩

@[simp] theorem take_line (line d : Bytes) : (line ++ crlf ++ d).take line.length = line := by simp

@[simp] theorem drop_line (line d : Bytes) : (line ++ crlf ++ d).drop (line.length + 2) = d := by simp [crlf]

end Lines

/-! ## Builders without elements -/

theorem SimpleStringBuilder.feed_suffix (b : SimpleStringBuilder) (buffer : Bytes) : (b.feed buffer).rest <:+ buffer := by
  unfold feed
  split
  · exact List.suffix_rfl
  · split
    · exact List.suffix_rfl
    · exact List.drop_suffix _ _

/-- The builder changes nothing until the line is complete. -/
theorem SimpleStringBuilder.feed_waits (b : SimpleStringBuilder) (buffer : Bytes) :
    (b.feed buffer = ⟨b, buffer, none⟩ ∧ b.ready = false) ∨
      ((b.feed buffer).state.ready = true ∧ ∀ d, b.feed (buffer ++ d) = (b.feed buffer).append d) := by
  unfold feed
  cases hr : b.ready with
  | true => exact .inr ⟨by simp [hr], fun d => by simp [Fed.append]⟩
  | false =>
    cases he : findEnd buffer with
    | none => exact .inl ⟨by simp, rfl⟩
    | some e =>
      have hle := findEnd_le he
      refine .inr ⟨by simp, fun d => ?_⟩
      simp only [findEnd_append he, Bool.false_eq_true, if_false, Fed.append]
      rw [List.take_append_of_le_length (by omega), List.drop_append_of_le_length (by omega)]

theorem SimpleStringBuilder.incremental : (⟨feed, ready⟩ : Consumer Char _ BuildError).Incremental :=
  .of_waits feed_suffix fun b buffer => (b.feed_waits buffer).imp id fun h => ⟨.inr h.1, h.2⟩

theorem ErrorBuilder.incremental : (⟨feed, ready⟩ : Consumer Char _ BuildError).Incremental := by
  refine .of_waits (fun b buffer => b.stringBuilder.feed_suffix buffer) fun b buffer => ?_
  rcases b.stringBuilder.feed_waits buffer with ⟨heq, hr⟩ | ⟨hr, hall⟩
  · exact .inl ⟨by simp [feed, heq, Fed.map, hr], hr⟩
  · refine .inr ⟨.inr ?_, fun d => ?_⟩
    · simp [ready, feed, hr]
    · simp only [feed, hall d, Fed.map_append]

namespace IntegerBuilder

theorem feed_suffix (b : IntegerBuilder) (buffer : Bytes) : (b.feed buffer).rest <:+ buffer := by
  unfold feed
  split
  · exact List.suffix_rfl
  · split
    · exact List.suffix_rfl
    · split
      · exact List.suffix_rfl
      · exact List.drop_suffix _ _

/-- The builder changes nothing until the line is complete. -/
theorem incremental : (⟨feed, ready⟩ : Consumer Char _ BuildError).Incremental := by
  refine .of_waits feed_suffix fun b buffer => ?_
  simp only [feed]
  cases hr : b.ready with
  | true => exact .inr ⟨.inr (by simp [hr]), fun d => by simp [Fed.append]⟩
  | false =>
    cases he : findEnd buffer with
    | none => exact .inl ⟨by simp, rfl⟩
    | some e =>
      have hle := findEnd_le he
      have htake : ∀ d, (buffer ++ d).take e = buffer.take e := fun d => List.take_append_of_le_length (by omega)
      simp only [findEnd_append he, Bool.false_eq_true, if_false, htake]
      rcases b.digits 0 (buffer.take e) with ⟨b', _ | fault⟩
      · refine .inr ⟨.inr rfl, fun d => ?_⟩
        simp only [Fed.append]
        rw [List.drop_append_of_le_length (by omega)]
      · exact .inr ⟨.inl rfl, fun d => rfl⟩

end IntegerBuilder

/-! ## Bulk strings -/

namespace BulkStringBuilder

/-- `fetch_size` -/
def head : Consumer Char BulkStringBuilder BuildError :=
  Consumer.within ⟨IntegerBuilder.feed, IntegerBuilder.ready⟩ intBuilder setSize fun b => b.ready || b.intBuilder.ready

/-- `fetch_str`, unless the string is null. -/
def body : Consumer Char BulkStringBuilder BuildError where
  feed b buffer := if b.ready then ⟨b, buffer, none⟩ else b.fetchStr buffer
  ready := ready

theorem setSize_intBuilder (b : BulkStringBuilder) (i : IntegerBuilder) : (b.setSize i).intBuilder = i := by
  unfold setSize
  split
  · split <;> rfl
  · rfl

theorem setSize_of_reading (b : BulkStringBuilder) {i : IntegerBuilder} (h : i.ready = false) :
    b.setSize i = { b with intBuilder := i } := by
  simp [setSize, h]

theorem setSize_ready (b : BulkStringBuilder) (i : IntegerBuilder) (h : b.ready = false) :
    ((b.setSize i).ready || (b.setSize i).intBuilder.ready) = i.ready := by
  rw [setSize_intBuilder]
  cases hi : i.ready with
  | true => simp
  | false => simp [setSize_of_reading b hi, h]

theorem incremental_head : head.Incremental := by
  refine IntegerBuilder.incremental.within (fun b i _ => setSize_intBuilder b i) (fun b i i' hi => ?_) fun b i hb => ?_
  · rw [setSize_of_reading b hi]
    unfold setSize
    rfl
  · simp only [Bool.or_eq_false_iff] at hb
    rw [setSize_ready b i hb.1]

theorem fetchStr_intBuilder (b : BulkStringBuilder) (buffer : Bytes) :
    (b.fetchStr buffer).state.intBuilder = b.intBuilder := by
  simp only [fetchStr]
  split
  · split <;> rfl
  · split
    · rfl
    · split <;> rfl

theorem fetchStr_suffix (b : BulkStringBuilder) (buffer : Bytes) : (b.fetchStr buffer).rest <:+ buffer := by
  simp only [fetchStr]
  split
  · split <;> exact List.suffix_rfl
  · split
    · exact List.suffix_rfl
    · split
      · exact List.suffix_rfl
      · exact List.drop_suffix _ _

/-- Nothing happens until the string and its end sequence are complete. -/
theorem fetchStr_waits (b : BulkStringBuilder) (buffer : Bytes) :
    b.fetchStr buffer = ⟨b, buffer, none⟩ ∨
      (((b.fetchStr buffer).fault.isSome = true ∨ (b.fetchStr buffer).state.ready = true) ∧
        ∀ d, b.fetchStr (buffer ++ d) = (b.fetchStr buffer).append d) := by
  by_cases hneg : b.strSize < 0
  · by_cases hlen : buffer.length < u64 (b.strSize + 2)
    · exact .inl (by simp only [fetchStr, if_pos hneg, if_pos hlen])
    · have hstop : ∀ d : Bytes, b.fetchStr (buffer ++ d) = ⟨b, buffer ++ d, some .undefined⟩ := by
        intro d
        rw [fetchStr, if_pos hneg, if_neg (by rw [List.length_append]; omega)]
      have hstop' := hstop []
      rw [List.append_nil] at hstop'
      rw [hstop']
      exact .inr ⟨.inl rfl, hstop⟩
  · by_cases hlen : buffer.length < b.strSize.toNat + 2
    · exact .inl (by simp only [fetchStr, if_neg hneg, if_pos hlen])
    · right
      have hlen' : ∀ d : Bytes, ¬ (buffer ++ d).length < b.strSize.toNat + 2 := by
        intro d
        rw [List.length_append]
        omega
      have hend : ∀ d, ((buffer ++ d).drop b.strSize.toNat).take 2 = (buffer.drop b.strSize.toNat).take 2 := by
        intro d
        rw [List.drop_append_of_le_length (by omega), List.take_append_of_le_length (by rw [List.length_drop]; omega)]
      simp only [fetchStr, if_neg hneg, if_neg hlen, if_neg (hlen' _), hend]
      split
      · exact ⟨.inl rfl, fun _ => rfl⟩
      · refine ⟨.inr rfl, fun d => ?_⟩
        rw [List.take_append_of_le_length (by omega), List.drop_append_of_le_length (by omega)]
        rfl

theorem incremental_body : body.Incremental := by
  refine .of_waits (fun b buffer => ?_) fun b buffer => ?_
  · simp only [body]
    split
    · exact List.suffix_rfl
    · exact fetchStr_suffix b buffer
  · simp only [body]
    cases hr : b.ready with
    | true => exact .inr ⟨.inr (by simp [hr]), fun d => by simp [Fed.append]⟩
    | false => exact (fetchStr_waits b buffer).imp (fun h => ⟨h, rfl⟩) id

theorem feed_eq (b : BulkStringBuilder) (buffer : Bytes) : b.feed buffer = (head.seq body).feed b buffer := by
  cases hr : b.ready with
  | true => simp [feed, Consumer.seq, head, Consumer.within, body, hr]
  | false =>
    have hhead : head.feed b buffer = b.fetchSize buffer := by
      simp only [head, Consumer.within, hr, Bool.false_or, fetchSize]
    have hready : (b.fetchSize buffer).fault = none → head.ready (b.fetchSize buffer).state =
        (b.fetchSize buffer).state.intBuilder.ready := by
      intro _
      simp only [head, Consumer.within, fetchSize]
      split
      · rename_i hi
        simp [hi]
      · simp only [Fed.map_state]
        rw [setSize_ready _ _ hr, setSize_intBuilder]
    simp only [feed, hr, Bool.false_eq_true, if_false, Consumer.seq, hhead]
    cases hf : (b.fetchSize buffer).fault with
    | some e => simp
    | none =>
      rw [hready hf]
      cases hi : (b.fetchSize buffer).state.intBuilder.ready with
      | false => simp
      | true =>
        cases hr' : (b.fetchSize buffer).state.ready with
        | true => simp [body, hr', ← hf]
        | false => simp [body, hr']

theorem incremental : (⟨feed, ready⟩ : Consumer Char _ BuildError).Incremental := by
  have hseq : (⟨feed, ready⟩ : Consumer Char _ BuildError) = head.seq body := by
    have hfeed : feed = (head.seq body).feed := funext fun b => funext fun buffer => feed_eq b buffer
    rw [hfeed]
    rfl
  rw [hseq]
  refine incremental_head.seq incremental_body (fun b buffer h => ?_) (fun b buffer h => ?_) fun b h => ?_
  · exact if_pos h
  · simp only [head, Consumer.within, body, Bool.or_eq_true] at h ⊢
    cases hr : b.ready with
    | true => simp [hr]
    | false => simp [fetchStr_intBuilder, h.resolve_left (by simp [hr])]
  · have hr : b.ready = true := h
    simp [head, Consumer.within, hr]

end BulkStringBuilder

/-! ## Arrays -/

namespace ArrayBuilder

variable {β : Type} {create : Char → Except BuildError β} {item : Consumer Char β BuildError} {getReply : β → Reply}

/-- `fetch_array_size` -/
def head : Consumer Char (ArrayBuilder β) BuildError :=
  Consumer.within ⟨IntegerBuilder.feed, IntegerBuilder.ready⟩ intBuilder setSize fun b => b.ready || b.intBuilder.ready

theorem setSize_intBuilder (b : ArrayBuilder β) (i : IntegerBuilder) : (b.setSize i).intBuilder = i := by
  simp only [setSize]
  split
  · split
    · rfl
    · split <;> rfl
  · rfl

theorem setSize_of_reading (b : ArrayBuilder β) {i : IntegerBuilder} (h : i.ready = false) :
    b.setSize i = { b with intBuilder := i } := by
  simp [setSize, h]

theorem setSize_current (b : ArrayBuilder β) (i : IntegerBuilder) : (b.setSize i).current = b.current := by
  simp only [setSize]
  split
  · split
    · rfl
    · split <;> rfl
  · rfl

theorem fetchArraySize_current (b : ArrayBuilder β) (buffer : Bytes) :
    (b.fetchArraySize buffer).state.current = b.current := by
  unfold fetchArraySize
  split
  · rfl
  · exact setSize_current b _

theorem fetchArraySize_suffix (b : ArrayBuilder β) (buffer : Bytes) : (b.fetchArraySize buffer).rest <:+ buffer := by
  unfold fetchArraySize
  split
  · exact List.suffix_rfl
  · exact b.intBuilder.feed_suffix buffer

theorem setSize_ready (b : ArrayBuilder β) (i : IntegerBuilder) (h : b.ready = false) :
    ((b.setSize i).ready || (b.setSize i).intBuilder.ready) = i.ready := by
  rw [setSize_intBuilder]
  cases hi : i.ready with
  | true => simp
  | false => simp [setSize_of_reading b hi, h]

theorem incremental_head : (head (β := β)).Incremental := by
  refine IntegerBuilder.incremental.within (fun b i _ => setSize_intBuilder b i) (fun b i i' hi => ?_) fun b i hb => ?_
  · rw [setSize_of_reading b hi]
    unfold setSize
    rfl
  · simp only [Bool.or_eq_false_iff] at hb
    rw [setSize_ready b i hb.1]

theorem drain_intBuilder (h : item.Incremental) (b : ArrayBuilder β) (buffer : Bytes) :
    ((rows create item getReply).drain b buffer).state.intBuilder = b.intBuilder := by
  have hafter : ∀ (t : ArrayBuilder β) (r : Built β),
      ((rows create item getReply).after t r).state.intBuilder = t.intBuilder := by
    intro t r
    simp only [Slot.after, Fed.map_state]
    split <;> rfl
  have hrow : ∀ (t : ArrayBuilder β) (b : Bytes),
      ((rows create item getReply).row t b).state.intBuilder = t.intBuilder := by
    intro t b
    unfold Slot.row
    split
    · exact hafter _ _
    · rfl
    · split
      · rfl
      · exact hafter _ _
  exact Slot.drain_induction (S := rows create item getReply) h (P := fun t _ r => r.state.intBuilder = t.intBuilder)
    (fun _ _ _ => rfl) (fun t b _ _ _ => hrow t b) (fun t b _ _ _ _ ih => ih.trans (hrow t b)) b buffer

theorem feed_eq (h : item.Incremental) (b : ArrayBuilder β) (buffer : Bytes) :
    b.feed create item getReply buffer = (head.seq (rows create item getReply).consumer).feed b buffer := by
  cases hr : b.ready with
  | true =>
    simp [feed, Consumer.seq, head, Consumer.within, hr, Slot.drain_of_done (S := rows create item getReply) h hr]
  | false =>
    have hhead : head.feed b buffer = b.fetchArraySize buffer := by
      simp only [head, Consumer.within, hr, Bool.false_or, fetchArraySize]
    have hready : head.ready (b.fetchArraySize buffer).state = (b.fetchArraySize buffer).state.intBuilder.ready := by
      simp only [head, Consumer.within, fetchArraySize]
      split
      · rename_i hi
        simp [hi]
      · simp only [Fed.map_state]
        rw [setSize_ready _ _ hr, setSize_intBuilder]
    simp only [feed, hr, Bool.false_eq_true, if_false, Consumer.seq, hhead, hready, Slot.consumer_feed]

theorem incremental (h : item.Incremental) :
    (⟨feed create item getReply, ready⟩ : Consumer Char _ BuildError).Incremental := by
  have hseq : (⟨feed create item getReply, ready⟩ : Consumer Char _ BuildError) =
      head.seq (rows create item getReply).consumer := by
    have hfeed : feed create item getReply = (head.seq (rows create item getReply).consumer).feed :=
      funext fun b => funext fun buffer => feed_eq h b buffer
    rw [hfeed]
    rfl
  rw [hseq]
  refine incremental_head.seq (Slot.incremental_drain h) (fun b buffer hr => if_pos hr) (fun b buffer hr => ?_) fun b hr => ?_
  · simp only [head, Consumer.within, Bool.or_eq_true] at hr ⊢
    simp only [Slot.consumer_feed, drain_intBuilder h]
    rcases hr with hr | hr
    · rw [Slot.drain_of_done (S := rows create item getReply) h hr]
      exact .inl hr
    · exact .inr hr
  · have hr' : b.ready = true := hr
    simp [head, Consumer.within, hr']

end ArrayBuilder

/-! ## Any builder -/

namespace Builder

theorem incremental_feedN (n : ℕ) : (⟨feedN n, replyReady⟩ : Consumer Char Builder BuildError).Incremental := by
  induction n with
  | zero =>
    refine .of_waits (fun b buffer => List.suffix_rfl) fun b buffer => ?_
    cases hr : b.replyReady with
    | false => exact .inl ⟨rfl, hr⟩
    | true => exact .inr ⟨.inr hr, fun _ => rfl⟩
  | succ n ih =>
    refine .of_kinds fun b => ?_
    cases b with
    | simpleString b => exact ⟨_, _, .simpleString, b, rfl, SimpleStringBuilder.incremental, fun _ _ => rfl, fun _ => rfl⟩
    | error b => exact ⟨_, _, .error, b, rfl, ErrorBuilder.incremental, fun _ _ => rfl, fun _ => rfl⟩
    | integer b => exact ⟨_, _, .integer, b, rfl, IntegerBuilder.incremental, fun _ _ => rfl, fun _ => rfl⟩
    | bulkString b => exact ⟨_, _, .bulkString, b, rfl, BulkStringBuilder.incremental, fun _ _ => rfl, fun _ => rfl⟩
    | array b => exact ⟨_, _, .array, b, rfl, ArrayBuilder.incremental ih, fun _ _ => rfl, fun _ => rfl⟩

theorem create_cases {id : Char} {b : Builder} (h : createBuilder id = .ok b) :
    (id = '+' ∧ b = simpleString {}) ∨ (id = '-' ∧ b = error {}) ∨ (id = ':' ∧ b = integer {}) ∨
      (id = '$' ∧ b = bulkString {}) ∨ (id = '*' ∧ b = array {}) := by
  unfold createBuilder at h
  split at h
  · rename_i hid; cases h; exact .inl ⟨hid, rfl⟩
  · split at h
    · rename_i hid; cases h; exact .inr (.inl ⟨hid, rfl⟩)
    · split at h
      · rename_i hid; cases h; exact .inr (.inr (.inl ⟨hid, rfl⟩))
      · split at h
        · rename_i hid; cases h; exact .inr (.inr (.inr (.inl ⟨hid, rfl⟩)))
        · split at h
          · rename_i hid; cases h; exact .inr (.inr (.inr (.inr ⟨hid, rfl⟩)))
          · cases h

theorem depth_of_create {id : Char} {b : Builder} (h : createBuilder id = .ok b) : b.depth ≤ 1 := by
  rcases create_cases h with ⟨-, rfl⟩ | ⟨-, rfl⟩ | ⟨-, rfl⟩ | ⟨-, rfl⟩ | ⟨-, rfl⟩ <;> exact le_rfl

theorem depth_array (b : ArrayBuilder Builder) :
    (array b).depth = (match b.current with | some c => c.depth | none => 0) + 1 := by
  rcases b with ⟨i, size, _ | c, ready, reply⟩ <;> rfl

theorem feedN_succ {n : ℕ} {b : Builder} {buffer : Bytes} (h : b.depth + buffer.length ≤ n) :
    feedN (n + 1) b buffer = feedN n b buffer := by
  induction n generalizing b buffer with
  | zero =>
    have hpos : 0 < b.depth := by
      unfold depth
      split <;> omega
    omega
  | succ n ih =>
    cases b with
    | simpleString b | error b | integer b | bulkString b => rfl
    | array b =>
      rw [depth_array] at h
      have hcur := b.fetchArraySize_current buffer
      have hrest := (b.fetchArraySize_suffix buffer).length_le
      have hrows := Slot.drain_withItem (S := ArrayBuilder.rows createBuilder ⟨feedN n, replyReady⟩ getReply)
        (t := (b.fetchArraySize buffer).state) (b := (b.fetchArraySize buffer).rest) (n := n)
        (incremental_feedN n) (incremental_feedN (n + 1)) (fun s b hs => ih hs) rfl
        (fun c s hc => depth_of_create hc) (by omega) (fun s hs => by
          have hs' : b.current = some s := hcur.symm.trans hs
          simp only [hs'] at h
          omega)
      have hfeed : b.feed createBuilder ⟨feedN (n + 1), replyReady⟩ getReply buffer =
          b.feed createBuilder ⟨feedN n, replyReady⟩ getReply buffer := by
        simp only [ArrayBuilder.feed]
        split
        · rfl
        · split
          · rfl
          · exact hrows
      exact congrArg (Fed.map array) hfeed

theorem feedN_eq {n : ℕ} {b : Builder} {buffer : Bytes} (h : b.depth + buffer.length ≤ n) :
    feedN n b buffer = b.feed buffer := by
  obtain ⟨k, rfl⟩ := Nat.exists_eq_add_of_le h
  induction k with
  | zero => rfl
  | succ k ih => rw [← Nat.add_assoc, feedN_succ (Nat.le_add_right _ _), ih (Nat.le_add_right _ _)]

/-- **The chunks do not matter to a builder.** -/
theorem incremental_feed : consumer.Incremental := by
  refine ⟨fun b buffer => (incremental_feedN _).suffix b buffer, fun b buffer d hset => ?_, fun b buffer d hset => ?_⟩
  · have hn : b.depth + buffer.length ≤ b.depth + (buffer ++ d).length := by
      rw [List.length_append]
      omega
    have h := (incremental_feedN (b.depth + (buffer ++ d).length)).settled b buffer d
    simp only [feedN_eq hn] at h
    exact h hset
  · -- enough nested calls for the call now and for the one later
    let n := b.depth + (buffer ++ d).length + ((b.feed buffer).state.depth + ((b.feed buffer).rest ++ d).length)
    have hn : b.depth + buffer.length ≤ n := by
      simp only [n, List.length_append]
      omega
    have h := (incremental_feedN n).waiting b buffer d
    simp only [feedN_eq hn] at h
    rw [feedN_eq (Nat.le_add_right _ _), feedN_eq (Nat.le_add_left _ _)] at h
    exact h hset

theorem feed_simpleString (b : SimpleStringBuilder) (buffer : Bytes) :
    (simpleString b).feed buffer = (b.feed buffer).map simpleString := by
  rw [← feedN_eq (Nat.le_succ _)]
  rfl

theorem feed_error (b : ErrorBuilder) (buffer : Bytes) : (error b).feed buffer = (b.feed buffer).map error := by
  rw [← feedN_eq (Nat.le_succ _)]
  rfl

theorem feed_integer (b : IntegerBuilder) (buffer : Bytes) : (integer b).feed buffer = (b.feed buffer).map integer := by
  rw [← feedN_eq (Nat.le_succ _)]
  rfl

theorem feed_bulkString (b : BulkStringBuilder) (buffer : Bytes) :
    (bulkString b).feed buffer = (b.feed buffer).map bulkString := by
  rw [← feedN_eq (Nat.le_succ _)]
  rfl

/-- **The recursion of the source**: the builder of an array feeds the builders of its elements. -/
theorem feed_array (b : ArrayBuilder Builder) (buffer : Bytes) :
    (array b).feed buffer = (b.feed createBuilder consumer getReply buffer).map array := by
  let n := (array b).depth + buffer.length
  rw [← feedN_eq (Nat.le_succ n), feedN]
  refine congrArg _ ?_
  have hcur := b.fetchArraySize_current buffer
  have hrest := (b.fetchArraySize_suffix buffer).length_le
  have hrows := Slot.drain_withItem (S := ArrayBuilder.rows createBuilder ⟨feedN n, replyReady⟩ getReply)
    (t := (b.fetchArraySize buffer).state) (b := (b.fetchArraySize buffer).rest) (n := n)
    (incremental_feedN n) incremental_feed (fun s b hs => (feedN_eq hs).symm) rfl
    (fun c s hc => depth_of_create hc) (by simp only [n]; omega) (fun s hs => by
      have hs' : b.current = some s := hcur.symm.trans hs
      simp only [n, depth_array, hs']
      omega)
  simp only [ArrayBuilder.feed]
  split
  · rfl
  · split
    · rfl
    · exact hrows.symm

end Builder

/-! ## The replies of a connection -/

namespace ReplyBuilder

theorem incremental_replies : replies.consumer.Incremental := Slot.incremental_drain Builder.incremental_feed

/-- **The replies of a connection do not depend on the chunks they arrive in.** -/
theorem feed_chunks (chunk : Bytes) (chunks : List Bytes) (r : Built ReplyBuilder) :
    (chunk :: chunks).foldl feed r = feed r (chunk :: chunks).flatten :=
  incremental_replies.foldl_receive (fun _ => rfl) chunk chunks r

theorem feed_available (b : Option Builder) (rs rs' : List Reply) (rest data : Bytes) :
    feed ⟨⟨b, rs ++ rs'⟩, rest, none⟩ data =
      (feed ⟨⟨b, rs'⟩, rest, none⟩ data).map fun t => { t with available := rs ++ t.available } :=
  Slot.drain_map (S := replies) (fun t => { t with available := rs ++ t.available }) (fun _ => rfl) (fun _ => rfl)
    (fun _ _ => rfl) (fun t s => by simp [replies]) ⟨b, rs'⟩ (rest ++ data)

end ReplyBuilder

end DistributedLock.Resp
