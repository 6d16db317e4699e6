import DistributedLock.Resp.Incremental
import Mathlib.Tactic.Linarith

/-!
# The format of the replies

The grammar of what the builders accept: `Item r w` says that they read `w` as a reply with the content `r`,
`Items rs w` that they read `w` as a sequence of replies.  It is not that of RESP.  A number may have leading zeros, no
digits at all or nothing but its sign, the size of a bulk string counts modulo `2 ^ 32`, and every negative size of an
array stands for null; but `-2 ^ 63` is no number, and a bulk string of `2 ^ 31 - 2` bytes or more no string.

* `Item.reads`, `Items.drain`: an item is read, and nothing behind it;
* `Builder.item_of_create`: what has been read is an item;
* `ReplyBuilder.replies_exact`: **what the builder makes available is the longest sequence of items at the front of
  the bytes**, whatever the bytes are (the connection hands over nothing of what came in one read with a fault);
* `ReplyBuilder.feed_items_iff`: all bytes are taken without a fault exactly if they are a sequence of items;
* `Items.unique`: bytes are one sequence of items at most.
-/

namespace DistributedLock.Resp

open Lib

/-! ## The grammar -/

/-- The text of a number, as the builders accept it: digits, also none, behind at most one minus sign. -/
inductive Numeral : Bytes → ℤ → Prop
  | pos {ds : Bytes} : (∀ c ∈ ds, c.isDigit = true) → Nat.ofDigitChars 10 ds 0 < 2 ^ 63 →
      Numeral ds (Nat.ofDigitChars 10 ds 0)
  | neg {ds : Bytes} : (∀ c ∈ ds, c.isDigit = true) → Nat.ofDigitChars 10 ds 0 < 2 ^ 63 →
      Numeral ('-' :: ds) (-(Nat.ofDigitChars 10 ds 0 : ℕ))

mutual

/-- The builders accept `w` as a reply with the content `r`. -/
inductive Item : Reply → Bytes → Prop
  | simpleString {s : Bytes} : findEnd s = none → Item (.simpleString s) ('+' :: (s ++ crlf))
  | error {s : Bytes} : findEnd s = none → Item (.error s) ('-' :: (s ++ crlf))
  | integer {t : Bytes} {n : ℤ} : Numeral t n → Item (.integer n) (':' :: (t ++ crlf))
  | bulkString {t : Bytes} {n : ℤ} {s : Bytes} : Numeral t n → i32 n = s.length → s.length + 2 < 2 ^ 31 →
      Item (.bulkString s) ('$' :: (t ++ crlf ++ (s ++ crlf)))
  | nullString {t : Bytes} {n : ℤ} : Numeral t n → i32 n = -1 → Item .null ('$' :: (t ++ crlf))
  | array {t : Bytes} {rs : List Reply} {w : Bytes} : Numeral t rs.length → Items rs w →
      Item (.array rs) ('*' :: (t ++ crlf ++ w))
  | nullArray {t : Bytes} {n : ℤ} : Numeral t n → n < 0 → Item .null ('*' :: (t ++ crlf))

/-- The builders accept `w` as a sequence of replies with the contents `rs`. -/
inductive Items : List Reply → Bytes → Prop
  | nil : Items [] []
  | cons {r : Reply} {rs : List Reply} {v w : Bytes} : Item r v → Items rs w → Items (r :: rs) (v ++ w)

end

theorem Item.ne_nil {r : Reply} {w : Bytes} (h : Item r w) : w ≠ [] := by
  cases h <;> exact List.cons_ne_nil _ _

theorem Items.append {rs rs' : List Reply} {w w' : Bytes} (h : Items rs w) (h' : Items rs' w') :
    Items (rs ++ rs') (w ++ w') := by
  induction rs generalizing w with
  | nil =>
    cases h
    exact h'
  | cons r rs ih =>
    cases h with
    | cons hr hrs =>
      rw [List.append_assoc]
      exact .cons hr (ih hrs)

/-! ## Numbers -/

namespace IntegerBuilder

variable {b : IntegerBuilder} {k : ℕ}

theorem le_ofDigitChars (cs : Bytes) (k : ℕ) : k ≤ Nat.ofDigitChars 10 cs k := by
  rw [Nat.ofDigitChars_eq_ofDigitChars_zero]
  have hpow : 1 ≤ 10 ^ cs.length := Nat.one_le_pow _ _ (by decide)
  nlinarith

theorem digits_iff (cs : Bytes) {i : ℕ} (hi : 0 < i ∨ cs.head? ≠ some '-') (hk : b.nbr = k) (hlt : k < 2 ^ 63)
    {b' : IntegerBuilder} :
    b.digits i cs = (b', none) ↔ (∀ c ∈ cs, c.isDigit = true) ∧ Nat.ofDigitChars 10 cs k < 2 ^ 63 ∧
      b' = { b with nbr := (Nat.ofDigitChars 10 cs k : ℕ) } := by
  induction cs generalizing b i k with
  | nil =>
    simp only [digits, Prod.mk.injEq, and_true, List.not_mem_nil, false_implies, implies_true, true_and,
      Nat.ofDigitChars_nil, hlt, ← hk]
    exact eq_comm
  | cons c cs ih =>
    have hsign : ¬ (i = 0 ∧ b.negativeMultiplicator = 1 ∧ c = '-') := by
      rintro ⟨rfl, -, rfl⟩
      simp at hi
    rw [digits, if_neg hsign, hk, Nat.ofDigitChars_cons]
    cases hc : c.isDigit with
    | false => simp [hc]
    | true =>
      have hnext : (10 * (k : ℤ) + (c.toNat - '0'.toNat : ℕ)) = ((10 * k + (c.toNat - '0'.toNat) : ℕ) : ℤ) := by
        push_cast
        rfl
      have hrange : InInt64 (10 * (k : ℤ)) ∧ InInt64 (10 * (k : ℤ) + (c.toNat - '0'.toNat : ℕ)) ↔
          10 * k + (c.toNat - '0'.toNat) < 2 ^ 63 := by
        unfold InInt64
        omega
      have hle := le_ofDigitChars cs (10 * k + (c.toNat - '0'.toNat))
      rw [if_neg (by simp)]
      by_cases hin : 10 * k + (c.toNat - '0'.toNat) < 2 ^ 63
      · rw [if_pos (hrange.mpr hin), ih (.inl (Nat.succ_pos i)) hnext hin]
        simp [hc]
      · rw [if_neg (mt hrange.mp hin)]
        constructor
        · intro h
          cases h
        · rintro ⟨-, hlt', -⟩
          exact absurd (Nat.lt_of_le_of_lt hle hlt') hin

/-- **What a line is for the builder**: the text of a number. -/
theorem digits_line (t : Bytes) (n : ℤ) :
    (∃ b', digits {} 0 t = (b', none) ∧ b'.getInteger = n) ↔ Numeral t n := by
  constructor
  · rintro ⟨b', hb', rfl⟩
    by_cases hhead : t.head? = some '-'
    · obtain ⟨ds, rfl⟩ : ∃ ds, t = '-' :: ds := by
        cases t with
        | nil => cases hhead
        | cons c ds => exact ⟨ds, by rw [Option.some.inj hhead]⟩
      rw [digits, if_pos ⟨rfl, rfl, rfl⟩, digits_iff (k := 0) ds (.inl Nat.one_pos) rfl (by norm_num)] at hb'
      obtain ⟨hds, hlt, rfl⟩ := hb'
      simpa [getInteger] using Numeral.neg hds hlt
    · rw [digits_iff (k := 0) t (.inr hhead) rfl (by norm_num)] at hb'
      obtain ⟨hds, hlt, rfl⟩ := hb'
      simpa [getInteger] using Numeral.pos hds hlt
  · rintro (⟨hds, hlt⟩ | ⟨hds, hlt⟩)
    · have hhead : t.head? ≠ some '-' := by
        intro h
        have hd := hds '-' (List.mem_of_head? h)
        simp at hd
      exact ⟨_, (digits_iff (k := 0) t (.inr hhead) rfl (by norm_num)).mpr ⟨hds, hlt, rfl⟩, by simp [getInteger]⟩
    · rename_i ds
      refine ⟨{ negativeMultiplicator := -1, nbr := (Nat.ofDigitChars 10 ds 0 : ℕ) }, ?_, ?_⟩
      · rw [digits, if_pos ⟨rfl, rfl, rfl⟩, digits_iff (k := 0) ds (.inl Nat.one_pos) rfl (by norm_num)]
        exact ⟨hds, hlt, rfl⟩
      · simp [getInteger]

theorem findEnd_digits {ds : Bytes} (hds : ∀ c ∈ ds, c.isDigit = true) : findEnd ds = none := by
  induction ds with
  | nil => rfl
  | cons c cs ih =>
    rw [findEnd_cons, ih fun x hx => hds x (List.mem_cons_of_mem _ hx), if_neg]
    · rfl
    · rintro ⟨rfl, -⟩
      have hd := hds '\r' List.mem_cons_self
      simp at hd

theorem findEnd_numeral {t : Bytes} {n : ℤ} (h : Numeral t n) : findEnd t = none := by
  cases h with
  | pos hds _ => exact findEnd_digits hds
  | neg hds _ =>
    rw [findEnd_cons, findEnd_digits hds]
    rfl

/-- **A number is read.** -/
theorem feed_numeral {t : Bytes} {n : ℤ} (h : Numeral t n) (d : Bytes) :
    ∃ b', feed {} (t ++ crlf ++ d) = ⟨b', d, none⟩ ∧ b'.ready = true ∧ b'.getInteger = n ∧ b'.reply = .integer n := by
  obtain ⟨b', hb', rfl⟩ := (digits_line t n).mpr h
  refine ⟨{ b' with ready := true, reply := .integer b'.getInteger }, ?_, rfl, rfl, rfl⟩
  simp only [feed, Bool.false_eq_true, if_false, findEnd_line (findEnd_numeral h) d, take_line, hb', drop_line]

/-- **What has been read is a number.** -/
theorem numeral_of_feed {buffer rest : Bytes} {b' : IntegerBuilder} (h : feed {} buffer = ⟨b', rest, none⟩)
    (hr : b'.ready = true) :
    ∃ t, Numeral t b'.getInteger ∧ buffer = t ++ crlf ++ rest ∧ b'.reply = .integer b'.getInteger := by
  unfold feed at h
  simp only [Bool.false_eq_true, if_false] at h
  cases he : findEnd buffer with
  | none =>
    simp only [he, Fed.mk.injEq] at h
    rw [← h.1] at hr
    cases hr
  | some e =>
    rcases hdig : digits {} 0 (buffer.take e) with ⟨b, _ | fault⟩
    · simp only [he, hdig] at h
      cases h
      exact ⟨buffer.take e, (digits_line _ _).mp ⟨b, hdig, rfl⟩, (findEnd_eq_some he).2.1, rfl⟩
    · simp [he, hdig] at h

end IntegerBuilder

/-! ## Strings -/

namespace SimpleStringBuilder

theorem feed_line {line : Bytes} (h : findEnd line = none) (d : Bytes) :
    feed {} (line ++ crlf ++ d) = ⟨⟨line, true, .simpleString line⟩, d, none⟩ := by
  simp only [feed, Bool.false_eq_true, if_false, findEnd_line h d, take_line, drop_line]

theorem line_of_feed {buffer rest : Bytes} {b' : SimpleStringBuilder} (h : feed {} buffer = ⟨b', rest, none⟩)
    (hr : b'.ready = true) :
    ∃ line, findEnd line = none ∧ buffer = line ++ crlf ++ rest ∧ b' = ⟨line, true, .simpleString line⟩ := by
  unfold feed at h
  simp only [Bool.false_eq_true, if_false] at h
  cases he : findEnd buffer with
  | none =>
    simp only [he, Fed.mk.injEq] at h
    rw [← h.1] at hr
    cases hr
  | some e =>
    simp only [he] at h
    cases h
    exact ⟨buffer.take e, (findEnd_eq_some he).2.2, (findEnd_eq_some he).2.1, rfl⟩

end SimpleStringBuilder

namespace BulkStringBuilder

open IntegerBuilder (feed_numeral numeral_of_feed)

theorem endFault_eq_none_iff {size : ℕ} {ending : Bytes} (h : ending.length = 2) :
    endFault size ending = none ↔ ending = crlf ∧ size + 2 < 2 ^ 31 := by
  obtain ⟨c, c', rfl⟩ := List.length_eq_two.mp h
  have hends : [c, c'] = crlf ↔ c = '\r' ∧ c' = '\n' := by simp [crlf]
  simp only [endFault, List.getElem?_cons_zero, List.getElem?_cons_succ, ne_eq, Option.some.injEq, hends]
  by_cases hsize : size + 2 < 2 ^ 31
  · rw [if_neg (show ¬ 2 ^ 31 ≤ size + 1 by omega), if_neg (show ¬ 2 ^ 31 ≤ size + 2 by omega)]
    split_ifs <;> simp_all
  · rw [if_pos (show 2 ^ 31 ≤ size + 2 by omega)]
    split_ifs <;> simp only [hsize, and_false]

/-- **A string is read**, once its size has been. -/
theorem fetchStr_string (i : IntegerBuilder) {s : Bytes} (hs : s.length + 2 < 2 ^ 31) (d : Bytes) :
    fetchStr { intBuilder := i, strSize := s.length } (s ++ crlf ++ d) =
      ⟨buildReply { intBuilder := i, strSize := s.length, str := s }, d, none⟩ := by
  have hneg : ¬ ((s.length : ℤ) < 0) := by omega
  have hlen : ¬ (s ++ crlf ++ d).length < s.length + 2 := by simp [crlf]
  have hend : ((s ++ crlf ++ d).drop s.length).take 2 = crlf := by simp [crlf]
  have hfault : endFault s.length crlf = none := (endFault_eq_none_iff rfl).mpr ⟨rfl, hs⟩
  simp only [fetchStr, if_neg hneg, Int.toNat_natCast, if_neg hlen, hend, hfault, take_line, drop_line]

/-- **What has been read is a string** of the size that was read. -/
theorem string_of_fetchStr {i : IntegerBuilder} {n : ℤ} {buffer rest : Bytes} {b' : BulkStringBuilder}
    (h : fetchStr { intBuilder := i, strSize := n } buffer = ⟨b', rest, none⟩) (hr : b'.ready = true) :
    ∃ s : Bytes, n = s.length ∧ s.length + 2 < 2 ^ 31 ∧ buffer = s ++ crlf ++ rest ∧ b'.reply = .bulkString s := by
  simp only [fetchStr] at h
  split at h
  · split at h <;> cases h
    cases hr
  · split at h
    · cases h
      cases hr
    · split at h
      · cases h
      · rename_i hlen hfault
        cases h
        obtain ⟨hend, hsize⟩ := (endFault_eq_none_iff (by rw [List.length_take, List.length_drop]; omega)).mp hfault
        have hstr : (buffer.take n.toNat).length = n.toNat := by rw [List.length_take]; omega
        refine ⟨buffer.take n.toNat, by rw [hstr]; omega, by rw [hstr]; exact hsize, ?_, rfl⟩
        rw [← hend, List.append_assoc, ← List.drop_drop, List.take_append_drop, List.take_append_drop]

theorem feed_of_fetchSize {buffer rest : Bytes} {i : IntegerBuilder} (hi : IntegerBuilder.feed {} buffer = ⟨i, rest, none⟩)
    (hr : i.ready = true) : feed {} buffer =
      if i32 i.getInteger = -1 then ⟨setSize {} i, rest, none⟩
      else fetchStr { intBuilder := i, strSize := i32 i.getInteger } rest := by
  have hfetch : fetchSize {} buffer = ⟨setSize {} i, rest, none⟩ := by
    simp only [fetchSize, Bool.false_eq_true, if_false, hi]
    rfl
  simp only [feed, Bool.false_eq_true, if_false, hfetch, Option.isSome_none, setSize_intBuilder, hr, Bool.not_true,
    Bool.false_or]
  by_cases hnull : i32 i.getInteger = -1
  · simp [setSize, hr, hnull, buildReply]
  · simp [setSize, hr, hnull]

theorem feed_string {t : Bytes} {n : ℤ} {s : Bytes} (h : Numeral t n) (hn : i32 n = s.length)
    (hs : s.length + 2 < 2 ^ 31) (d : Bytes) :
    ∃ b, feed {} (t ++ crlf ++ (s ++ crlf) ++ d) = ⟨b, d, none⟩ ∧ b.ready = true ∧ b.reply = .bulkString s := by
  obtain ⟨i, hi, hr, rfl, -⟩ := feed_numeral h (s ++ crlf ++ d)
  rw [List.append_assoc, feed_of_fetchSize hi hr, if_neg (by omega), hn, fetchStr_string _ hs]
  exact ⟨_, rfl, rfl, rfl⟩

theorem feed_null {t : Bytes} {n : ℤ} (h : Numeral t n) (hn : i32 n = -1) (d : Bytes) :
    ∃ b, feed {} (t ++ crlf ++ d) = ⟨b, d, none⟩ ∧ b.ready = true ∧ b.reply = .null := by
  obtain ⟨i, hi, hr, rfl, -⟩ := feed_numeral h d
  rw [feed_of_fetchSize hi hr, if_pos hn]
  exact ⟨_, rfl, by simp [setSize, hr, hn, buildReply], by simp [setSize, hr, hn, buildReply]⟩

/-- **What has been read is a string or null.** -/
theorem item_of_feed {buffer rest : Bytes} {b' : BulkStringBuilder} (h : feed {} buffer = ⟨b', rest, none⟩)
    (hr : b'.ready = true) : ∃ w, buffer = w ++ rest ∧ Item b'.reply ('$' :: w) := by
  rcases hi : IntegerBuilder.feed {} buffer with ⟨i, rest', fault⟩
  have hfetch : fetchSize {} buffer = ⟨setSize {} i, rest', fault⟩ := by
    simp only [fetchSize, Bool.false_eq_true, if_false, hi]
    rfl
  -- the size has been read, or the builder would not be ready
  obtain ⟨rfl, hir⟩ : fault = none ∧ i.ready = true := by
    simp only [feed, Bool.false_eq_true, if_false, hfetch, setSize_intBuilder] at h
    cases fault with
    | some e => simp at h
    | none =>
      refine ⟨rfl, ?_⟩
      cases hir : i.ready with
      | true => rfl
      | false =>
        simp only [hir, setSize_of_reading _ hir, Option.isSome_none, Bool.not_false, Bool.or_true, Bool.true_or, if_true,
          Fed.mk.injEq] at h
        rw [← h.1] at hr
        cases hr
  obtain ⟨t, hn, hsplit, -⟩ := numeral_of_feed hi hir
  rw [feed_of_fetchSize hi hir] at h
  split at h
  · rename_i hnull
    cases h
    refine ⟨_, hsplit, ?_⟩
    simpa [setSize, hir, hnull, buildReply] using Item.nullString hn hnull
  · obtain ⟨s, hs, hsize, hsplit', hreply⟩ := string_of_fetchStr h hr
    rw [hreply]
    exact ⟨_, by rw [hsplit, hsplit', ← List.append_assoc], .bulkString hn hs hsize⟩

end BulkStringBuilder

/-! ## Arrays and replies -/

/-- The builder reads `w`, and nothing behind it, as a reply with the content `r`. -/
def Builder.Reads (b : Builder) (w : Bytes) (r : Reply) : Prop :=
  ∀ d, ∃ b', b.feed (w ++ d) = ⟨b', d, none⟩ ∧ b'.replyReady = true ∧ b'.getReply = r

namespace ArrayBuilder

abbrev elements : Slot Char Builder (ArrayBuilder Builder) BuildError :=
  rows createBuilder Builder.consumer Builder.getReply

theorem feed_of_fetchArraySize {buffer rest : Bytes} {i : IntegerBuilder}
    (hi : IntegerBuilder.feed {} buffer = ⟨i, rest, none⟩) (hr : i.ready = true) :
    feed createBuilder Builder.consumer Builder.getReply {} buffer = elements.drain (setSize {} i) rest := by
  have hfetch : fetchArraySize (β := Builder) {} buffer = ⟨setSize {} i, rest, none⟩ := by
    simp only [fetchArraySize, Bool.false_eq_true, if_false, hi]
    rfl
  simp only [feed, Bool.false_eq_true, if_false, hfetch, Option.isSome_none, setSize_intBuilder, hr, Bool.not_true,
    Bool.false_or]

theorem drain_element {b : ArrayBuilder Builder} {c : Char} {w d : Bytes} {e : Builder} {r : Reply}
    (hcur : b.current = none) (hr : b.ready = false) (hc : createBuilder c = .ok e) (he : e.Reads w r) :
    elements.drain b (c :: w ++ d) = elements.drain (b.addRow r) d := by
  obtain ⟨e', hfeed, hready, rfl⟩ := he d
  exact Slot.drain_item (S := elements) Builder.incremental_feed hcur hr hc hfeed hready

/-- An array without elements, or before its first one. -/
theorem setSize_nat {i : IntegerBuilder} {n : ℕ} (hr : i.ready = true) (hn : i.getInteger = n) (hlt : n < 2 ^ 63) :
    setSize {} i = ({ intBuilder := i, arraySize := n, ready := n == 0 } : ArrayBuilder Builder) := by
  have hu : u64 (n : ℤ) = n := by
    unfold u64
    omega
  have hneg : ¬ ((n : ℤ) < 0) := by omega
  simp only [setSize, hr, if_true, hn, if_neg hneg, hu]
  split
  · rename_i h0
    simp [Int.natCast_eq_zero.mp h0]
  · rename_i h0
    have h0' : (n == 0) = false := by simpa using h0
    rw [h0']

end ArrayBuilder

theorem Numeral.lt {t : Bytes} {n : ℤ} (h : Numeral t n) : n < 2 ^ 63 := by
  cases h <;> omega

open ArrayBuilder (elements) in
mutual

/-- **A reply is read**, and nothing behind it. -/
theorem Item.reads {r : Reply} {w : Bytes} : Item r w →
    ∃ c w' b, w = c :: w' ∧ createBuilder c = .ok b ∧ b.Reads w' r
  | .simpleString (s := s) hs => by
    refine ⟨_, _, _, rfl, rfl, fun d => ?_⟩
    rw [Builder.feed_simpleString, SimpleStringBuilder.feed_line hs d]
    exact ⟨_, rfl, rfl, rfl⟩
  | .error (s := s) hs => by
    refine ⟨_, _, _, rfl, rfl, fun d => ?_⟩
    rw [Builder.feed_error, ErrorBuilder.feed, SimpleStringBuilder.feed_line hs d]
    exact ⟨_, rfl, rfl, rfl⟩
  | .integer hn => by
    refine ⟨_, _, _, rfl, rfl, fun d => ?_⟩
    obtain ⟨b, hb, hr, -, hreply⟩ := IntegerBuilder.feed_numeral hn d
    rw [Builder.feed_integer, hb]
    exact ⟨_, rfl, hr, hreply⟩
  | .bulkString hn hs hsize => by
    refine ⟨_, _, _, rfl, rfl, fun d => ?_⟩
    obtain ⟨b, hb, hr, hreply⟩ := BulkStringBuilder.feed_string hn hs hsize d
    rw [Builder.feed_bulkString, hb]
    exact ⟨_, rfl, hr, hreply⟩
  | .nullString hn hs => by
    refine ⟨_, _, _, rfl, rfl, fun d => ?_⟩
    obtain ⟨b, hb, hr, hreply⟩ := BulkStringBuilder.feed_null hn hs d
    rw [Builder.feed_bulkString, hb]
    exact ⟨_, rfl, hr, hreply⟩
  | @Item.array _ rs w hn hrs => by
    refine ⟨_, _, _, rfl, rfl, fun d => ?_⟩
    obtain ⟨i, hi, hr, hint, -⟩ := IntegerBuilder.feed_numeral hn (w ++ d)
    have hlt : rs.length < 2 ^ 63 := by exact_mod_cast hn.lt
    obtain ⟨b, hb, hready, hreply⟩ := Items.drain hrs
      ({ intBuilder := i, arraySize := rs.length, ready := rs.length == 0 } : ArrayBuilder Builder) [] d rfl rfl
      (by simp) (by simp)
    rw [Builder.feed_array, List.append_assoc, ArrayBuilder.feed_of_fetchArraySize hi hr,
      ArrayBuilder.setSize_nat hr hint hlt, hb]
    exact ⟨_, rfl, hready, hreply⟩
  | .nullArray hn hneg => by
    refine ⟨_, _, _, rfl, rfl, fun d => ?_⟩
    obtain ⟨i, hi, hr, rfl, -⟩ := IntegerBuilder.feed_numeral hn d
    rw [Builder.feed_array, ArrayBuilder.feed_of_fetchArraySize hi hr,
      Slot.drain_of_done (S := elements) Builder.incremental_feed (by simp [elements, ArrayBuilder.rows, ArrayBuilder.setSize, hr, hneg])]
    exact ⟨_, rfl, by simp [Builder.replyReady, ArrayBuilder.setSize, hr, hneg],
      by simp [Builder.getReply, ArrayBuilder.setSize, hr, hneg]⟩

/-- **The elements of an array are read**, and nothing behind them. -/
theorem Items.drain {rs : List Reply} {w : Bytes} : Items rs w → ∀ (b : ArrayBuilder Builder) (acc : List Reply)
    (d : Bytes), b.current = none → b.reply = .array acc → b.arraySize = acc.length + rs.length →
    (b.ready = true ↔ rs = []) →
    ∃ b', elements.drain b (w ++ d) = ⟨b', d, none⟩ ∧ b'.ready = true ∧ b'.reply = .array (acc ++ rs)
  | .nil, b, acc, d, _, hreply, _, hready => by
    refine ⟨b, ?_, hready.mpr rfl, by simpa using hreply⟩
    exact Slot.drain_of_done (S := elements) Builder.incremental_feed (hready.mpr rfl)
  | @Items.cons r rs _ w hr hrs, b, acc, d, hcur, hreply, hsize, hready => by
    obtain ⟨c, v, e, rfl, hc, he⟩ := Item.reads hr
    have hnot : b.ready = false := by simpa using hready
    obtain ⟨b', hb', hready', hreply'⟩ := Items.drain hrs (b.addRow r) (acc ++ [r]) d rfl
      (by simp [ArrayBuilder.addRow, hreply, Reply.push])
      (by simp only [ArrayBuilder.addRow, hsize, List.length_append, List.length_cons, List.length_nil]; omega)
      (by
        simp only [ArrayBuilder.addRow, hnot, hreply, Reply.push, Reply.rows, hsize, Bool.false_or, beq_iff_eq,
          List.length_append, List.length_cons, List.length_nil]
        rw [← List.length_eq_zero_iff]
        omega)
    refine ⟨b', ?_, hready', by simpa using hreply'⟩
    rw [List.append_assoc, ArrayBuilder.drain_element hcur hnot hc he]
    exact hb'

end

theorem ArrayBuilder.setSize_cases {i : IntegerBuilder} (hr : i.ready = true) (hlt : i.getInteger < 2 ^ 63) :
    (i.getInteger < 0 ∧ ∃ n, setSize {} i = ({ intBuilder := i, arraySize := n, ready := true, reply := .null } :
      ArrayBuilder Builder)) ∨
    ∃ n : ℕ, i.getInteger = n ∧
      setSize {} i = ({ intBuilder := i, arraySize := n, ready := n == 0 } : ArrayBuilder Builder) := by
  by_cases hneg : i.getInteger < 0
  · exact .inl ⟨hneg, u64 i.getInteger, by simp [setSize, hr, hneg]⟩
  · obtain ⟨n, hn⟩ := Int.eq_ofNat_of_zero_le (Int.not_lt.mp hneg)
    exact .inr ⟨n, hn, setSize_nat hr hn (by rw [hn] at hlt; exact_mod_cast hlt)⟩

open ArrayBuilder (elements) in
/-- A complete array has read all its elements, if those that it builds are read correctly. -/
theorem ArrayBuilder.items_of_drain {N : ℕ}
    (hitem : ∀ {c : Char} {e e' : Builder} {buffer rest : Bytes}, buffer.length < N → createBuilder c = .ok e →
      e.feed buffer = ⟨e', rest, none⟩ → e'.replyReady = true → ∃ w, buffer = w ++ rest ∧ Item e'.getReply (c :: w))
    (b : ArrayBuilder Builder) (buffer : Bytes) (acc : List Reply) (hcur : b.current = none)
    (hreply : b.reply = .array acc) (hsize : acc.length ≤ b.arraySize)
    (hready : b.ready = true ↔ acc.length = b.arraySize) (hN : buffer.length ≤ N) {b' : ArrayBuilder Builder}
    {rest : Bytes} (h : elements.drain b buffer = ⟨b', rest, none⟩) (hr : b'.ready = true) :
    ∃ rs w, buffer = w ++ rest ∧ Items rs w ∧ b'.reply = .array (acc ++ rs) ∧ b.arraySize = acc.length + rs.length := by
  have hall := Slot.drain_induction (S := elements) Builder.incremental_feed (P := fun b buffer r => ∀ acc,
    b.current = none → b.reply = .array acc → acc.length ≤ b.arraySize → (b.ready = true ↔ acc.length = b.arraySize) →
    buffer.length ≤ N → r.fault = none → r.state.ready = true → ∃ rs w, buffer = w ++ r.rest ∧ Items rs w ∧
      r.state.reply = .array (acc ++ rs) ∧ b.arraySize = acc.length + rs.length) ?_ ?_ ?_ b buffer acc hcur hreply hsize
    hready hN
  · rw [h] at hall
    exact hall rfl hr
  · intro b buffer _ acc _ hreply _ hready _ _ hr
    exact ⟨[], [], rfl, .nil, by simpa using hreply, by simpa using (hready.mp hr).symm⟩
  · intro b buffer hne hd hend acc _ _ _ _ _ hf hr
    have hcur : (elements.current (elements.row b buffer).state).isSome = true := hend.resolve_left (by simp [hf])
    have hd' : (elements.row b buffer).state.ready = false := Slot.done_of_stuck (S := elements) hd hf hcur
    rw [hr] at hd'
    cases hd'
  · intro b buffer r hne hd hend ih acc hcur hreply hsize hready hN hf hr
    obtain ⟨c, buffer', e, e', rest, rfl, hc, hfeed, hr', hrow⟩ := Slot.row_end (S := elements) hne hcur hend
    obtain ⟨v, rfl, hv⟩ := hitem (Nat.lt_of_succ_le hN) hc hfeed hr'
    have hne' : acc.length ≠ b.arraySize := fun h => by
      rw [show elements.done b = true from hready.mpr h] at hd
      cases hd
    rw [hrow] at ih
    obtain ⟨rs, w, rfl, hrs, hreply', hsize'⟩ := ih (acc ++ [e'.getReply]) rfl
      (by simp [elements, rows, addRow, hreply, Reply.push])
      (by simp only [elements, rows, addRow, List.length_append, List.length_singleton]; omega)
      (by
        have hd' : b.ready = false := hd
        simp [elements, rows, addRow, hd', hreply, Reply.push, Reply.rows])
      (by simp only [List.length_cons, List.length_append] at hN ⊢; omega) hf hr
    refine ⟨e'.getReply :: rs, c :: v ++ w, by simp, .cons hv hrs, by simpa using hreply', ?_⟩
    simp only [elements, rows, addRow, List.length_append, List.length_singleton] at hsize'
    rw [List.length_cons]
    omega

/-- **What has been read is a reply.** -/
theorem Builder.item_of_create {c : Char} {b b' : Builder} {buffer rest : Bytes} (hc : createBuilder c = .ok b)
    (h : b.feed buffer = ⟨b', rest, none⟩) (hr : b'.replyReady = true) :
    ∃ w, buffer = w ++ rest ∧ Item b'.getReply (c :: w) := by
  -- the elements of an array are read from a shorter buffer
  induction hN : buffer.length using Nat.strongRecOn generalizing c b b' buffer rest with
  | _ N ih =>
    rcases create_cases hc with ⟨rfl, rfl⟩ | ⟨rfl, rfl⟩ | ⟨rfl, rfl⟩ | ⟨rfl, rfl⟩ | ⟨rfl, rfl⟩
    · rw [feed_simpleString, Fed.map_eq_mk] at h
      obtain ⟨s, hs, rfl⟩ := h
      obtain ⟨line, hline, rfl, rfl⟩ := SimpleStringBuilder.line_of_feed hs hr
      exact ⟨_, rfl, .simpleString hline⟩
    · rw [feed_error, Fed.map_eq_mk] at h
      obtain ⟨s, hs, rfl⟩ := h
      rw [ErrorBuilder.feed, Fed.map_eq_mk] at hs
      obtain ⟨s, hs, rfl⟩ := hs
      have hr' : s.ready = true := by
        cases hs' : s.ready with
        | true => rfl
        | false => simp [replyReady, ErrorBuilder.ready, hs'] at hr
      obtain ⟨line, hline, rfl, rfl⟩ := SimpleStringBuilder.line_of_feed hs hr'
      exact ⟨_, rfl, .error hline⟩
    · rw [feed_integer, Fed.map_eq_mk] at h
      obtain ⟨s, hs, rfl⟩ := h
      obtain ⟨t, ht, rfl, hreply⟩ := IntegerBuilder.numeral_of_feed hs hr
      refine ⟨_, rfl, ?_⟩
      rw [getReply, hreply]
      exact .integer ht
    · rw [feed_bulkString, Fed.map_eq_mk] at h
      obtain ⟨s, hs, rfl⟩ := h
      exact BulkStringBuilder.item_of_feed hs hr
    · rw [feed_array, Fed.map_eq_mk] at h
      obtain ⟨s, hs, rfl⟩ := h
      rcases hi : IntegerBuilder.feed {} buffer with ⟨i, rest', fault⟩
      have hfetch : ArrayBuilder.fetchArraySize (β := Builder) {} buffer = ⟨ArrayBuilder.setSize {} i, rest', fault⟩ := by
        simp only [ArrayBuilder.fetchArraySize, Bool.false_eq_true, if_false, hi]
        rfl
      -- the size has been read, or the builder would not be ready
      obtain ⟨rfl, hir⟩ : fault = none ∧ i.ready = true := by
        simp only [ArrayBuilder.feed, Bool.false_eq_true, if_false, hfetch, ArrayBuilder.setSize_intBuilder] at hs
        cases fault with
        | some e => simp at hs
        | none =>
          refine ⟨rfl, ?_⟩
          cases hir : i.ready with
          | true => rfl
          | false =>
            simp only [hir, ArrayBuilder.setSize_of_reading _ hir, Option.isSome_none, Bool.not_false, Bool.or_true,
              if_true, Fed.mk.injEq] at hs
            rw [← hs.1] at hr
            cases hr
      obtain ⟨t, ht, rfl, -⟩ := IntegerBuilder.numeral_of_feed hi hir
      rw [ArrayBuilder.feed_of_fetchArraySize hi hir] at hs
      rcases ArrayBuilder.setSize_cases hir ht.lt with ⟨hneg, n, hset⟩ | ⟨n, hn, hset⟩
      · rw [hset, Slot.drain_of_done (S := ArrayBuilder.elements) incremental_feed rfl] at hs
        cases hs
        exact ⟨_, rfl, .nullArray ht hneg⟩
      · rw [hset] at hs
        obtain ⟨rs, w, rfl, hrs, hreply, hsize⟩ := ArrayBuilder.items_of_drain (N := N)
          (fun hlt hc' hfeed hr' => ih _ hlt hc' hfeed hr' rfl)
          { intBuilder := i, arraySize := n, ready := n == 0 } rest' [] rfl rfl (Nat.zero_le _)
          (by rw [beq_iff_eq]; exact eq_comm) (by rw [← hN]; simp only [List.length_append]; omega) hs hr
        refine ⟨_, (List.append_assoc _ _ _).symm, ?_⟩
        rw [getReply, hreply]
        have hlen : n = rs.length := by simpa using hsize
        rw [hn, hlen] at ht
        exact .array ht hrs

/-- **An item at the front of the bytes is determined by them.** -/
theorem Item.unique {r r' : Reply} {u u' v v' : Bytes} (h : Item r u) (h' : Item r' u') (heq : u ++ v = u' ++ v') :
    r = r' ∧ u = u' := by
  obtain ⟨c, w, b, rfl, hc, hb⟩ := h.reads
  obtain ⟨c', w', b', rfl, hc', hb'⟩ := h'.reads
  obtain ⟨rfl, heq'⟩ := List.cons.inj heq
  rw [hc] at hc'
  cases hc'
  obtain ⟨e, he, -, rfl⟩ := hb v
  obtain ⟨e', he', -, rfl⟩ := hb' v'
  rw [show w ++ v = w' ++ v' from heq', he'] at he
  obtain ⟨rfl, rfl, -⟩ := Fed.mk.inj he
  exact ⟨rfl, congrArg _ (List.append_cancel_right heq')⟩

namespace ReplyBuilder

theorem drain_item {r : Reply} {v : Bytes} (h : Item r v) (acc : List Reply) (d : Bytes) :
    replies.drain ⟨none, acc⟩ (v ++ d) = replies.drain ⟨none, acc ++ [r]⟩ d := by
  obtain ⟨c, w, b, rfl, hc, hb⟩ := h.reads
  obtain ⟨b', hfeed, hready, rfl⟩ := hb d
  exact Slot.drain_item (S := replies) Builder.incremental_feed rfl rfl hc hfeed hready

theorem drain_items {rs : List Reply} {w : Bytes} (h : Items rs w) (acc : List Reply) (d : Bytes) :
    replies.drain ⟨none, acc⟩ (w ++ d) = replies.drain ⟨none, acc ++ rs⟩ d := by
  induction rs generalizing w acc with
  | nil =>
    cases h
    simp
  | cons r rs ih =>
    cases h with
    | cons hr hrs => rw [List.append_assoc, drain_item hr, ih hrs, List.append_assoc, List.singleton_append]

/-- What the loop over the replies has read, when it begins between two replies. -/
theorem items_of_drain (t : ReplyBuilder) (b : Bytes) (ht : t.builder = none) :
    ∃ rs w₀ w₁, b = w₀ ++ w₁ ∧ Items rs w₀ ∧ (replies.drain t b).state.available = t.available ++ rs ∧
      (∀ r u v, Item r u → w₁ ≠ u ++ v) ∧
      ((replies.drain t b).state.builder = none → (replies.drain t b).fault = none → w₁ = []) := by
  refine Slot.drain_induction (S := replies) Builder.incremental_feed (P := fun t b out => t.builder = none →
    ∃ rs w₀ w₁, b = w₀ ++ w₁ ∧ Items rs w₀ ∧ out.state.available = t.available ++ rs ∧
      (∀ r u v, Item r u → w₁ ≠ u ++ v) ∧ (out.state.builder = none → out.fault = none → w₁ = [])) ?_ ?_ ?_ t b ht
  · intro t b hstop _
    obtain rfl : b = [] := hstop.resolve_right (by simp [replies])
    refine ⟨[], [], [], rfl, .nil, (List.append_nil _).symm, fun r u v hu heq => hu.ne_nil ?_, fun _ _ => rfl⟩
    exact (List.append_eq_nil_iff.mp heq.symm).1
  · intro t b hne _ hend ht
    refine ⟨[], [], b, rfl, .nil, ?_, fun r u v hu heq => ?_, fun hb hf => ?_⟩
    · obtain ⟨c, b', rfl⟩ := List.exists_cons_of_ne_nil hne
      cases hc : replies.create c with
      | error e => simp [Slot.row_of_error (S := replies) ht hc]
      | ok e =>
        rw [Slot.row_of_ok (S := replies) ht hc, Slot.stuck_after] at hend
        rw [Slot.row_of_ok (S := replies) ht hc]
        have hkeep : ((replies.item.feed e b').fault.isNone && replies.item.ready (replies.item.feed e b').state) = false := by
          rcases hend with hf | hr
          · rw [Bool.and_eq_false_iff]
            exact .inl (by simpa using hf)
          · rw [hr, Bool.and_false]
        simp only [Slot.after, Fed.map_state, hkeep, Bool.false_eq_true, if_false, List.append_nil]
        rfl
    · -- a complete reply would have been read
      obtain ⟨c, w, e, rfl, hc, he⟩ := hu.reads
      obtain ⟨e', hfeed, hready, -⟩ := he v
      subst heq
      rw [List.cons_append, Slot.row_of_ok (S := replies) ht hc, Slot.stuck_after,
        show replies.item.feed e (w ++ v) = ⟨e', v, none⟩ from hfeed] at hend
      rcases hend with hf | hr
      · cases hf
      · rw [show replies.item.ready e' = true from hready] at hr
        cases hr
    · rcases hend with hf' | hb'
      · rw [hf] at hf'
        cases hf'
      · rw [show replies.current (replies.row t b).state = none from hb] at hb'
        cases hb'
  · intro t b out hne hd hend ih ht
    obtain ⟨c, b', e, e', rest, rfl, hc, hfeed, hready, hrow⟩ := Slot.row_end (S := replies) hne ht hend
    obtain ⟨v, rfl, hv⟩ := Builder.item_of_create hc hfeed hready
    rw [hrow] at ih
    obtain ⟨rs, w₀, w₁, rfl, hrs, hav, hmax, hrest⟩ := ih rfl
    refine ⟨e'.getReply :: rs, c :: v ++ w₀, w₁, by simp, .cons hv hrs, ?_, hmax, hrest⟩
    rw [hav]
    simp [replies]

/-- **What the builder makes available** is the longest sequence of items at the front of the bytes, whatever the bytes
are and however they are cut. -/
theorem replies_exact (chunk : Bytes) (chunks : List Bytes) :
    ∃ w₀ w₁, (chunk :: chunks).flatten = w₀ ++ w₁ ∧ Items ((chunk :: chunks).foldl feed fresh).state.available w₀ ∧
      ∀ r u v, Item r u → w₁ ≠ u ++ v := by
  obtain ⟨rs, w₀, w₁, hsplit, hrs, hav, hmax, -⟩ := items_of_drain {} (chunk :: chunks).flatten rfl
  refine ⟨w₀, w₁, hsplit, ?_, hmax⟩
  rw [feed_chunks]
  have hav' : (feed fresh (chunk :: chunks).flatten).state.available = rs := hav
  rw [hav']
  exact hrs

theorem feed_of_items {w : Bytes} {rs : List Reply} (h : Items rs w) : feed fresh w = ⟨⟨none, rs⟩, [], none⟩ := by
  have h' := drain_items h [] []
  rw [List.append_nil, Slot.drain_nil (S := replies) Builder.incremental_feed] at h'
  exact h'

/-- **The bytes are taken without a fault and without a rest** exactly if they are a sequence of items. -/
theorem feed_items_iff (w : Bytes) (rs : List Reply) : feed fresh w = ⟨⟨none, rs⟩, [], none⟩ ↔ Items rs w := by
  constructor
  · intro h
    have h' : replies.drain {} w = ⟨⟨none, rs⟩, [], none⟩ := h
    obtain ⟨rs', w₀, w₁, rfl, hrs, hav, -, hrest⟩ := items_of_drain {} w rfl
    rw [h'] at hav hrest
    obtain rfl : rs = rs' := hav
    rw [hrest rfl rfl, List.append_nil]
    exact hrs
  · exact feed_of_items

end ReplyBuilder

/-- **Bytes are one sequence of items at most.** -/
theorem Items.unique {rs rs' : List Reply} {w : Bytes} (h : Items rs w) (h' : Items rs' w) : rs = rs' := by
  have h := ReplyBuilder.feed_of_items h
  rw [ReplyBuilder.feed_of_items h'] at h
  cases h
  rfl

end DistributedLock.Resp
