import DistributedLock.Resp.Format
import DistributedLock.Redis.Server
import DistributedLock.Lib.PrefixCode

/-!
# Commands and replies on the wire

`build_command` writes a command as an array of bulk strings, the server answers in a format that the builders accept.

* `commands_unique`: **the commands a connection has sent can be read off its bytes**, whatever the keys and values
  contain;
* `Reply.item_encode`, `replies_read_back`: what a server writes for its replies is read back as these replies, however
  the bytes are cut, if they fit: `-2 ^ 63` and bulk strings of `2 ^ 31 - 2` bytes or more are not read back.
-/

namespace DistributedLock.Resp

open Lib

/-! ## Numbers -/

/-- `std::to_string` -/
def decimal : ℤ → Bytes
  | .ofNat n => Nat.toDigits 10 n
  | .negSucc n => '-' :: Nat.toDigits 10 (n + 1)

theorem isDigit_toDigits (n : ℕ) : ∀ c ∈ Nat.toDigits 10 n, c.isDigit = true :=
  fun _ hc => Nat.isDigit_of_mem_toDigits (by decide) (by decide) hc

theorem toDigits_injective : Function.Injective (Nat.toDigits 10) :=
  Function.LeftInverse.injective (g := fun ds => Nat.ofDigitChars 10 ds 0) fun _ => Nat.ofDigitChars_ten_toDigits

theorem decimal_injective : Function.Injective decimal := by
  have hsign : ∀ n m : ℕ, Nat.toDigits 10 n ≠ '-' :: Nat.toDigits 10 m := by
    intro n m h
    have hd := isDigit_toDigits n '-' (by rw [h]; exact List.mem_cons_self)
    simp at hd
  intro n m h
  cases n with
  | ofNat n =>
    cases m with
    | ofNat m => rw [toDigits_injective h]
    | negSucc m => exact absurd h (hsign _ _)
  | negSucc n =>
    cases m with
    | ofNat m => exact absurd h.symm (hsign _ _)
    | negSucc m => rw [Nat.succ.inj (toDigits_injective (List.cons.inj h).2)]

theorem findEnd_decimal (n : ℤ) : findEnd (decimal n) = none := by
  cases n with
  | ofNat n => exact IntegerBuilder.findEnd_digits (isDigit_toDigits n)
  | negSucc n =>
    rw [decimal, findEnd_cons, IntegerBuilder.findEnd_digits (isDigit_toDigits _)]
    rfl

theorem numeral_decimal {n : ℤ} (hlo : -2 ^ 63 < n) (hhi : n < 2 ^ 63) : Numeral (decimal n) n := by
  cases n with
  | ofNat k =>
    have hlt : k < 2 ^ 63 := by
      rw [Int.ofNat_eq_natCast] at hhi
      omega
    have h := Numeral.pos (isDigit_toDigits k) (by rw [Nat.ofDigitChars_ten_toDigits]; exact hlt)
    rwa [Nat.ofDigitChars_ten_toDigits] at h
  | negSucc k =>
    have h := Numeral.neg (isDigit_toDigits (k + 1)) (by rw [Nat.ofDigitChars_ten_toDigits]; omega)
    rwa [Nat.ofDigitChars_ten_toDigits] at h

theorem line_unique {l l' x x' : Bytes} (hl : findEnd l = none) (hl' : findEnd l' = none)
    (h : l ++ crlf ++ x = l' ++ crlf ++ x') : l = l' ∧ x = x' := by
  have hlen : l.length = l'.length := by
    have he := findEnd_line hl x
    rw [h, findEnd_line hl'] at he
    exact (Option.some.inj he).symm
  have htake := take_line l x
  rw [h, hlen, take_line] at htake
  subst htake
  exact ⟨rfl, List.append_cancel_left h⟩

/-! ## Commands -/

def commandPart (part : Bytes) : Bytes := '$' :: (decimal part.length ++ crlf ++ (part ++ crlf))

def buildCommand (redisCmd : List Bytes) : Bytes :=
  '*' :: (decimal redisCmd.length ++ crlf ++ redisCmd.flatMap commandPart)

theorem prefixCode_commandPart : PrefixCode commandPart where
  ne_nil _ := List.cons_ne_nil _ _
  unique a b x y h := by
    simp only [commandPart, List.cons_append, List.cons.injEq, true_and] at h
    rw [List.append_assoc (decimal a.length ++ crlf), List.append_assoc (decimal b.length ++ crlf)] at h
    obtain ⟨hlen, h⟩ := line_unique (findEnd_decimal _) (findEnd_decimal _) h
    rw [List.append_assoc, List.append_assoc] at h
    obtain ⟨rfl, hrest⟩ := List.append_inj h (by exact_mod_cast decimal_injective hlen)
    exact ⟨rfl, List.append_cancel_left hrest⟩

/-- **A command at the front of the bytes is determined by them**, whatever its parts contain. -/
theorem prefixCode_buildCommand : PrefixCode buildCommand where
  ne_nil _ := List.cons_ne_nil _ _
  unique a b x y h := by
    simp only [buildCommand, List.cons_append, List.cons.injEq, true_and] at h
    rw [List.append_assoc (decimal a.length ++ crlf), List.append_assoc (decimal b.length ++ crlf)] at h
    obtain ⟨hlen, h⟩ := line_unique (findEnd_decimal _) (findEnd_decimal _) h
    exact prefixCode_commandPart.flatMap_unique (by exact_mod_cast decimal_injective hlen) h

/-- **What a connection has sent has one reading as commands**, whatever keys and values contain. -/
theorem commands_unique : Function.Injective fun cmds : List (List Bytes) => cmds.flatMap buildCommand :=
  prefixCode_buildCommand.flatMap_injective

/-! ## Replies -/

mutual

/-- A reply as a server writes it. -/
def Reply.encode : Reply → Bytes
  | .null => '$' :: (decimal (-1) ++ crlf)
  | .simpleString s => '+' :: (s ++ crlf)
  | .error s => '-' :: (s ++ crlf)
  | .bulkString s => '$' :: (decimal s.length ++ crlf ++ (s ++ crlf))
  | .integer n => ':' :: (decimal n ++ crlf)
  | .array rows => '*' :: (decimal rows.length ++ crlf ++ encodeAll rows)

def Reply.encodeAll : List Reply → Bytes
  | [] => []
  | r :: rs => r.encode ++ encodeAll rs

end

mutual

/-- The client can read the reply back: its lines are lines, and nothing overflows.  The digits of a number are read
before its sign counts, and 2 is added to the size of a bulk string, an `int`. -/
def Reply.Fits : Reply → Prop
  | .null => True
  | .simpleString s | .error s => findEnd s = none
  | .bulkString s => s.length + 2 < 2 ^ 31
  | .integer n => -2 ^ 63 < n ∧ n < 2 ^ 63
  | .array rows => rows.length < 2 ^ 63 ∧ FitAll rows

def Reply.FitAll : List Reply → Prop
  | [] => True
  | r :: rs => r.Fits ∧ FitAll rs

end

mutual

def Reply.decFits : (r : Reply) → Decidable r.Fits
  | .null => isTrue trivial
  | .simpleString s | .error s => inferInstanceAs (Decidable (findEnd s = none))
  | .bulkString s => inferInstanceAs (Decidable (s.length + 2 < 2 ^ 31))
  | .integer n => inferInstanceAs (Decidable (-2 ^ 63 < n ∧ n < 2 ^ 63))
  | .array rows => @instDecidableAnd (rows.length < 2 ^ 63) (Reply.FitAll rows) _ (Reply.decFitAll rows)

def Reply.decFitAll : (rs : List Reply) → Decidable (Reply.FitAll rs)
  | [] => isTrue trivial
  | r :: rs => @instDecidableAnd r.Fits (Reply.FitAll rs) (Reply.decFits r) (Reply.decFitAll rs)

end

instance : DecidablePred Reply.Fits := Reply.decFits

instance : DecidablePred Reply.FitAll := Reply.decFitAll

mutual

theorem Reply.item_encode : ∀ {r : Reply}, r.Fits → Item r r.encode
  | .null, _ => .nullString (numeral_decimal (by decide) (by decide)) rfl
  | .simpleString _, h => .simpleString h
  | .error _, h => .error h
  | .bulkString s, h => by
    have hlt : s.length + 2 < 2 ^ 31 := h
    exact .bulkString (numeral_decimal (by omega) (by omega)) (i32_of_lt (by omega) (by omega)) hlt
  | .integer n, h => .integer (numeral_decimal h.1 h.2)
  | .array rows, h => by
    have hlt : rows.length < 2 ^ 63 := h.1
    exact .array (numeral_decimal (by omega) (by omega)) (Reply.items_encodeAll h.2)

theorem Reply.items_encodeAll : ∀ {rs : List Reply}, Reply.FitAll rs → Items rs (Reply.encodeAll rs)
  | [], _ => .nil
  | _ :: _, h => .cons (Reply.item_encode h.1) (Reply.items_encodeAll h.2)

end

/-- **What a server writes is read back**, however the bytes are cut. -/
theorem replies_read_back {rs : List Reply} (hfit : Reply.FitAll rs) {chunk : Bytes} {chunks : List Bytes}
    (h : (chunk :: chunks).flatten = Reply.encodeAll rs) :
    (chunk :: chunks).foldl ReplyBuilder.feed ReplyBuilder.fresh = ⟨⟨none, rs⟩, [], none⟩ := by
  rw [ReplyBuilder.feed_chunks, h]
  exact ReplyBuilder.feed_of_items (Reply.items_encodeAll hfit)

theorem replies_read_back_nested :
    ["*2\r\n:-".toList, "7\r\n*2\r\n$1".toList, "0\r\n0123456789\r\n$-1\r\n".toList].foldl ReplyBuilder.feed
        ReplyBuilder.fresh =
      ⟨⟨none, [.array [.integer (-7), .array [.bulkString "0123456789".toList, .null]]]⟩, [], none⟩ := by
  have hfit : Reply.FitAll [.array [.integer (-7), .array [.bulkString "0123456789".toList, .null]]] := by decide
  exact replies_read_back hfit rfl

theorem ReplyBuilder.feed_encode {r : Reply} (hfit : r.Fits) (acc : List Reply) :
    feed ⟨⟨none, acc⟩, [], none⟩ r.encode = ⟨⟨none, acc ++ [r]⟩, [], none⟩ := by
  have h := drain_item (Reply.item_encode hfit) acc []
  rw [List.append_nil, Slot.drain_nil (S := replies) Builder.incremental_feed] at h
  exact h

end DistributedLock.Resp
