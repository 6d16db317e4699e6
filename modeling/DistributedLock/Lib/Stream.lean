import Mathlib.Data.List.Basic
import Mathlib.Tactic.Simps.Basic

/-!
# Consumers of a stream

A consumer works on the part of a stream that has arrived: it takes from its front what it can use and leaves
the rest, to be called again with the rest and what has arrived behind it.  It is settled once it has read its
item (`ready`) or has failed.

* `Consumer.Incremental`: what the consumer does with `b ++ d` is what it does with `b` and, unless that settles
  it, goes on to do with `d`; so a stream may be cut anywhere;
* `Incremental.of_waits`, `Incremental.of_kinds`, `Incremental.within`, `Incremental.seq`: consumers that wait
  for all of their item, consumers of several kinds of states, a consumer inside a larger state, and a head
  before a body;
* `Slot.loop`: the loop that makes a consumer for each item from the first character of the item, feeds it until
  it is ready, and stops when it is done or the input is used up.  `Slot.drain` is the loop with enough fuel
  (`drain_eq`);
* `Slot.incremental_drain`: the loop is incremental if the consumer of its items is;
* `Slot.drain_item`: an item the consumer reads is read by the loop;
* `Slot.drain_map`, `Slot.drain_withItem`: the loop from another state, and with another consumer for its items.
-/

set_option linter.unusedSectionVars false

namespace DistributedLock.Lib

/-- What a consumer leaves: its state, the input it has not taken, the fault it ended with. -/
@[ext] structure Fed (α σ ε : Type*) where
  state : σ
  rest : List α
  fault : Option ε

namespace Fed

variable {α σ τ ε : Type*}

@[simps] def append (r : Fed α σ ε) (d : List α) : Fed α σ ε := { r with rest := r.rest ++ d }

/-- The same for a state that contains the state of the consumer. -/
@[simps] def map (f : σ → τ) (r : Fed α σ ε) : Fed α τ ε := ⟨f r.state, r.rest, r.fault⟩

@[simp] theorem append_nil (r : Fed α σ ε) : r.append [] = r := by
  ext1 <;> simp

theorem map_eq_mk {f : σ → τ} {r : Fed α σ ε} {t : τ} {rest : List α} {fault : Option ε} :
    r.map f = ⟨t, rest, fault⟩ ↔ ∃ s, r = ⟨s, rest, fault⟩ ∧ f s = t := by
  constructor
  · intro h
    obtain ⟨hstate, hrest, hfault⟩ := Fed.ext_iff.mp h
    exact ⟨r.state, Fed.ext rfl hrest hfault, hstate⟩
  · rintro ⟨s, rfl, rfl⟩
    rfl

theorem map_append (f : σ → τ) (r : Fed α σ ε) (d : List α) : (r.append d).map f = (r.map f).append d := rfl

end Fed

structure Consumer (α σ ε : Type*) where
  feed : σ → List α → Fed α σ ε
  ready : σ → Bool

namespace Consumer

variable {α σ τ ε : Type*} {C : Consumer α σ ε}

def Settled (C : Consumer α σ ε) (r : Fed α σ ε) : Prop := r.fault.isSome = true ∨ C.ready r.state = true

instance (C : Consumer α σ ε) : DecidablePred C.Settled := fun r => by unfold Settled; infer_instance

/-- **A stream may be cut anywhere.** -/
structure Incremental (C : Consumer α σ ε) : Prop where
  suffix : ∀ s b, (C.feed s b).rest <:+ b
  settled : ∀ s b d, C.Settled (C.feed s b) → C.feed s (b ++ d) = (C.feed s b).append d
  waiting : ∀ s b d, ¬ C.Settled (C.feed s b) →
    C.feed s (b ++ d) = C.feed (C.feed s b).state ((C.feed s b).rest ++ d)

theorem Incremental.length_le (h : C.Incremental) (s : σ) (b : List α) : (C.feed s b).rest.length ≤ b.length :=
  (h.suffix s b).length_le

/-- A consumer that changes nothing until it is settled. -/
theorem Incremental.of_waits (hsuf : ∀ s b, (C.feed s b).rest <:+ b)
    (h : ∀ s b, (C.feed s b = ⟨s, b, none⟩ ∧ C.ready s = false) ∨
      (C.Settled (C.feed s b) ∧ ∀ d, C.feed s (b ++ d) = (C.feed s b).append d)) : C.Incremental where
  suffix := hsuf
  settled s b d hset := by
    rcases h s b with ⟨heq, hr⟩ | ⟨-, hall⟩
    · rw [heq] at hset
      rcases hset with hf | hr'
      · cases hf
      · rw [hr] at hr'
        cases hr'
    · exact hall d
  waiting s b d hset := by
    rcases h s b with ⟨heq, -⟩ | ⟨hset', -⟩
    · rw [heq]
    · exact absurd hset' hset

theorem Incremental.of_kinds {C : Consumer α τ ε}
    (h : ∀ t, ∃ (σ : Type) (D : Consumer α σ ε) (f : σ → τ) (s : σ), f s = t ∧ D.Incremental ∧
      (∀ s b, C.feed (f s) b = (D.feed s b).map f) ∧ ∀ s, C.ready (f s) = D.ready s) : C.Incremental := by
  refine ⟨fun t b => ?_, fun t b d hset => ?_, fun t b d hset => ?_⟩
  all_goals
    obtain ⟨σ, D, f, s, rfl, hD, hfeed, hready⟩ := h t
    have hiff : ∀ r : Fed α σ ε, C.Settled (r.map f) ↔ D.Settled r := fun r => by
      simp only [Settled, Fed.map_fault, Fed.map_state, hready]
  · rw [hfeed]
    exact hD.suffix s b
  · rw [hfeed, hiff] at hset
    rw [hfeed, hfeed, hD.settled s b d hset, Fed.map_append]
  · rw [hfeed, hiff] at hset
    rw [hfeed, hfeed, hD.waiting s b d hset]
    exact (hfeed _ _).symm

/-- A consumer at work inside a larger state, until that is ready. -/
def within (C : Consumer α σ ε) (get : τ → σ) (put : τ → σ → τ) (ready : τ → Bool) : Consumer α τ ε where
  feed t b := if ready t then ⟨t, b, none⟩ else (C.feed (get t) b).map (put t)
  ready := ready

/-- **A consumer inside a larger state**, which is ready from the moment the consumer is. -/
theorem Incremental.within (h : C.Incremental) {get : τ → σ} {put : τ → σ → τ} {ready : τ → Bool}
    (hget : ∀ t s, C.ready s = false → get (put t s) = s)
    (hput : ∀ t s s', C.ready s = false → put (put t s) s' = put t s')
    (hready : ∀ t s, ready t = false → (ready (put t s) = true ↔ C.ready s = true)) :
    (C.within get put ready).Incremental := by
  have hfeed : ∀ t b, (C.within get put ready).feed t b =
      if ready t then ⟨t, b, none⟩ else (C.feed (get t) b).map (put t) := fun _ _ => rfl
  have hset : ∀ t b, ready t = false →
      ((C.within get put ready).Settled ((C.feed (get t) b).map (put t)) ↔ C.Settled (C.feed (get t) b)) :=
    fun t b ht => or_congr Iff.rfl (hready t _ ht)
  refine ⟨fun t b => ?_, fun t b d hs => ?_, fun t b d hs => ?_⟩
  · rw [hfeed]
    split
    · exact List.suffix_rfl
    · exact h.suffix _ b
  · rw [hfeed] at hs
    rw [hfeed, hfeed]
    split at hs
    · rename_i ht
      simp [ht, Fed.append]
    · rename_i ht
      simp only [Bool.not_eq_true] at ht
      rw [hset t b ht] at hs
      simp [ht, h.settled _ b d hs, Fed.map_append]
  · rw [hfeed t b] at hs ⊢
    split at hs
    · rename_i ht
      exact absurd (.inr ht) hs
    · rename_i ht
      rw [if_neg ht, hfeed, if_neg ht, hfeed]
      simp only [Bool.not_eq_true] at ht
      rw [hset t b ht] at hs
      have hns : C.ready (C.feed (get t) b).state = false := by
        simp only [Settled, not_or, Bool.not_eq_true] at hs
        exact hs.2
      have hnr : ready (put t (C.feed (get t) b).state) = false := by
        rw [← Bool.not_eq_true, hready t _ ht, hns]
        exact Bool.false_ne_true
      rw [h.waiting _ b d hs]
      simp only [Fed.map_state, Fed.map_rest, hnr, Bool.false_eq_true, if_false, hget _ _ hns]
      ext1
      · exact (hput t _ _ hns).symm
      · rfl
      · rfl

/-- The head `H` reads its item before the body `B` starts, both on one state. -/
def seq (H B : Consumer α σ ε) : Consumer α σ ε where
  feed s b :=
    let r := H.feed s b
    if r.fault.isSome || !H.ready r.state then r else B.feed r.state r.rest
  ready := B.ready

/-- **A head before a body**, where a head that has read its item takes nothing more. -/
theorem Incremental.seq {H B : Consumer α σ ε} (hH : H.Incremental) (hB : B.Incremental)
    (hstop : ∀ s b, H.ready s = true → H.feed s b = ⟨s, b, none⟩)
    (hkeep : ∀ s b, H.ready s = true → H.ready (B.feed s b).state = true)
    (hready : ∀ s, B.ready s = true → H.ready s = true) : (H.seq B).Incremental := by
  have hfeed : ∀ s b, (H.seq B).feed s b =
      if (H.feed s b).fault.isSome || !H.ready (H.feed s b).state then H.feed s b
      else B.feed (H.feed s b).state (H.feed s b).rest := fun _ _ => rfl
  refine ⟨fun s b => ?_, fun s b d hset => ?_, fun s b d hset => ?_⟩
  · rw [hfeed]
    split
    · exact hH.suffix s b
    · exact (hB.suffix _ _).trans (hH.suffix s b)
  · rw [hfeed] at hset
    split at hset
    · rename_i hhead
      -- a head that is still reading leaves the whole unsettled
      have hsetH : H.Settled (H.feed s b) := hset.imp id (hready _)
      rw [hfeed, hfeed, hH.settled s b d hsetH]
      simp only [Fed.append_fault, Fed.append_state, if_pos hhead]
    · rename_i hhead
      have hsetH : H.Settled (H.feed s b) := by
        simp only [Bool.or_eq_true, Bool.not_eq_true', not_or, Bool.not_eq_false] at hhead
        exact .inr hhead.2
      rw [hfeed, hfeed, hH.settled s b d hsetH]
      simp only [Fed.append_fault, Fed.append_state, Fed.append_rest, if_neg hhead]
      exact hB.settled _ _ d hset
  · rw [hfeed s b] at hset ⊢
    split at hset
    · rename_i hhead
      rw [if_pos hhead, hfeed s (b ++ d), hfeed (H.feed s b).state]
      by_cases hsetH : H.Settled (H.feed s b)
      · rcases hsetH with hf | hr
        · exact absurd (.inl hf) hset
        · simp only [hr, Bool.not_true, Bool.or_false] at hhead
          exact absurd (.inl hhead) hset
      · rw [hH.waiting s b d hsetH]
    · rename_i hhead
      have hr : H.ready (H.feed s b).state = true := by
        simp only [Bool.or_eq_true, Bool.not_eq_true', not_or, Bool.not_eq_false] at hhead
        exact hhead.2
      have hbody : ∀ x, (H.seq B).feed (B.feed (H.feed s b).state (H.feed s b).rest).state x =
          B.feed (B.feed (H.feed s b).state (H.feed s b).rest).state x := by
        intro x
        have hr' := hkeep _ (H.feed s b).rest hr
        rw [hfeed, hstop _ x hr']
        simp only [Option.isSome_none, hr', Bool.not_true, Bool.or_self, Bool.false_eq_true, if_false]
      rw [if_neg hhead, hbody, hfeed, hH.settled s b d (.inr hr)]
      simp only [Fed.append_fault, Fed.append_state, Fed.append_rest, if_neg hhead]
      exact hB.waiting _ _ d hset

/-! ### Chunks -/

/-- A chunk arrives behind what the consumer has left; a failed consumer is not called again. -/
def receive (C : Consumer α σ ε) (r : Fed α σ ε) (chunk : List α) : Fed α σ ε :=
  if r.fault.isSome then r.append chunk else C.feed r.state (r.rest ++ chunk)

/-- **Chunks do not matter** to an incremental consumer that goes on forever. -/
theorem Incremental.foldl_receive (h : C.Incremental) (hready : ∀ s, C.ready s = false) (chunk : List α)
    (chunks : List (List α)) (r : Fed α σ ε) :
    (chunk :: chunks).foldl C.receive r = C.receive r (chunk :: chunks).flatten := by
  have hset : ∀ r : Fed α σ ε, C.Settled r ↔ r.fault.isSome = true := by
    intro r
    rw [Settled, hready]
    simp
  induction chunks generalizing chunk r with
  | nil => simp
  | cons chunk' chunks ih =>
    rw [List.foldl_cons, ih, List.flatten_cons (l := chunk), receive, receive, receive]
    by_cases hf : r.fault.isSome = true
    · rw [if_pos hf, if_pos (by exact hf), if_pos hf]
      ext1 <;> simp
    · rw [if_neg hf, if_neg hf, ← List.append_assoc]
      by_cases hset' : C.Settled (C.feed r.state (r.rest ++ chunk))
      · rw [if_pos ((hset _).mp hset'), h.settled _ _ _ hset']
      · rw [if_neg (mt (hset _).mpr hset'), h.waiting _ _ _ hset']

end Consumer

/-! ## The loop over items -/

/-- How a loop with the state `τ` reads its items: `create` makes the consumer of an item from the first character,
`current` is the consumer at work, `hold` keeps it for the next time, `emit` takes over the item it has read. -/
structure Slot (α σ τ ε : Type*) where
  create : α → Except ε σ
  item : Consumer α σ ε
  current : τ → Option σ
  hold : τ → σ → τ
  emit : τ → σ → τ
  done : τ → Bool
  current_hold : ∀ t s, current (hold t s) = some s
  current_emit : ∀ t s, current (emit t s) = none
  hold_hold : ∀ t s s', hold (hold t s) s' = hold t s'
  emit_hold : ∀ t s s', emit (hold t s) s' = emit t s'
  done_hold : ∀ t s, done (hold t s) = done t

namespace Slot

variable {α σ τ ε : Type*} (S : Slot α σ τ ε)

def after (t : τ) (r : Fed α σ ε) : Fed α τ ε :=
  r.map fun s => if r.fault.isNone && S.item.ready s then S.emit t s else S.hold t s

def row (t : τ) (b : List α) : Fed α τ ε :=
  match S.current t, b with
  | some s, b => S.after t (S.item.feed s b)
  | none, [] => ⟨t, [], none⟩
  | none, c :: b =>
    match S.create c with
    | .error e => ⟨t, c :: b, some e⟩
    | .ok s => S.after t (S.item.feed s b)

/-- The iteration did not come to the end of an item. -/
def Stuck (r : Fed α τ ε) : Prop := r.fault.isSome = true ∨ (S.current r.state).isSome = true

instance : DecidablePred S.Stuck := fun r => by unfold Stuck; infer_instance

/-- Iterations as long as there is input, the loop is not done, and items come to their end. -/
def loop : ℕ → τ → List α → Fed α τ ε
  | 0, t, b => ⟨t, b, none⟩
  | n + 1, t, b =>
    if b = [] ∨ S.done t = true then ⟨t, b, none⟩
    else if S.Stuck (S.row t b) then S.row t b
    else loop n (S.row t b).state (S.row t b).rest

/-- The loop: only its first iteration may take nothing. -/
def drain (t : τ) (b : List α) : Fed α τ ε := S.loop (b.length + 1) t b

@[simps] def consumer : Consumer α τ ε := ⟨S.drain, S.done⟩

/-! ### One iteration -/

variable {S} {t : τ} {b : List α}

theorem stuck_after (t : τ) (r : Fed α σ ε) :
    S.Stuck (S.after t r) ↔ r.fault.isSome = true ∨ S.item.ready r.state = false := by
  unfold Stuck after
  rcases r with ⟨s, rest, fault⟩
  cases fault <;> cases hr : S.item.ready s <;> simp [hr, S.current_hold, S.current_emit]

theorem after_append (t : τ) (r : Fed α σ ε) (d : List α) : S.after t (r.append d) = (S.after t r).append d := rfl

theorem row_of_some {s : σ} (h : S.current t = some s) : S.row t b = S.after t (S.item.feed s b) := by
  simp [row, h]

theorem row_of_error {c : α} {e : ε} (h : S.current t = none) (hc : S.create c = .error e) :
    S.row t (c :: b) = ⟨t, c :: b, some e⟩ := by
  simp [row, h, hc]

theorem row_of_ok {c : α} {s : σ} (h : S.current t = none) (hc : S.create c = .ok s) :
    S.row t (c :: b) = S.after t (S.item.feed s b) := by
  simp [row, h, hc]

theorem row_hold (t : τ) (s : σ) (b : List α) : S.row (S.hold t s) b = S.after t (S.item.feed s b) := by
  simp only [row, S.current_hold, after, S.hold_hold, S.emit_hold]

theorem row_suffix (h : S.item.Incremental) (t : τ) (b : List α) : (S.row t b).rest <:+ b := by
  unfold row
  split
  · exact h.suffix _ _
  · exact List.suffix_rfl
  · split
    · exact List.suffix_rfl
    · exact (h.suffix _ _).trans (List.suffix_cons _ _)

/-- An iteration that makes a consumer and comes to the end of the item has taken something. -/
theorem row_length_lt (h : S.item.Incremental) (hb : b ≠ []) (hidle : S.current t = none)
    (hend : ¬ S.Stuck (S.row t b)) : (S.row t b).rest.length < b.length := by
  obtain ⟨c, b', rfl⟩ := List.exists_cons_of_ne_nil hb
  simp only [row, hidle] at hend ⊢
  split
  · rename_i e he
    simp [he, Stuck] at hend
  · exact Nat.lt_succ_of_le (h.length_le _ _)

/-- **What an iteration does with more input**: the same if it comes to the end of an item or fails, and otherwise
what the next iteration does with it. -/
theorem row_append (h : S.item.Incremental) (hb : b ≠ []) (d : List α) :
    ((S.row t b).fault.isSome = true ∨ S.current (S.row t b).state = none → S.row t (b ++ d) = (S.row t b).append d) ∧
    ((S.row t b).fault = none → (S.current (S.row t b).state).isSome = true →
      S.row t (b ++ d) = S.row (S.row t b).state ((S.row t b).rest ++ d)) := by
  have hafter : ∀ (s : σ) (x : List α),
      ((S.after t (S.item.feed s x)).fault.isSome = true ∨ S.current (S.after t (S.item.feed s x)).state = none →
        S.after t (S.item.feed s (x ++ d)) = (S.after t (S.item.feed s x)).append d) ∧
      ((S.after t (S.item.feed s x)).fault = none → (S.current (S.after t (S.item.feed s x)).state).isSome = true →
        S.after t (S.item.feed s (x ++ d)) =
          S.row (S.after t (S.item.feed s x)).state ((S.after t (S.item.feed s x)).rest ++ d)) := by
    intro s x
    by_cases hset : S.item.Settled (S.item.feed s x)
    · refine ⟨fun _ => by rw [h.settled s x d hset, after_append], fun hf hc => ?_⟩
      rcases hset with hf' | hr
      · rw [show (S.item.feed s x).fault = none from hf] at hf'
        cases hf'
      · have hstuck := (stuck_after (S := S) t (S.item.feed s x)).mp (.inr hc)
        rw [hr, show (S.item.feed s x).fault = none from hf] at hstuck
        simp at hstuck
    · simp only [Consumer.Settled, not_or, Bool.not_eq_true] at hset
      have hstate : (S.after t (S.item.feed s x)).state = S.hold t (S.item.feed s x).state := by
        simp [after, hset.2]
      rw [hstate, row_hold, h.waiting s x d (by simp [Consumer.Settled, hset])]
      refine ⟨fun hend => ?_, fun _ _ => rfl⟩
      rcases hend with hf | hc
      · exact absurd hf (by simpa [after] using hset.1)
      · rw [S.current_hold] at hc
        cases hc
  cases hcur : S.current t with
  | some s =>
    rw [row_of_some hcur, row_of_some hcur]
    exact hafter s b
  | none =>
    obtain ⟨c, b', rfl⟩ := List.exists_cons_of_ne_nil hb
    cases hc : S.create c with
    | error e =>
      rw [row_of_error hcur hc, List.cons_append, row_of_error hcur hc]
      exact ⟨fun _ => rfl, fun hf => by cases hf⟩
    | ok s =>
      rw [row_of_ok hcur hc, List.cons_append, row_of_ok hcur hc]
      exact hafter s b'

/-! ### The loop -/

def weight (S : Slot α σ τ ε) (t : τ) (b : List α) : ℕ := b.length + if (S.current t).isSome then 1 else 0

theorem weight_lt (h : S.item.Incremental) (hb : b ≠ []) (hend : ¬ S.Stuck (S.row t b)) :
    S.weight (S.row t b).state (S.row t b).rest < S.weight t b := by
  have hidle : (S.current (S.row t b).state).isSome = false := by
    simp only [Stuck, not_or, Bool.not_eq_true] at hend
    exact hend.2
  unfold weight
  rw [hidle]
  cases hcur : S.current t with
  | none => simpa using row_length_lt h hb hcur hend
  | some s => simpa using Nat.lt_succ_of_le (row_suffix h t b).length_le

theorem loop_eq (h : S.item.Incremental) {n m : ℕ} (hn : S.weight t b ≤ n) (hm : S.weight t b ≤ m) :
    S.loop n t b = S.loop m t b := by
  have hzero : ∀ {t : τ} {b : List α} (k : ℕ), S.weight t b = 0 → S.loop k t b = ⟨t, b, none⟩ := by
    intro t b k hw
    have hb : b = [] := List.length_eq_zero_iff.mp (Nat.eq_zero_of_add_eq_zero_right hw)
    cases k with
    | zero => rfl
    | succ k => simp [loop, hb]
  induction n generalizing m t b with
  | zero => rw [hzero 0 (by omega), hzero m (by omega)]
  | succ n ih =>
    cases m with
    | zero => rw [hzero (n + 1) (by omega), hzero 0 (by omega)]
    | succ m =>
      simp only [loop]
      split
      · rfl
      · rename_i hgo
        split
        · rfl
        · rename_i hend
          have hlt := weight_lt h (fun hb => hgo (.inl hb)) hend
          exact ih (by omega) (by omega)

theorem weight_le (S : Slot α σ τ ε) (t : τ) (b : List α) : S.weight t b ≤ b.length + 1 := by
  unfold weight
  split <;> omega

/-- **The loop has enough fuel.** -/
theorem drain_eq (h : S.item.Incremental) (t : τ) (b : List α) :
    S.drain t b =
      if b = [] ∨ S.done t = true then ⟨t, b, none⟩
      else if S.Stuck (S.row t b) then S.row t b
      else S.drain (S.row t b).state (S.row t b).rest := by
  unfold drain
  rw [loop_eq h (m := b.length + 1 + 1) (S.weight_le t b) (by have := S.weight_le t b; omega), loop]
  split
  · rfl
  · rename_i hgo
    split
    · rfl
    · rename_i hend
      have hlt := weight_lt h (fun hb => hgo (.inl hb)) hend
      have hw := S.weight_le t b
      exact loop_eq h (by omega) (S.weight_le _ _)

/-- **Induction along the loop.** -/
theorem drain_induction (h : S.item.Incremental) {P : τ → List α → Fed α τ ε → Prop}
    (stop : ∀ t b, b = [] ∨ S.done t = true → P t b ⟨t, b, none⟩)
    (last : ∀ t b, b ≠ [] → S.done t = false → S.Stuck (S.row t b) → P t b (S.row t b))
    (next : ∀ t b r, b ≠ [] → S.done t = false → ¬ S.Stuck (S.row t b) → P (S.row t b).state (S.row t b).rest r →
      P t b r)
    (t : τ) (b : List α) : P t b (S.drain t b) := by
  induction hw : S.weight t b using Nat.strongRecOn generalizing t b with
  | _ n ih =>
    subst hw
    rw [drain_eq h]
    by_cases hgo : b = [] ∨ S.done t = true
    · rw [if_pos hgo]
      exact stop t b hgo
    · rw [if_neg hgo]
      simp only [not_or, Bool.not_eq_true] at hgo
      by_cases hend : S.Stuck (S.row t b)
      · rw [if_pos hend]
        exact last t b hgo.1 hgo.2 hend
      · rw [if_neg hend]
        exact next t b _ hgo.1 hgo.2 hend (ih _ (weight_lt h hgo.1 hend) _ _ rfl)

theorem drain_go (h : S.item.Incremental) (hb : b ≠ []) (hd : S.done t = false) :
    S.drain t b = if S.Stuck (S.row t b) then S.row t b else S.drain (S.row t b).state (S.row t b).rest := by
  rw [drain_eq h, if_neg (by simp [hb, hd])]

theorem drain_of_end (h : S.item.Incremental) (hb : b ≠ []) (hd : S.done t = false) (hend : ¬ S.Stuck (S.row t b)) :
    S.drain t b = S.drain (S.row t b).state (S.row t b).rest := by
  rw [drain_go h hb hd, if_neg hend]

theorem drain_of_stuck (h : S.item.Incremental) (hb : b ≠ []) (hd : S.done t = false) (hend : S.Stuck (S.row t b)) :
    S.drain t b = S.row t b := by
  rw [drain_go h hb hd, if_pos hend]

theorem drain_of_done (h : S.item.Incremental) (hd : S.done t = true) : S.drain t b = ⟨t, b, none⟩ := by
  rw [drain_eq h, if_pos (.inr hd)]

theorem drain_nil (h : S.item.Incremental) : S.drain t [] = ⟨t, [], none⟩ := by
  rw [drain_eq h, if_pos (.inl rfl)]

theorem drain_item (h : S.item.Incremental) (hcur : S.current t = none) (hd : S.done t = false) {c : α} {s s' : σ}
    {w d : List α} (hc : S.create c = .ok s) (hfeed : S.item.feed s (w ++ d) = ⟨s', d, none⟩)
    (hr : S.item.ready s' = true) : S.drain t (c :: w ++ d) = S.drain (S.emit t s') d := by
  have hrow : S.row t (c :: w ++ d) = ⟨S.emit t s', d, none⟩ := by
    rw [List.cons_append, row_of_ok hcur hc, hfeed]
    simp [after, hr, Fed.map]
  rw [drain_of_end h (by simp) hd (by rw [hrow]; simp [Stuck, S.current_emit]), hrow]

/-- **Inversion of an iteration** that comes to the end of an item. -/
theorem row_end (hb : b ≠ []) (hcur : S.current t = none) (hend : ¬ S.Stuck (S.row t b)) :
    ∃ c b' s s' rest, b = c :: b' ∧ S.create c = .ok s ∧ S.item.feed s b' = ⟨s', rest, none⟩ ∧
      S.item.ready s' = true ∧ S.row t b = ⟨S.emit t s', rest, none⟩ := by
  obtain ⟨c, b', rfl⟩ := List.exists_cons_of_ne_nil hb
  cases hc : S.create c with
  | error e =>
    rw [row_of_error hcur hc] at hend
    exact absurd (.inl rfl) hend
  | ok s =>
    rw [row_of_ok hcur hc] at hend ⊢
    rw [stuck_after] at hend
    simp only [not_or, Bool.not_eq_true, Bool.not_eq_false, Option.isSome_eq_false_iff,
      Option.isNone_iff_eq_none] at hend
    refine ⟨c, b', s, (S.item.feed s b').state, _, rfl, hc, Fed.ext rfl rfl hend.1, hend.2, ?_⟩
    simp [after, hend, Fed.map]

theorem drain_congr (h : S.item.Incremental) {t' : τ} {b' : List α} (hb : b ≠ []) (hb' : b' ≠ [])
    (hd : S.done t = false) (hd' : S.done t' = false) (hrow : S.row t b = S.row t' b') :
    S.drain t b = S.drain t' b' := by
  rw [drain_go h hb hd, drain_go h hb' hd', hrow]

/-- The loop is done only after an iteration that comes to the end of its item. -/
theorem done_of_stuck (hd : S.done t = false) (hf : (S.row t b).fault = none)
    (hcur : (S.current (S.row t b).state).isSome = true) : S.done (S.row t b).state = false := by
  have hafter : ∀ (s : σ) (x : List α), (S.after t (S.item.feed s x)).fault = none →
      (S.current (S.after t (S.item.feed s x)).state).isSome = true →
      S.done (S.after t (S.item.feed s x)).state = false := by
    intro s x hf hcur
    have hstuck := (stuck_after (S := S) t (S.item.feed s x)).mp (.inr hcur)
    rw [show (S.item.feed s x).fault = none from hf] at hstuck
    simp only [Option.isSome_none, Bool.false_eq_true, false_or] at hstuck
    simp [after, hstuck, S.done_hold, hd]
  cases hc : S.current t with
  | some s =>
    rw [row_of_some hc] at hf hcur ⊢
    exact hafter s b hf hcur
  | none =>
    cases b with
    | nil => simp [row, hc] at hcur
    | cons c b =>
      cases hcr : S.create c with
      | error e => simp [row_of_error hc hcr] at hf
      | ok s =>
        rw [row_of_ok hc hcr] at hf hcur ⊢
        exact hafter s b hf hcur

def withItem (S : Slot α σ τ ε) (C : Consumer α σ ε) : Slot α σ τ ε := { S with item := C }

/-- **The loop from another state** whose consumers and items are the same. -/
theorem drain_map (f : τ → τ) (hcur : ∀ t, S.current (f t) = S.current t) (hdone : ∀ t, S.done (f t) = S.done t)
    (hhold : ∀ t s, S.hold (f t) s = f (S.hold t s)) (hemit : ∀ t s, S.emit (f t) s = f (S.emit t s)) (t : τ)
    (b : List α) : S.drain (f t) b = (S.drain t b).map f := by
  have hafter : ∀ t r, S.after (f t) r = (S.after t r).map f := by
    intro t r
    simp only [after, hhold, hemit, Fed.map]
    split <;> rfl
  have hrow : ∀ t b, S.row (f t) b = (S.row t b).map f := by
    intro t b
    unfold row
    rw [hcur]
    split
    · exact hafter _ _
    · rfl
    · split
      · rfl
      · exact hafter _ _
  have hloop : ∀ n t b, S.loop n (f t) b = (S.loop n t b).map f := by
    intro n
    induction n with
    | zero => exact fun _ _ => rfl
    | succ n ih =>
      intro t b
      have hstuck : S.Stuck (S.row (f t) b) ↔ S.Stuck (S.row t b) := by
        simp only [Stuck, hrow, Fed.map_fault, Fed.map_state, hcur]
      simp only [loop, hdone, if_congr hstuck rfl rfl]
      rw [hrow, Fed.map_state, Fed.map_rest, ih]
      split
      · rfl
      · split <;> rfl
  exact hloop _ t b

/-- **Two consumers that agree on the items of a loop**: on those of a bounded size, where a consumer that is made is of
size 1 at most and each character counts. -/
theorem drain_withItem (h : S.item.Incremental) {C : Consumer α σ ε} (hC : C.Incremental) {size : σ → ℕ} {n : ℕ}
    (hfeed : ∀ s b, size s + b.length ≤ n → C.feed s b = S.item.feed s b) (hready : C.ready = S.item.ready)
    (hsize : ∀ c s, S.create c = .ok s → size s ≤ 1) (hb : b.length ≤ n)
    (hcur : ∀ s, S.current t = some s → size s + b.length ≤ n) : (S.withItem C).drain t b = S.drain t b := by
  have hrow : ∀ t b, b.length ≤ n → (∀ s, S.current t = some s → size s + b.length ≤ n) →
      (S.withItem C).row t b = S.row t b := by
    intro t b hb hcur
    have hafter : ∀ r, (S.withItem C).after t r = S.after t r := fun r => by simp only [after, withItem, hready]
    cases hc : S.current t with
    | some s =>
      rw [row_of_some (S := S) hc, row_of_some (S := S.withItem C) hc, hafter]
      exact congrArg _ (hfeed s b (hcur s hc))
    | none =>
      cases b with
      | nil => simp only [row, withItem, hc]
      | cons c b =>
        cases hcr : S.create c with
        | error e => rw [row_of_error (S := S) hc hcr, row_of_error (S := S.withItem C) hc hcr]
        | ok s =>
          rw [row_of_ok (S := S) hc hcr, row_of_ok (S := S.withItem C) hc hcr, hafter]
          have hs := hsize c s hcr
          exact congrArg _ (hfeed s b (by simp only [List.length_cons] at hb; omega))
  refine drain_induction (S := S) h (P := fun t b r => b.length ≤ n →
    (∀ s, S.current t = some s → size s + b.length ≤ n) → (S.withItem C).drain t b = r) ?_ ?_ ?_ t b hb hcur
  · intro t b hstop _ _
    rw [drain_eq (S := S.withItem C) hC]
    exact if_pos hstop
  · intro t b hne hd hend hb hcur
    have hr := hrow t b hb hcur
    rw [drain_of_stuck (S := S.withItem C) hC hne hd (by rw [hr]; exact hend), hr]
  · intro t b r hne hd hend ih hb hcur
    have hr := hrow t b hb hcur
    rw [drain_of_end (S := S.withItem C) hC hne hd (by rw [hr]; exact hend), hr]
    refine ih (Nat.le_trans (row_suffix h t b).length_le hb) fun s hs => ?_
    exact absurd (.inr (by rw [hs]; rfl)) hend

/-- **A loop over an incremental consumer is incremental.** -/
theorem incremental_drain (h : S.item.Incremental) : S.consumer.Incremental := by
  have hsuf : ∀ t b, (S.drain t b).rest <:+ b := drain_induction h (P := fun _ b r => r.rest <:+ b)
    (fun _ _ _ => List.suffix_rfl) (fun t b _ _ _ => row_suffix h t b)
    (fun t b _ _ _ _ ih => ih.trans (row_suffix h t b))
  have hall : ∀ t b, ∀ d,
      (S.consumer.Settled (S.drain t b) → S.drain t (b ++ d) = (S.drain t b).append d) ∧
      (¬ S.consumer.Settled (S.drain t b) →
        S.drain t (b ++ d) = S.drain (S.drain t b).state ((S.drain t b).rest ++ d)) := by
    refine drain_induction h (P := fun t b r => ∀ d, (S.consumer.Settled r → S.drain t (b ++ d) = r.append d) ∧
      (¬ S.consumer.Settled r → S.drain t (b ++ d) = S.drain r.state (r.rest ++ d))) ?_ ?_ ?_
    · intro t b hstop d
      refine ⟨fun hset => ?_, fun _ => rfl⟩
      rcases hset with hf | hd
      · cases hf
      · exact drain_of_done h hd
    · intro t b hb hd hend d
      have hb' : b ++ d ≠ [] := by simp [hb]
      obtain ⟨hsame, hgo⟩ := row_append h hb d
      cases hf : (S.row t b).fault with
      | some e =>
        have hf' : (S.row t b).fault.isSome = true := by rw [hf]; rfl
        have hrow := hsame (.inl hf')
        refine ⟨fun _ => ?_, fun hset => absurd (.inl hf') hset⟩
        rw [drain_of_stuck h hb' hd (by rw [hrow]; exact .inl hf'), hrow]
      | none =>
        have hcur : (S.current (S.row t b).state).isSome = true := by
          rcases hend with hf' | hcur
          · rw [hf] at hf'
            cases hf'
          · exact hcur
        have hd' := done_of_stuck hd hf hcur
        refine ⟨fun hset => ?_, fun _ => ?_⟩
        · rcases hset with hf' | hd''
          · rw [hf] at hf'
            cases hf'
          · rw [show S.done (S.row t b).state = true from hd''] at hd'
            cases hd'
        · by_cases hnil : (S.row t b).rest ++ d = []
          · -- there is no more input, and the next iteration has to wait for it
            obtain ⟨hrest, rfl⟩ := List.append_eq_nil_iff.mp hnil
            rw [hnil, drain_nil h, List.append_nil, drain_of_stuck h hb hd hend]
            exact Fed.ext rfl hrest hf
          · exact drain_congr h hb' hnil hd hd' (hgo hf hcur)
    · intro t b r hb hd hend ih d
      have hcur : S.current (S.row t b).state = none := by
        simp only [Stuck, not_or, Bool.not_eq_true, Option.isSome_eq_false_iff, Option.isNone_iff_eq_none] at hend
        exact hend.2
      have hrow := (row_append h hb d).1 (.inr hcur)
      have hdrain : S.drain t (b ++ d) = S.drain (S.row t b).state ((S.row t b).rest ++ d) := by
        rw [drain_of_end h (by simp [hb]) hd (by rw [hrow]; exact hend), hrow]
        rfl
      rw [hdrain]
      exact ih d
  exact ⟨hsuf, fun t b d => (hall t b d).1, fun t b d => (hall t b d).2⟩

end Slot

end DistributedLock.Lib
