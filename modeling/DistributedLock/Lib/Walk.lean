import DistributedLock.Lib.Run
import Mathlib.Data.List.Basic
import Mathlib.Data.List.Range

/-!
# Walks over positions, with repetitions

A walk visits the positions 0, 1, 2, … in order.  A visit that says `again` is followed by another one of the same
position, every other visit by one of the next position.

* `Walk pos again i l`: the visits `l` bring a walk to the position `i`;
* `Walk.ordered`, `Walk.visited`, `Walk.length_eq`: a walk leaves no position out, and comes back to one only after
  `again`, so its length is the number of positions and repetitions;
* `Walk.map_filter`: what the last visit of each position was;
* `Walk.exists_runs`: a loop whose iterations make a walk with a bounded number of repetitions comes to its end.
-/

namespace DistributedLock.Lib

variable {α : Type*} {pos : α → ℕ} {again : α → Bool} {i : ℕ} {l : List α}

inductive Walk (pos : α → ℕ) (again : α → Bool) : ℕ → List α → Prop
  | nil : Walk pos again 0 []
  | stay {l : List α} {a : α} : Walk pos again (pos a) l → again a = true → Walk pos again (pos a) (l ++ [a])
  | advance {l : List α} {a : α} : Walk pos again (pos a) l → again a = false →
      Walk pos again (pos a + 1) (l ++ [a])

def lastAt (pos : α → ℕ) (l : List α) (j : ℕ) : Option α := (l.filter fun a => pos a = j).getLast?

theorem lastAt_append (l : List α) (a : α) (j : ℕ) :
    lastAt pos (l ++ [a]) j = if pos a = j then some a else lastAt pos l j := by
  unfold lastAt
  rw [List.filter_append]
  split
  · rename_i h
    simp [h]
  · rename_i h
    simp [h]

namespace Walk

theorem pos_of_mem (h : Walk pos again i l) {a : α} (ha : a ∈ l) : pos a < i ∨ pos a = i ∧ again a = true := by
  induction h with
  | nil => cases ha
  | @stay l b _ hb ih =>
    rcases List.mem_append.mp ha with ha | ha
    · exact ih ha
    · obtain rfl := List.mem_singleton.mp ha
      exact .inr ⟨rfl, hb⟩
  | @advance l b _ hb ih =>
    rcases List.mem_append.mp ha with ha | ha
    · rcases ih ha with hlt | ⟨heq, -⟩
      · exact .inl (Nat.lt_succ_of_lt hlt)
      · exact .inl (Nat.lt_succ_of_le heq.le)
    · obtain rfl := List.mem_singleton.mp ha
      exact .inl (Nat.lt_succ_self _)

/-- The positions are visited in order, and none is visited again without reason. -/
theorem ordered (h : Walk pos again i l) :
    l.Pairwise fun a b => pos a ≤ pos b ∧ (pos a = pos b → again a = true) := by
  have hlast : ∀ {l : List α} {b : α}, Walk pos again (pos b) l → ∀ a ∈ l, ∀ b' ∈ [b],
      pos a ≤ pos b' ∧ (pos a = pos b' → again a = true) := by
    intro l b hw a ha b' hb'
    obtain rfl := List.mem_singleton.mp hb'
    rcases hw.pos_of_mem ha with hlt | ⟨heq, hagain⟩
    · exact ⟨hlt.le, fun heq => absurd heq hlt.ne⟩
    · exact ⟨heq.le, fun _ => hagain⟩
  induction h with
  | nil => exact List.Pairwise.nil
  | stay hw _ ih | advance hw _ ih =>
    exact List.pairwise_append.mpr ⟨ih, List.pairwise_singleton _ _, hlast hw⟩

theorem visited (h : Walk pos again i l) {j : ℕ} (hj : j < i) : ∃ a ∈ l, pos a = j := by
  induction h with
  | nil => cases hj
  | stay _ _ ih =>
    obtain ⟨a, ha, hpos⟩ := ih hj
    exact ⟨a, List.mem_append_left _ ha, hpos⟩
  | @advance l b _ _ ih =>
    rcases Nat.lt_succ_iff_lt_or_eq.mp hj with hlt | heq
    · obtain ⟨a, ha, hpos⟩ := ih hlt
      exact ⟨a, List.mem_append_left _ ha, hpos⟩
    · exact ⟨b, List.mem_append_right _ (List.mem_singleton_self b), heq.symm⟩

theorem length_eq (h : Walk pos again i l) : l.length = i + l.countP again := by
  induction h with
  | nil => rfl
  | stay _ hb ih => simp [ih, hb]; omega
  | advance _ hb ih => simp [ih, hb]; omega

/-- The visits with a property that ends the visits of a position: there is one at each position whose last visit has
it. -/
theorem map_filter (h : Walk pos again i l) {p : α → Bool} (hp : ∀ a, p a = true → again a = false) :
    (l.filter p).map pos = (List.range i).filter fun j => (lastAt pos l j).any p := by
  have hkeep : ∀ {l : List α} {b : α}, (List.range (pos b)).filter (fun j => (lastAt pos (l ++ [b]) j).any p) =
      (List.range (pos b)).filter fun j => (lastAt pos l j).any p := by
    intro l b
    refine List.filter_congr fun j hj => ?_
    rw [lastAt_append, if_neg (List.mem_range.mp hj).ne']
  induction h with
  | nil => rfl
  | @stay l b _ hb ih =>
    have hpb : p b = false := by
      by_contra hpb
      rw [hp b (by simpa using hpb)] at hb
      cases hb
    rw [hkeep, ← ih]
    simp [hpb]
  | @advance l b _ hb ih =>
    rw [List.filter_append, List.map_append, ih, List.range_succ, List.filter_append, hkeep]
    congr 1
    cases hpb : p b <;> simp [lastAt_append, hpb]

/-- **The loop rule.**  A loop over the positions below `n`, each of whose iterations makes a visit, comes to its end if
its invariant allows `K` repetitions only. -/
theorem exists_runs {σ : Type*} {f : σ → Option σ} {I : ℕ → List α → σ → Prop} {n K : ℕ}
    (hbody : ∀ i l s, i < n → I i l s →
      ∃ a t, Runs f s t ∧ pos a = i ∧ I (if again a then i else i + 1) (l ++ [a]) t)
    (hK : ∀ i l s, I i l s → l.countP again ≤ K) {s : σ} (hs : I 0 [] s) :
    ∃ l t, Runs f s t ∧ Walk pos again n l ∧ I n l t := by
  -- the positions ahead and the repetitions that are left become fewer
  suffices hrun : ∀ m i l s, (n - i) + (K - l.countP again) = m → i ≤ n → Walk pos again i l → I i l s →
      ∃ l' t, Runs f s t ∧ Walk pos again n l' ∧ I n l' t from
    hrun _ 0 [] s rfl (Nat.zero_le n) .nil hs
  intro m
  induction m using Nat.strong_induction_on with
  | _ m ih =>
    intro i l s hm hi hw hI
    rcases hi.eq_or_lt with rfl | hlt
    · exact ⟨l, s, .refl, hw, hI⟩
    · obtain ⟨a, t, hrun, rfl, hI'⟩ := hbody i l s hlt hI
      have hbound := hK _ _ _ hI'
      cases ha : again a with
      | true =>
        simp only [List.countP_append, List.countP_singleton, ha, if_true] at hbound hI'
        obtain ⟨l', u, hu, hw', hI''⟩ := ih _ (by simp [ha]; omega) (pos a) (l ++ [a]) t rfl hi (.stay hw ha) hI'
        exact ⟨l', u, hrun.trans hu, hw', hI''⟩
      | false =>
        simp only [ha, Bool.false_eq_true, if_false] at hI'
        obtain ⟨l', u, hu, hw', hI''⟩ := ih _ (by simp [ha]; omega) (pos a + 1) (l ++ [a]) t rfl hlt (.advance hw ha) hI'
        exact ⟨l', u, hrun.trans hu, hw', hI''⟩

end Walk

end DistributedLock.Lib
