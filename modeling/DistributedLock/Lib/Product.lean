import DistributedLock.Lib.Machine

/-!
# Two machines that move together

`M.product N act`: a label of the product stands for a step of one machine, or of both at once.  Which steps these are
may depend on the state; `act` says it, with `none` for a label that is not enabled.

* `product_next`: the inversion of a step;
* `Reach.left`, `Reach.right`: each machine makes a run of its own, so what holds along the runs of one machine holds
  in the product.
-/

namespace DistributedLock.Lib.Machine

variable {σ τ ℓ ℓ' κ : Type*} {M : Machine σ ℓ} {N : Machine τ ℓ'}

def advance (M : Machine σ ℓ) (s : σ) : Option ℓ → Option σ
  | none => some s
  | some l => M.next s l

/-- The machine whose labels stand for steps of the two. -/
def product (M : Machine σ ℓ) (N : Machine τ ℓ') (act : σ → τ → κ → Option (Option ℓ × Option ℓ')) :
    Machine (σ × τ) κ where
  init x := M.init x.1 ∧ N.init x.2
  next x k := (act x.1 x.2 k).bind fun a =>
    (M.advance x.1 a.1).bind fun s => (N.advance x.2 a.2).map fun t => (s, t)

variable {act : σ → τ → κ → Option (Option ℓ × Option ℓ')} {okK : σ × τ → κ → Prop} {x x' : σ × τ} {k : κ}

/-- **Inversion of a step.** -/
theorem product_next : (M.product N act).next x k = some x' ↔
    ∃ l l', act x.1 x.2 k = some (l, l') ∧ M.advance x.1 l = some x'.1 ∧ N.advance x.2 l' = some x'.2 := by
  simp only [product, Option.bind_eq_some_iff, Option.map_eq_some_iff, Prod.exists]
  constructor
  · rintro ⟨l, l', ha, s, hs, t, ht, rfl⟩
    exact ⟨l, l', ha, hs, ht⟩
  · rintro ⟨l, l', ha, hs, ht⟩
    exact ⟨l, l', ha, _, hs, _, ht, rfl⟩

theorem Reach.advance {ok : σ → ℓ → Prop} {s s' : σ} {l : Option ℓ} (h : M.Reach ok s)
    (hok : ∀ a, l = some a → ok s a) (hs : M.advance s l = some s') : M.Reach ok s' := by
  cases l with
  | none => cases hs; exact h
  | some a => exact h.step (hok a rfl) hs

theorem Reach.left {ok : σ → ℓ → Prop} (h : (M.product N act).Reach okK x)
    (hok : ∀ x k a l', okK x k → act x.1 x.2 k = some (some a, l') → ok x.1 a) : M.Reach ok x.1 := by
  refine h.invariant (I := fun x => M.Reach ok x.1) (fun y h₀ => .init (And.left h₀)) fun y k y' _ hi hk hn => ?_
  obtain ⟨l, l', ha, hs, -⟩ := product_next.mp hn
  exact hi.advance (fun a hl => hok y k a l' hk (hl ▸ ha)) hs

theorem Reach.right {ok : τ → ℓ' → Prop} (h : (M.product N act).Reach okK x)
    (hok : ∀ x k l a, okK x k → act x.1 x.2 k = some (l, some a) → ok x.2 a) : N.Reach ok x.2 := by
  refine h.invariant (I := fun x => N.Reach ok x.2) (fun y h₀ => .init (And.right h₀)) fun y k y' _ hi hk hn => ?_
  obtain ⟨l, l', ha, -, ht⟩ := product_next.mp hn
  exact hi.advance (fun a hl => hok y k l a hk (hl ▸ ha)) ht

end DistributedLock.Lib.Machine
