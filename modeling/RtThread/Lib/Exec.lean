import Mathlib.Order.Basic

/-!
# Computations with a state that may fail

A computation takes a state, and it fails or returns a value and the next state. A computation that
consists of two has returned exactly if both have (`bind_ok_iff`). From this come the rules of
`Accounted R μ credit w x`: the states before and after `x` are related by `R`, and the weight `w` of
the result is paid by the growth of the measure `μ` of the state and by a credit.

A family of computations that call each other is given by one body with a parameter for the calls.
`unroll` allows calls to be nested up to a given depth. What the body keeps if the calls do, every
depth keeps (`Accounted.unroll`).
-/

namespace RtThread.Lib

/-- A computation with the states `σ` that may fail with an `ε`. -/
abbrev Exec (ε σ α : Type) := StateT σ (Except ε) α

variable {ε σ α β ι : Type}

section Bind

variable {x : Exec ε σ α} {f : α → Exec ε σ β} {s s' : σ} {a : α}

theorem bind_of_ok (h : x s = .ok (a, s')) : (x >>= f) s = f a s' := by
  show (x s >>= fun r => f r.1 r.2) = _
  rw [h]
  rfl

theorem bind_ok_iff {r : β × σ} :
    (x >>= f) s = .ok r ↔ ∃ a s', x s = .ok (a, s') ∧ f a s' = .ok r := by
  constructor
  · intro h
    change (x s >>= fun r => f r.1 r.2) = .ok r at h
    cases hx : x s with
    | error e =>
      rw [hx] at h
      cases h
    | ok q =>
      rw [hx] at h
      exact ⟨q.1, q.2, rfl, h⟩
  · rintro ⟨a, s', hx, hf⟩
    rw [bind_of_ok hx, hf]

theorem pure_ok_iff {r : α × σ} : (pure a : Exec ε σ α) s = .ok r ↔ r = (a, s) := by
  show Except.ok (a, s) = .ok r ↔ _
  rw [Except.ok.injEq, eq_comm]

end Bind

/-! ## The states before and after -/

/-- The states before and after are related, and the result is paid by the growth of the measure and
by the credit. -/
def Accounted (R : σ → σ → Prop) (μ : σ → ℕ) (credit : ℕ) (w : α → ℕ) (x : Exec ε σ α) : Prop :=
  ∀ ⦃s a s'⦄, x s = .ok (a, s') → R s s' ∧ μ s + w a ≤ μ s' + credit

namespace Accounted

variable {R : σ → σ → Prop} {μ : σ → ℕ} {c c' : ℕ} {w : α → ℕ} {w' : β → ℕ} {x : Exec ε σ α}
  {f : α → Exec ε σ β}

theorem pure (hrefl : ∀ s, R s s) {a : α} (ha : w a ≤ c) :
    Accounted R μ c w (Pure.pure a : Exec ε σ α) := by
  intro s b s' h
  obtain ⟨rfl, rfl⟩ := Prod.mk.inj (pure_ok_iff.mp h)
  exact ⟨hrefl s', by omega⟩

theorem bind (htrans : ∀ s t u, R s t → R t u → R s u) (hx : Accounted R μ c w x)
    (hf : ∀ a, Accounted R μ (c' + w a) w' (f a)) : Accounted R μ (c' + c) w' (x >>= f) := by
  intro s b s' h
  obtain ⟨a, t, hxt, hft⟩ := bind_ok_iff.mp h
  obtain ⟨hR, hle⟩ := hx hxt
  obtain ⟨hR', hle'⟩ := hf a hft
  exact ⟨htrans s t s' hR hR', by omega⟩

theorem throw (e : ε) : Accounted R μ c w (throw e : Exec ε σ α) := by
  intro s a s' h
  cases h

theorem modify {g : σ → σ} {w : PUnit → ℕ} (h : ∀ s, R s (g s) ∧ μ s + w ⟨⟩ ≤ μ (g s) + c) :
    Accounted R μ c w (modify g : Exec ε σ PUnit) := by
  intro s a s' heq
  cases heq
  exact h s

theorem mono (h : Accounted R μ c w x) (hle : c ≤ c') : Accounted R μ c' w x := by
  intro s a s' hx
  obtain ⟨hR, hle'⟩ := h hx
  exact ⟨hR, by omega⟩

end Accounted

/-! ## Recursion -/

/-- The computations that call each other, with calls nested up to a depth. -/
def unroll (e : ε) (body : (ι → Exec ε σ α) → ι → Exec ε σ α) : ℕ → ι → Exec ε σ α
  | 0, _ => throw e
  | n + 1, i => body (unroll e body n) i

variable {e : ε} {body : (ι → Exec ε σ α) → ι → Exec ε σ α}

/-- What the body keeps if the calls do, every depth keeps. -/
theorem Accounted.unroll {R : σ → σ → Prop} {μ : σ → ℕ} {credit : ι → ℕ} {w : α → ℕ}
    (hbody : ∀ call : ι → Exec ε σ α, (∀ i, Accounted R μ (credit i) w (call i)) →
      ∀ i, Accounted R μ (credit i) w (body call i))
    (n : ℕ) (i : ι) : Accounted R μ (credit i) w (unroll e body n i) := by
  induction n generalizing i with
  | zero => exact Accounted.throw e
  | succ n ih => exact hbody _ ih i

end RtThread.Lib
