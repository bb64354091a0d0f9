import Mathlib.Algebra.Order.BigOperators.Group.Finset
import Mathlib.Data.Fintype.BigOperators

/-!
# Weights of a finite family

The sum of the weights of the members of a finite family, and how it changes if one member does. With the
weights 0 and 1 this counts members.
-/

namespace RtThread.Lib

open Function

variable {τ β : Type*} [Fintype τ]

/-- The sum of the weights. -/
def weigh (w : β → ℕ) (f : τ → β) : ℕ := ∑ i, w (f i)

variable {w : β → ℕ} {f : τ → β}

theorem weigh_update [DecidableEq τ] (i : τ) (b : β) :
    weigh w (update f i b) + w (f i) = weigh w f + w b := by
  unfold weigh
  have hsplit := Finset.add_sum_erase Finset.univ (fun j => w (f j)) (Finset.mem_univ i)
  have hsplit' := Finset.add_sum_erase Finset.univ (fun j => w (update f i b j))
    (Finset.mem_univ i)
  have hrest : ∑ j ∈ Finset.univ.erase i, w (update f i b j) =
      ∑ j ∈ Finset.univ.erase i, w (f j) := by
    apply Finset.sum_congr rfl
    intro j hj
    rw [update_of_ne (Finset.ne_of_mem_erase hj)]
  rw [update_self] at hsplit'
  omega

theorem le_weigh (i : τ) : w (f i) ≤ weigh w f :=
  Finset.single_le_sum (f := fun j => w (f j)) (fun _ _ => Nat.zero_le _) (Finset.mem_univ i)

end RtThread.Lib
