import Mathlib.Data.List.Nodup

/-!
# Lists linked through a member

A singly linked list whose nodes hold a link to a member of the next node, at the pointer `ptr` of that
node, and the last one a link `nil`. The list is determined by the links of its own nodes
(`LinkedBy.congr`), so a write elsewhere does not change it.
-/

namespace RtThread.Lib

open Function List

variable {A B : Type*}

/-- The link to the first node of a list. -/
def linkTo (ptr : A → B) (nil : B) : List A → B
  | [] => nil
  | a :: _ => ptr a

/-- Every node of the list is linked to the next one, and the last one to `nil`. -/
def LinkedBy (next : A → B) (ptr : A → B) (nil : B) : List A → Prop
  | [] => True
  | a :: l => next a = linkTo ptr nil l ∧ LinkedBy next ptr nil l

namespace LinkedBy

variable {next next' : A → B} {ptr : A → B} {nil : B} {a b : A} {l l' : List A}

theorem congr (h : LinkedBy next ptr nil l) (hnext : ∀ a ∈ l, next' a = next a) : LinkedBy next' ptr nil l := by
  induction l with
  | nil => trivial
  | cons a l ih =>
    refine ⟨(hnext a mem_cons_self).trans h.1, ih h.2 fun b hb => ?_⟩
    exact hnext b (mem_cons_of_mem _ hb)

variable [DecidableEq A]

theorem append_last (h : LinkedBy next ptr nil (l ++ [a])) (ha : a ∉ l) (hb : b ∉ l ++ [a]) :
    LinkedBy (update (update next a (ptr b)) b nil) ptr nil (l ++ [a] ++ [b]) := by
  induction l with
  | nil =>
    have hne : a ≠ b := fun heq => hb (heq ▸ mem_singleton_self a)
    refine ⟨?_, update_self _ _ _, trivial⟩
    rw [update_of_ne hne, update_self]
    rfl
  | cons c l ih =>
    have hca : c ≠ a := fun heq => ha (heq ▸ mem_cons_self)
    have hcb : c ≠ b := fun heq => hb (heq ▸ mem_cons_self)
    refine ⟨?_, ih h.2 (fun hmem => ha (mem_cons_of_mem _ hmem)) fun hmem =>
      hb (mem_cons_of_mem _ hmem)⟩
    rw [update_of_ne hcb, update_of_ne hca, h.1]
    cases l <;> rfl

theorem unlink (h : LinkedBy next ptr nil (l ++ a :: b :: l')) (ha : a ∉ l) (ha' : a ∉ l') :
    LinkedBy (update next a (next b)) ptr nil (l ++ a :: l') := by
  induction l with
  | nil =>
    obtain ⟨-, hb, hrest⟩ := h
    refine ⟨(update_self _ _ _).trans hb, hrest.congr fun c hc => ?_⟩
    exact update_of_ne (fun heq : c = a => ha' (heq ▸ hc)) _ _
  | cons c l ih =>
    have hca : c ≠ a := fun heq => ha (heq ▸ mem_cons_self)
    refine ⟨?_, ih h.2 fun hmem => ha (mem_cons_of_mem _ hmem)⟩
    rw [update_of_ne hca, h.1]
    cases l <;> rfl

end LinkedBy

end RtThread.Lib
