import Mathlib.Data.List.Basic
import Mathlib.Data.List.Count
import Mathlib.Order.Nat

/-!
# Text that is written through a window

A text is made of pieces that are written one after the other. A writer that keeps only what fits into
a window counts the rest, so the text does not depend on the window, unless a piece asks whether there
is room. `Piece` is a piece that asks once: it has a `head`, and a `tail` that depends on the answer.
`full` is the text if there is always room, and `render room` the text if `room` answers for every
offset.
-/

namespace RtThread.Lib

variable {χ : Type*}

/-- A piece of a text. After its head it asks whether there is room. -/
structure Piece (χ : Type*) where
  head : List χ
  tail : Bool → List χ

namespace Piece

/-- A piece that does not ask. -/
def plain (l : List χ) : Piece χ := ⟨l, fun _ => []⟩

variable (p : Piece χ)

/-- The piece if there is room, or not. -/
def text (room : Bool) : List χ := p.head ++ p.tail room

/-- The piece is longer if there is no room. -/
def Slips : Prop := (p.tail true).length < (p.tail false).length

instance (p : Piece χ) : Decidable p.Slips :=
  inferInstanceAs (Decidable ((p.tail true).length < (p.tail false).length))

/-- The tail does not depend on the answer, or it has something and is longer by one without room. -/
def Regular : Prop :=
  p.tail false = p.tail true ∨ (p.tail false).length = (p.tail true).length + 1 ∧ p.tail true ≠ []

theorem regular_plain (l : List χ) : (plain l).Regular := Or.inl rfl

theorem length_text (room : Bool) :
    (p.text room).length = p.head.length + (p.tail room).length := List.length_append

end Piece

open Piece List

/-- The text if there is always room. -/
def full : List (Piece χ) → List χ
  | [] => []
  | p :: ps => p.text true ++ full ps

/-- The text from the offset `off` on, if `room` answers. -/
def render (room : ℕ → Bool) : ℕ → List (Piece χ) → List χ
  | _, [] => []
  | off, p :: ps =>
    p.text (room (off + p.head.length)) ++
      render room (off + (p.text (room (off + p.head.length))).length) ps

/-- The offsets in the full text at which pieces ask whose length depends on the answer. -/
def marks : ℕ → List (Piece χ) → List ℕ
  | _, [] => []
  | off, p :: ps =>
    (if p.Slips then [off + p.head.length] else []) ++ marks (off + (p.text true).length) ps

section

variable {room room' : ℕ → Bool} {n off : ℕ} {ps : List (Piece χ)}

/-- Answers that agree below `n` give the same text, or the texts reach `n`. -/
theorem render_congr (h : ∀ k < n, room k = room' k) : render room off ps = render room' off ps ∨
      n ≤ off + (render room off ps).length ∧ n ≤ off + (render room' off ps).length := by
  induction ps generalizing off with
  | nil => exact Or.inl rfl
  | cons p ps ih =>
    rw [render, render]
    by_cases hask : off + p.head.length < n
    · -- The answers are the same, and so is the offset of the next piece.
      rw [h _ hask]
      rcases ih with heq | ⟨hlen, hlen'⟩
      · exact Or.inl (by rw [heq])
      · rw [length_append, length_append]
        exact Or.inr ⟨by omega, by omega⟩
    · rw [length_append, length_append, length_text, length_text]
      exact Or.inr ⟨by omega, by omega⟩

/-- In a window there is one more character for each mark from its end on. The offset `r` in the text
and the offset `f` in the full text are the same until the end of the window. -/
theorem length_render (hreg : ∀ p ∈ ps, p.Regular) {r f : ℕ} (hle : f ≤ r) (heq : r = f ∨ n ≤ f) :
    (render (fun k => decide (k < n)) r ps).length =
      (full ps).length + (marks f ps).countP (n ≤ ·) := by
  induction ps generalizing r f with
  | nil => rfl
  | cons p ps ih =>
    have hreg' : ∀ q ∈ ps, q.Regular := fun q hq => hreg q (mem_cons_of_mem _ hq)
    rw [render, full, marks, length_append, length_append, countP_append]
    by_cases hask : f + p.head.length < n
    · -- There is room, and so there is for the full text.
      have hroom : decide (r + p.head.length < n) = true := decide_eq_true (by omega)
      have hmark : (if p.Slips then [f + p.head.length] else []).countP (n ≤ ·) = 0 := by
        split_ifs
        · exact countP_eq_zero.mpr fun m hm => by simp at hm; simp; omega
        · rfl
      rw [hroom, hmark, ih hreg' (f := f + (p.text true).length) (by omega) (by omega)]
      omega
    · have hroom : decide (r + p.head.length < n) = false := decide_eq_false (by omega)
      rw [hroom]
      rcases hreg p mem_cons_self with hsame | ⟨hlonger, -⟩
      · have hnot : ¬p.Slips := by
          unfold Slips
          rw [hsame]
          exact lt_irrefl _
        have htext : p.text false = p.text true := by rw [text, text, hsame]
        have hlen := p.length_text true
        rw [if_neg hnot, htext, ih hreg' (f := f + (p.text true).length) (by omega) (by omega)]
        simp only [countP_nil]
        omega
      · have hslips : p.Slips := by
          unfold Slips
          omega
        have hlen := p.length_text true
        have hlen' := p.length_text false
        have hmark : [f + p.head.length].countP (n ≤ ·) = 1 := by
          simp only [countP_singleton, decide_eq_true_eq]
          exact if_pos (by omega)
        rw [if_pos hslips, hmark, ih hreg' (f := f + (p.text true).length) (by omega) (by omega)]
        omega

theorem render_eq_full (hreg : ∀ p ∈ ps, p.Regular) (hmarks : ∀ m ∈ marks off ps, room m = true) :
    render room off ps = full ps := by
  induction ps generalizing off with
  | nil => rfl
  | cons p ps ih =>
    have hreg' : ∀ q ∈ ps, q.Regular := fun q hq => hreg q (mem_cons_of_mem _ hq)
    have hmarks' : ∀ m ∈ marks (off + (p.text true).length) ps, room m = true := fun m hm =>
      hmarks m (mem_append_right _ hm)
    have htext : p.text (room (off + p.head.length)) = p.text true := by
      rcases hreg p mem_cons_self with hsame | ⟨hlonger, -⟩
      · cases room (off + p.head.length) with
        | false => rw [text, text, hsame]
        | true => rfl
      · have hslips : p.Slips := by
          unfold Slips
          omega
        have hmem : off + p.head.length ∈ marks off (p :: ps) := by
          refine mem_append_left _ ?_
          rw [if_pos hslips]
          exact mem_singleton_self _
        rw [hmarks _ hmem]
    rw [render, full, htext, ih hreg' hmarks']

/-- A text is longer than the full text by the number of its marks at most. -/
theorem length_render_le (hreg : ∀ p ∈ ps, p.Regular) {r f : ℕ} :
    (render room r ps).length ≤ (full ps).length + (marks f ps).length := by
  induction ps generalizing r f with
  | nil => exact le_refl _
  | cons p ps ih =>
    have hreg' : ∀ q ∈ ps, q.Regular := fun q hq => hreg q (mem_cons_of_mem _ hq)
    rw [render, full, marks, length_append, length_append, length_append]
    generalize room (r + p.head.length) = answer
    have hrest : (render room (r + (p.text answer).length) ps).length ≤
        (full ps).length + (marks (f + (p.text true).length) ps).length := ih hreg'
    have htext : (p.text answer).length ≤
        (p.text true).length + (if p.Slips then [f + p.head.length] else []).length := by
      cases answer with
      | true => exact Nat.le_add_right _ _
      | false =>
        rw [length_text, length_text]
        rcases hreg p mem_cons_self with hsame | ⟨hlonger, -⟩
        · rw [hsame]
          exact Nat.le_add_right _ _
        · have hslips : p.Slips := by
            unfold Slips
            omega
          rw [if_pos hslips, length_singleton]
          omega
    omega

theorem length_marks_le (hreg : ∀ p ∈ ps, p.Regular) : (marks off ps).length ≤ (full ps).length := by
  induction ps generalizing off with
  | nil => exact le_refl _
  | cons p ps ih =>
    have hrest : (marks (off + (p.text true).length) ps).length ≤ (full ps).length :=
      ih fun q hq => hreg q (mem_cons_of_mem _ hq)
    rw [marks, full, length_append, length_append]
    split_ifs with hslips
    · rcases hreg p mem_cons_self with hsame | ⟨-, hne⟩
      · unfold Slips at hslips
        rw [hsame] at hslips
        exact absurd hslips (lt_irrefl _)
      · have hpos := length_pos_iff.mpr hne
        have hlen := p.length_text true
        rw [length_singleton]
        omega
    · rw [length_nil]
      omega

theorem lt_of_mem_marks (hreg : ∀ p ∈ ps, p.Regular) {m : ℕ} (hm : m ∈ marks off ps) :
    m < off + (full ps).length := by
  induction ps generalizing off with
  | nil => exact absurd hm not_mem_nil
  | cons p ps ih =>
    have hlen := p.length_text true
    rw [full, length_append]
    rcases mem_append.mp hm with hfirst | hrest
    · split_ifs at hfirst with hslips
      · rcases hreg p mem_cons_self with hsame | ⟨-, hne⟩
        · unfold Slips at hslips
          rw [hsame] at hslips
          exact absurd hslips (lt_irrefl _)
        · have hpos := length_pos_iff.mpr hne
          rw [mem_singleton.mp hfirst]
          omega
      · exact absurd hfirst not_mem_nil
    · have hlt := ih (fun q hq => hreg q (mem_cons_of_mem _ hq)) hrest
      omega

theorem length_text_le {p : Piece χ} (hp : p ∈ ps) : (p.text true).length ≤ (full ps).length := by
  induction ps with
  | nil => exact absurd hp not_mem_nil
  | cons q ps ih =>
    rw [full, length_append]
    rcases mem_cons.mp hp with rfl | hmem
    · exact Nat.le_add_right _ _
    · exact le_trans (ih hmem) (Nat.le_add_left _ _)

end

end RtThread.Lib
