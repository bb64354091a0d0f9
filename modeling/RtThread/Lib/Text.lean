import Mathlib.Data.List.Basic

/-!
# Texts in memory

A memory maps addresses to characters of some kind, and one of them, `nul`, ends a text. `slice m a n`
are the `n` characters from `a` on. `StringAt` says that a text is at an address and ends there, and
`LineAt` that it is a string in the sense of C, that is, without an earlier `nul`.
-/

namespace RtThread.Lib

open Function List

variable {α : Type*} {m m' : ℕ → α} {a b n : ℕ} {nul c : α} {l l' : List α}

/-- The `n` characters from `a` on. -/
def slice (m : ℕ → α) (a : ℕ) : ℕ → List α
  | 0 => []
  | n + 1 => m a :: slice m (a + 1) n

@[simp] theorem length_slice (m : ℕ → α) (a n : ℕ) : (slice m a n).length = n := by
  induction n generalizing a with
  | zero => rfl
  | succ n ih => rw [slice, length_cons, ih]

theorem slice_add (m : ℕ → α) (a n k : ℕ) : slice m a (n + k) = slice m a n ++ slice m (a + n) k := by
  induction n generalizing a with
  | zero => rw [Nat.zero_add, Nat.add_zero, slice, nil_append]
  | succ n ih =>
    rw [Nat.add_right_comm, slice, ih, slice, cons_append, Nat.add_assoc a 1, Nat.add_comm 1]

/-- Two memories that agree along two ranges have the same characters there. -/
theorem slice_congr (h : ∀ k < n, m (a + k) = m' (b + k)) : slice m a n = slice m' b n := by
  induction n generalizing a b with
  | zero => rfl
  | succ n ih =>
    have hhead : m a = m' b := h 0 (by omega)
    rw [slice, slice, hhead]
    congr 1
    apply ih
    intro k hk
    have := h (k + 1) (by omega)
    rwa [← Nat.add_assoc, ← Nat.add_assoc, Nat.add_right_comm a, Nat.add_right_comm b] at this

theorem slice_append_iff : slice m a (l ++ l').length = l ++ l' ↔
    slice m a l.length = l ∧ slice m (a + l.length) l'.length = l' := by
  rw [length_append, slice_add]
  constructor
  · intro h
    exact append_inj h (length_slice ..)
  · rintro ⟨h, h'⟩
    rw [h, h']

/-- The memory has the text `l` at the address `a`, and its end behind it. -/
def StringAt (nul : α) (m : ℕ → α) (a : ℕ) (l : List α) : Prop :=
  slice m a l.length = l ∧ m (a + l.length) = nul

/-- A text that does not end earlier. -/
structure LineAt (nul : α) (m : ℕ → α) (a : ℕ) (l : List α) : Prop where
  string : StringAt nul m a l
  nonzero : nul ∉ l

theorem lineAt_nil_iff : LineAt nul m a [] ↔ m a = nul :=
  ⟨fun h => h.string.2, fun h => ⟨⟨rfl, h⟩, by simp⟩⟩

theorem lineAt_cons_iff : LineAt nul m a (c :: l) ↔ m a = c ∧ c ≠ nul ∧ LineAt nul m (a + 1) l := by
  constructor
  · rintro ⟨⟨hread, hend⟩, hnonzero⟩
    rw [length_cons, slice, cons.injEq] at hread
    rw [length_cons, ← Nat.add_assoc, Nat.add_right_comm] at hend
    rw [mem_cons, not_or] at hnonzero
    exact ⟨hread.1, hnonzero.1 ∘ Eq.symm, ⟨hread.2, hend⟩, hnonzero.2⟩
  · rintro ⟨hc, hne, ⟨hread, hend⟩, hnonzero⟩
    refine ⟨⟨?_, ?_⟩, ?_⟩
    · rw [length_cons, slice, hc, hread]
    · rw [length_cons, ← Nat.add_assoc, Nat.add_right_comm]
      exact hend
    · rw [mem_cons, not_or]
      exact ⟨hne.symm, hnonzero⟩

theorem LineAt.of_append (h : LineAt nul m a (l ++ l')) :
    slice m a l.length = l ∧ LineAt nul m (a + l.length) l' := by
  induction l generalizing a with
  | nil => exact ⟨rfl, h⟩
  | cons c l ih =>
    obtain ⟨hc, -, htail⟩ := lineAt_cons_iff.mp h
    obtain ⟨hread, hline⟩ := ih htail
    rw [length_cons, slice, hc, hread, ← Nat.add_assoc, Nat.add_right_comm]
    exact ⟨rfl, hline⟩

theorem StringAt.congr (h : StringAt nul m a l)
    (hm : ∀ x, a ≤ x → x ≤ a + l.length → m' x = m x) : StringAt nul m' a l := by
  constructor
  · rw [← h.1, length_slice]
    exact slice_congr fun k hk => hm _ (by omega) (by omega)
  · rw [hm _ (by omega) (by omega)]
    exact h.2

theorem LineAt.congr (h : LineAt nul m a l) (hm : ∀ x, a ≤ x → m' x = m x) : LineAt nul m' a l :=
  ⟨h.string.congr fun x hx _ => hm x hx, h.nonzero⟩

/-- What is written in front of a line does not change it. -/
theorem LineAt.update (h : LineAt nul m a l) (hb : b < a) : LineAt nul (update m b c) a l :=
  h.congr fun _ hx => update_of_ne (by omega) _ _

theorem slice_update_append (h : slice m a l.length = l) :
    slice (update m (a + l.length) c) a (l ++ [c]).length = l ++ [c] := by
  rw [length_append, length_singleton, slice_add]
  congr 1
  · rw [← h, length_slice]
    exact slice_congr fun k hk => update_of_ne (by omega) _ _
  · show [update m (a + l.length) c (a + l.length)] = [c]
    rw [update_self]

theorem stringAt_update_end (h : slice m a l.length = l) :
    StringAt nul (update m (a + l.length) nul) a l :=
  ⟨(slice_append_iff.mp (slice_update_append h)).1, update_self ..⟩

theorem slice_eq_iff : slice m a l.length = l ↔ ∀ k (hk : k < l.length), m (a + k) = l[k] := by
  induction l generalizing a with
  | nil => simp [slice]
  | cons c l ih =>
    have hcons : slice m a (c :: l).length = c :: l ↔ m a = c ∧ slice m (a + 1) l.length = l := by
      rw [length_cons, slice, cons.injEq]
    rw [hcons, ih]
    constructor
    · rintro ⟨hhead, htail⟩ k hk
      cases k with
      | zero => exact hhead
      | succ k =>
        have := htail k (by simpa using hk)
        rwa [Nat.add_right_comm, Nat.add_assoc] at this
    · intro h
      refine ⟨h 0 (by simp), fun k hk => ?_⟩
      have := h (k + 1) (by simpa using hk)
      rwa [← Nat.add_assoc, Nat.add_right_comm] at this

end RtThread.Lib
