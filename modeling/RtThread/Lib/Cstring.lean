import Mathlib.Data.List.Infix

/-!
# Zero-terminated strings

A string is read character by character up to its first zero, so the functions of the C library that
compare strings are functions of the lists of their characters, where behind the end of a list there
is a zero. A `Cstring` has no other zero. On these, `strcmp` decides equality (`strcmp_eq_zero_iff`),
and `strncmp` decides whether the first characters agree (`strncmp_eq_zero_iff`).
-/

namespace RtThread.Lib

open List

/-- The characters of a string in front of its zero. -/
structure Cstring where
  chars : List Char
  zero_notMem : '\x00' ∉ chars
  deriving DecidableEq

theorem Cstring.ext {s t : Cstring} (h : s.chars = t.chars) : s = t := by
  cases s
  cases t
  subst h
  rfl

/-- The first character of a string, which is zero at its end. -/
def firstChar (s : List Char) : Char := s.headD '\x00'

/-- `strcmp`: the difference of the first two characters that differ. -/
def strcmp : List Char → List Char → ℤ
  | [], t => -((firstChar t).toNat : ℤ)
  | c :: s, t =>
    if c ≠ firstChar t then (c.toNat : ℤ) - (firstChar t).toNat
    else if c = '\x00' then 0
    else strcmp s t.tail

/-- `strncmp`: the same among the first `n` characters. -/
def strncmp : List Char → List Char → ℕ → ℤ
  | _, _, 0 => 0
  | [], t, _ + 1 => -((firstChar t).toNat : ℤ)
  | c :: s, t, n + 1 =>
    if c ≠ firstChar t then (c.toNat : ℤ) - (firstChar t).toNat
    else if c = '\x00' then 0
    else strncmp s t.tail n

theorem toNat_sub_toNat_ne_zero {c d : Char} (h : c ≠ d) : (c.toNat : ℤ) - d.toNat ≠ 0 := by
  intro hsub
  have heq : c.toNat = d.toNat := by omega
  exact h (Char.toNat_inj.mp heq)

theorem firstChar_toNat_eq_zero_iff {t : List Char} (ht : '\x00' ∉ t) :
    -((firstChar t).toNat : ℤ) = 0 ↔ t = [] := by
  cases t with
  | nil => simp [firstChar]
  | cons d t =>
    have hd : d ≠ '\x00' := fun h => ht (h ▸ mem_cons_self)
    have hsub := toNat_sub_toNat_ne_zero hd
    have hzero : '\x00'.toNat = 0 := rfl
    have hne : -(d.toNat : ℤ) ≠ 0 := by omega
    simpa [firstChar] using hne

variable {s t : List Char}

theorem strcmp_eq_zero_iff (hs : '\x00' ∉ s) (ht : '\x00' ∉ t) : strcmp s t = 0 ↔ s = t := by
  induction s generalizing t with
  | nil =>
    rw [strcmp, firstChar_toNat_eq_zero_iff ht]
    exact eq_comm
  | cons c s ih =>
    obtain ⟨hc, hs⟩ := ne_and_not_mem_of_not_mem_cons hs
    cases t with
    | nil =>
      have hsub := toNat_sub_toNat_ne_zero (Ne.symm hc)
      simp [strcmp, firstChar, Ne.symm hc] at hsub ⊢
      exact hsub
    | cons d t =>
      obtain ⟨-, htail⟩ := ne_and_not_mem_of_not_mem_cons ht
      by_cases hcd : c = d
      · subst hcd
        simp [strcmp, firstChar, Ne.symm hc, ih hs htail]
      · simp [strcmp, firstChar, hcd, toNat_sub_toNat_ne_zero hcd]

theorem Cstring.strcmp_eq_zero_iff {s t : Cstring} : strcmp s.chars t.chars = 0 ↔ s = t := by
  rw [Lib.strcmp_eq_zero_iff s.zero_notMem t.zero_notMem]
  exact ⟨Cstring.ext, congrArg Cstring.chars⟩

theorem strncmp_eq_zero_iff {n : ℕ} (hs : '\x00' ∉ s) (ht : '\x00' ∉ t) :
    strncmp s t n = 0 ↔ s.take n = t.take n := by
  induction s generalizing t n with
  | nil =>
    cases n with
    | zero => simp [strncmp]
    | succ n =>
      rw [strncmp, firstChar_toNat_eq_zero_iff ht, take_nil,
        @eq_comm _ [] (t.take (n + 1)), take_eq_nil_iff]
      simp
  | cons c s ih =>
    obtain ⟨hc, hs⟩ := ne_and_not_mem_of_not_mem_cons hs
    cases n with
    | zero => simp [strncmp]
    | succ n =>
      cases t with
      | nil =>
        have hsub := toNat_sub_toNat_ne_zero (Ne.symm hc)
        simp [strncmp, firstChar, Ne.symm hc] at hsub ⊢
        exact hsub
      | cons d t =>
        obtain ⟨-, htail⟩ := ne_and_not_mem_of_not_mem_cons ht
        by_cases hcd : c = d
        · subst hcd
          simp [strncmp, firstChar, Ne.symm hc, ih hs htail]
        · simp [strncmp, firstChar, hcd, toNat_sub_toNat_ne_zero hcd]

/-- Compared up to the length of the second string, `strncmp` only asks whether the first one begins
with it. -/
theorem strncmp_length_eq_zero_iff (hs : '\x00' ∉ s) (ht : '\x00' ∉ t) :
    strncmp s t t.length = 0 ↔ t <+: s := by
  rw [strncmp_eq_zero_iff hs ht, take_length, prefix_iff_eq_take]
  exact eq_comm

/-- Compared up to the length of the first string, whether the second one begins with it. -/
theorem strncmp_length_left (hs : '\x00' ∉ s) (ht : '\x00' ∉ t) :
    strncmp s t s.length = 0 ↔ s <+: t := by
  rw [strncmp_eq_zero_iff hs ht, take_length, prefix_iff_eq_take]

end RtThread.Lib
