import Mathlib.Data.List.Pairwise
import Mathlib.Data.List.TakeWhile
import RtThread.Lib.Word

/-!
# Agendas

An agenda is a clock that counts without a bound, with a deadline for each item and the number of
its last start. A list is in the agenda's order if deadlines increase along it and equal deadlines
stand in the order of the starts. Starting an item puts it behind the items that are due no later
(`insertWhile`), which keeps the order. In an ordered list the items that are due form a prefix.

A program reads the clock and the deadlines modulo `2^32` and compares by the sign of their
difference. On items within half the range of the clock the two comparisons agree
(`sub32_mod_lt_iff`).
-/

namespace RtThread.Lib

open Function List

variable {α : Type*}

/-- A wrapping difference of wrapped numbers that are close enough has the sign of the difference.
-/
theorem sub32_mod_lt_iff {a b half : ℕ} (hab : a < b + half) (hba : b ≤ a + (2^32 - half))
    (hhalf : half ≤ 2^32) : sub32 (a % 2^32) (b % 2^32) < half ↔ b ≤ a := by
  unfold sub32
  omega

/-! ## Stable insertion -/

/-- The list with `a` put before its first element that fails `p`. -/
def insertWhile (p : α → Bool) (a : α) (l : List α) : List α := l.takeWhile p ++ a :: l.dropWhile p

variable {p : α → Bool} {a b : α} {l : List α}

theorem insertWhile_cons_of_pos (hb : p b = true) :
    insertWhile p a (b :: l) = b :: insertWhile p a l := by
  simp [insertWhile, hb]

theorem insertWhile_cons_of_neg (hb : p b = false) : insertWhile p a (b :: l) = a :: b :: l := by
  simp [insertWhile, hb]

theorem mem_insertWhile : b ∈ insertWhile p a l ↔ b = a ∨ b ∈ l := by
  unfold insertWhile
  rw [mem_append, mem_cons, or_left_comm, ← mem_append, takeWhile_append_dropWhile]

theorem insertWhile_congr {q : α → Bool} (h : ∀ b ∈ l, p b = q b) :
    insertWhile p a l = insertWhile q a l := by
  induction l with
  | nil => rfl
  | cons b l ih =>
    have ih := ih fun c hc => h c (mem_cons_of_mem _ hc)
    have hb := h b mem_cons_self
    cases hq : q b with
    | true => rw [insertWhile_cons_of_pos (hb.trans hq), insertWhile_cons_of_pos hq, ih]
    | false => rw [insertWhile_cons_of_neg (hb.trans hq), insertWhile_cons_of_neg hq]

/-- An insertion keeps an order in which the elements with `p` come before `a` and the others after
it, and which has no element without `p` before one with it. -/
theorem pairwise_insertWhile {R : α → α → Prop} (hl : l.Pairwise R)
    (hbefore : ∀ b ∈ l, p b = true → R b a) (hafter : ∀ b ∈ l, p b = false → R a b)
    (hmono : ∀ b ∈ l, ∀ c ∈ l, R b c → p c = true → p b = true) : (insertWhile p a l).Pairwise R := by
  induction l with
  | nil => exact pairwise_singleton R a
  | cons b l ih =>
    have hmem : ∀ {c}, c ∈ l → c ∈ b :: l := mem_cons_of_mem _
    obtain ⟨hb, hl⟩ := pairwise_cons.mp hl
    cases hp : p b with
    | true =>
      rw [insertWhile_cons_of_pos hp, pairwise_cons]
      constructor
      · intro c hc
        rcases mem_insertWhile.mp hc with rfl | hc
        · exact hbefore b mem_cons_self hp
        · exact hb c hc
      · exact ih hl (fun c hc => hbefore c (hmem hc)) (fun c hc => hafter c (hmem hc))
          fun c hc d hd => hmono c (hmem hc) d (hmem hd)
    | false =>
      -- What follows an element without `p` is without it too.
      rw [insertWhile_cons_of_neg hp, pairwise_cons]
      refine ⟨fun c hc => hafter c hc ?_, pairwise_cons.mpr ⟨hb, hl⟩⟩
      rcases mem_cons.mp hc with rfl | hcl
      · exact hp
      · cases hpc : p c with
        | false => rfl
        | true => exact absurd (hmono b mem_cons_self c hc (hb c hcl) hpc) (by simp [hp])

theorem insertWhile_append (hl : ∀ b ∈ l, p b = true) (l' : List α) :
    insertWhile p a (l ++ l') = l ++ insertWhile p a l' := by
  unfold insertWhile
  rw [takeWhile_append_of_pos hl, dropWhile_append_of_pos hl, append_assoc]

theorem filter_insertWhile {q : α → Bool} (l : List α) (ha : q a = false) :
    (insertWhile p a l).filter q = l.filter q := by
  unfold insertWhile
  rw [filter_append, filter_cons_of_neg (by simp [ha]), ← filter_append,
    takeWhile_append_dropWhile]

/-! ## The order of an agenda -/

/-- A clock with a deadline for each item and the number of its last start. -/
structure Agenda (α : Type*) where
  now : ℕ
  deadline : α → ℕ
  number : α → ℕ
  /-- The number of starts so far. -/
  count : ℕ

namespace Agenda

variable {g : Agenda α} {a b : α} {l : List α}

/-- The item `a` is due before `b`, or with it and was started before it. -/
def Before (g : Agenda α) (a b : α) : Prop :=
  g.deadline a < g.deadline b ∨ g.deadline a = g.deadline b ∧ g.number a < g.number b

/-- The deadline of the item has been reached. -/
def due (g : Agenda α) (a : α) : Bool := g.deadline a ≤ g.now

/-- The clock goes on. -/
def advance (g : Agenda α) : Agenda α := { g with now := g.now + 1 }

/-- Starting an item, which is due after `time`. -/
def start [DecidableEq α] (g : Agenda α) (a : α) (time : ℕ) : Agenda α where
  now := g.now
  deadline := update g.deadline a (g.now + time)
  number := update g.number a g.count
  count := g.count + 1

theorem start_deadline_of_ne [DecidableEq α] (time : ℕ) (h : b ≠ a) :
    (g.start a time).deadline b = g.deadline b := update_of_ne h ..

theorem start_deadline_self [DecidableEq α] (time : ℕ) : (g.start a time).deadline a = g.now + time :=
  update_self ..

/-- The list is in the order of the agenda, with numbers that have been given out. -/
structure Sorted (g : Agenda α) (l : List α) : Prop where
  order : l.Pairwise g.Before
  number_lt : ∀ a ∈ l, g.number a < g.count

namespace Sorted

theorem nil (g : Agenda α) : g.Sorted [] := ⟨List.Pairwise.nil, by simp⟩

theorem sublist {l' : List α} (h : g.Sorted l) (hl : l'.Sublist l) : g.Sorted l' :=
  ⟨h.order.sublist hl, fun a ha => h.number_lt a (hl.subset ha)⟩

theorem advance (h : g.Sorted l) : g.advance.Sorted l := ⟨h.order, h.number_lt⟩

theorem filter_due_eq_nil (h : g.Sorted (a :: l)) (ha : g.due a = false) : (a :: l).filter g.due = [] := by
  rw [filter_eq_nil_iff]
  intro b hb
  have hnow : g.now < g.deadline a := by simpa [due] using ha
  have hle : g.deadline a ≤ g.deadline b := by
    rcases mem_cons.mp hb with rfl | hb
    · exact le_rfl
    · rcases (pairwise_cons.mp h.order).1 b hb with hlt | ⟨heq, -⟩
      · exact hlt.le
      · exact heq.le
  simp only [due, decide_eq_true_eq]
  omega

/-- A started item goes behind the items that are due no later. -/
theorem start [DecidableEq α] (h : g.Sorted l) (ha : a ∉ l) (time : ℕ) :
    (g.start a time).Sorted (insertWhile (fun b => g.deadline b ≤ g.now + time) a l) := by
  have hne : ∀ {b}, b ∈ l → b ≠ a := fun hb heq => ha (heq ▸ hb)
  have hdeadline : ∀ {b}, b ∈ l → (g.start a time).deadline b = g.deadline b := fun hb =>
    start_deadline_of_ne time (hne hb)
  have hnumber : ∀ {b}, b ∈ l → (g.start a time).number b = g.number b := fun hb =>
    update_of_ne (hne hb) ..
  have hself : (g.start a time).deadline a = g.now + time ∧ (g.start a time).number a = g.count :=
    ⟨start_deadline_self time, update_self ..⟩
  constructor
  · -- The other items keep their order among themselves, and `a` has the last number.
    have hold : l.Pairwise (g.start a time).Before := by
      refine h.order.imp_of_mem fun {b c} hb hc hbc => ?_
      unfold Before
      rwa [hdeadline hb, hdeadline hc, hnumber hb, hnumber hc]
    refine pairwise_insertWhile hold ?_ ?_ ?_
    · intro b hb hle
      have hlt := h.number_lt b hb
      unfold Before
      rw [hdeadline hb, hnumber hb, hself.1, hself.2]
      rw [decide_eq_true_eq] at hle
      omega
    · intro b hb hgt
      unfold Before
      rw [hdeadline hb, hself.1]
      rw [decide_eq_false_iff_not] at hgt
      omega
    · intro b hb c hc hbc hle
      unfold Before at hbc
      rw [hdeadline hb, hdeadline hc] at hbc
      rw [decide_eq_true_eq] at hle ⊢
      omega
  · intro b hb
    change _ < g.count + 1
    rcases mem_insertWhile.mp hb with rfl | hb
    · rw [hself.2]
      omega
    · rw [hnumber hb]
      have := h.number_lt b hb
      omega

end Sorted

end Agenda

end RtThread.Lib
