import Mathlib.Algebra.BigOperators.Group.List.Basic
import Mathlib.Tactic.Linarith

/-!
# The height of a stack

A gauge follows the height of a stack, the lowest slot that has been taken off it, and the largest
height. An operation takes some slots off and puts some on. `height` runs operations on a height that
must not become negative; it tells when a gauge goes below where it was
(`Gauge.run_of_height`, `Gauge.low_lt_of_height`). How far the gauge goes up, and how far it goes in
all, is bounded by sums over the operations (`Gauge.high_run_le`, `Gauge.span_run_le`).
-/

namespace RtThread.Lib

open List

/-- An operation on a stack: it takes slots off and puts slots on. -/
structure Effect where
  takes : ℕ
  gives : ℕ
  deriving DecidableEq

/-- By how much an operation changes the height. -/
def Effect.swing (e : Effect) : ℕ := (e.gives - e.takes) + (e.takes - e.gives)

/-- The height of a stack, the lowest slot taken off, and the largest height. -/
structure Gauge where
  sp : ℤ
  low : ℤ
  high : ℤ
  low_le : low ≤ sp
  le_high : sp ≤ high

namespace Gauge

/-- The gauge at a height, with nothing seen before. -/
def level (sp : ℤ) : Gauge := ⟨sp, sp, sp, le_rfl, le_rfl⟩

variable (g : Gauge)

/-- Slots are taken off. -/
def take (k : ℕ) : Gauge where
  sp := g.sp - k
  low := min g.low (g.sp - k)
  high := g.high
  low_le := min_le_right _ _
  le_high := by
    have := g.le_high
    omega

/-- Slots are put on. -/
def put (k : ℕ) : Gauge where
  sp := g.sp + k
  low := g.low
  high := max g.high (g.sp + k)
  low_le := by
    have := g.low_le
    omega
  le_high := le_max_right _ _

/-- The operation on the gauge. -/
def apply (e : Effect) : Gauge := (g.take e.takes).put e.gives

/-- The operations one after the other. -/
def run (es : List Effect) : Gauge := es.foldl apply g

@[simp] theorem take_zero : g.take 0 = g := by
  have h := g.low_le
  simp [take, min_eq_left h]

@[simp] theorem put_zero : g.put 0 = g := by
  have h := g.le_high
  simp [put, max_eq_left h]

@[simp] theorem run_nil : g.run [] = g := rfl

@[simp] theorem run_cons (e : Effect) (es : List Effect) :
    g.run (e :: es) = (g.apply e).run es := rfl

end Gauge

/-! ## Heights -/

/-- The height after an operation, if there are slots enough. -/
def Effect.on (e : Effect) (k : ℕ) : Option ℕ :=
  if e.takes ≤ k then some (k - e.takes + e.gives) else none

/-- The height after operations, if there are always slots enough. -/
def height : List Effect → ℕ → Option ℕ
  | [], k => some k
  | e :: es, k => (e.on k).bind (height es)

@[simp] theorem height_nil (k : ℕ) : height [] k = some k := rfl

@[simp] theorem height_cons (e : Effect) (es : List Effect) (k : ℕ) :
    height (e :: es) k = (e.on k).bind (height es) := rfl

theorem height_append (es es' : List Effect) (k : ℕ) :
    height (es ++ es') k = (height es k).bind (height es') := by
  induction es generalizing k with
  | nil => rfl
  | cons e es ih =>
    rw [cons_append, height_cons, height_cons, Option.bind_assoc]
    congr 1
    funext k
    exact ih k

namespace Gauge

variable {g : Gauge} {es : List Effect} {base : ℤ} {k k' : ℕ}

theorem low_run_le (g : Gauge) (es : List Effect) : (g.run es).low ≤ g.low := by
  induction es generalizing g with
  | nil => exact le_rfl
  | cons e es ih => exact (ih (g.apply e)).trans (min_le_left _ _)

/-- As long as there are slots enough, the gauge stays above where it started to count. -/
theorem run_of_height (hsp : g.sp = base + k) (h : height es k = some k') :
    (g.run es).sp = base + k' ∧ min g.low base ≤ (g.run es).low := by
  induction es generalizing g k with
  | nil =>
    obtain rfl : k = k' := Option.some.inj h
    exact ⟨hsp, min_le_left _ _⟩
  | cons e es ih =>
    obtain ⟨j, hj, hrest⟩ := Option.bind_eq_some_iff.mp h
    unfold Effect.on at hj
    split_ifs at hj with hle
    obtain rfl := Option.some.inj hj
    have hnext : (g.apply e).sp = base + ((k - e.takes + e.gives : ℕ) : ℤ) := by
      show g.sp - e.takes + e.gives = _
      push_cast [hle]
      omega
    obtain ⟨hsp', hlow⟩ := ih hnext hrest
    refine ⟨hsp', le_trans ?_ hlow⟩
    show min g.low base ≤ min (min g.low (g.sp - e.takes)) base
    omega

/-- If there are not slots enough, the gauge goes below where it started to count. -/
theorem low_lt_of_height (hsp : g.sp = base + k) (h : height es k = none) :
    (g.run es).low < base := by
  induction es generalizing g k with
  | nil => cases h
  | cons e es ih =>
    by_cases hle : e.takes ≤ k
    · rw [height_cons, Effect.on, if_pos hle] at h
      refine ih ?_ h
      show g.sp - e.takes + e.gives = _
      push_cast [hle]
      omega
    · refine (low_run_le (g.apply e) es).trans_lt ?_
      show min g.low (g.sp - e.takes) < base
      omega

theorem height_eq_some_iff (base : ℤ) : height es 0 = some k' ↔
      ((level base).run es).sp = base + k' ∧ base ≤ ((level base).run es).low := by
  have hstart : (level base).sp = base + ((0 : ℕ) : ℤ) := by simp [level]
  constructor
  · intro h
    obtain ⟨hsp, hlow⟩ := run_of_height hstart h
    exact ⟨hsp, by simpa [level] using hlow⟩
  · rintro ⟨hsp, hlow⟩
    cases h : height es 0 with
    | none =>
      have hlt := low_lt_of_height hstart h
      omega
    | some j =>
      have hj := (run_of_height hstart h).1
      rw [hsp] at hj
      have : k' = j := by omega
      rw [this]

/-! ## Bounds -/

/-- The heights are in an interval that grows by no more than what the operations change, and the
slots taken off are at most one below it. -/
theorem span_run_le_aux {l : ℤ} {d : ℕ} (hgives : ∀ e ∈ es, e.gives ≤ 1) (hsp : l ≤ g.sp)
    (hlow : l - 1 ≤ g.low) (hhigh : g.high ≤ l + d) :
    (g.run es).high ≤ (g.run es).low + (d + (es.map Effect.swing).sum + 1 : ℕ) := by
  induction es generalizing g l d with
  | nil =>
    simp only [run_nil, map_nil, sum_nil]
    push_cast
    omega
  | cons e es ih =>
    have he := hgives e mem_cons_self
    have hrest := fun e' he' => hgives e' (mem_cons_of_mem _ he')
    have hle := g.le_high
    have hnext : min l (g.apply e).sp - 1 ≤ (g.apply e).low := by
      simp only [apply, take, put]
      omega
    have htop : (g.apply e).high ≤ min l (g.apply e).sp + (d + e.swing : ℕ) := by
      simp only [apply, take, put, Effect.swing]
      omega
    have hstep := ih hrest (min_le_right _ _) hnext htop
    simp only [run_cons, map_cons, sum_cons]
    omega

/-- The slots in use are no more than what the operations change, and one. -/
theorem span_run_le (hgives : ∀ e ∈ es, e.gives ≤ 1) :
    ((level base).run es).high ≤ ((level base).run es).low + ((es.map Effect.swing).sum + 1 : ℕ) := by
  have h := span_run_le_aux (g := level base) (l := base) (d := 0) hgives le_rfl
    (by simp [level]) (by simp [level])
  rwa [Nat.zero_add] at h

end Gauge

end RtThread.Lib
