import RtThread.Lib.Fields

/-!
# Paths of the file system

What a path stands for: the names between its slashes, walked through one after the other. `.` stays
where it is and `..` goes back by one name; a `..` that has no name to go back by climbs above the root.
`canonical` is the text of the names that are left, and `normalized` the text that `dfs_normalize_path`
makes of a path. The two agree unless the path climbs (`normalized_eq_canonical`); with one climb the
text has no slash in front.
-/

namespace RtThread.Dfs

open Lib List

/-- The separator of names. -/
def isSlash (c : Char) : Bool := c = '/'

variable (path : List Char)

/-- The names of a path, between its slashes. -/
abbrev names : List (List Char) := fields isSlash path

/-- Where a walk has come to: the names below the root, and how often it has climbed above the root. -/
structure Walk where
  stack : List (List Char)
  climbs : ℕ
  deriving DecidableEq

namespace Walk

/-- The walk begins at the root. -/
def root : Walk := { stack := [], climbs := 0 }

/-- One name: `.` stays, `..` goes back or climbs, and any other name is added. -/
def step (w : Walk) (name : List Char) : Walk :=
  if name = ['.'] then w
  else if name = ['.', '.'] then
    if w.stack = [] then { w with climbs := w.climbs + 1 } else { w with stack := w.stack.dropLast }
  else { w with stack := w.stack ++ [name] }

end Walk

/-- Where a path leads to. -/
def resolve : Walk := (names path).foldl Walk.step .root

variable (stack : List (List Char))

/-- The text of an absolute path with these names. -/
def rendered : List Char :=
  if stack = [] then ['/'] else stack.flatMap ('/' :: ·)

/-- The text of the place that a path leads to. -/
def canonical : List Char := rendered (resolve path).stack

/-- What is left of a path after it has climbed once: the names without a slash in front. -/
def rootless : List Char :=
  if stack = [] then ['/'] else (stack.flatMap (· ++ ['/'])).dropLast

/-- What `dfs_normalize_path` makes of a path, and nothing if it climbs twice. -/
def normalized : Option (List Char) :=
  match (resolve path).climbs with
  | 0 => some (canonical path)
  | 1 => some (rootless (resolve path).stack)
  | _ => none

/-- A name that a walk adds. -/
def Proper (name : List Char) : Prop :=
  name ≠ [] ∧ '/' ∉ name ∧ name ≠ ['.'] ∧ name ≠ ['.', '.']

instance : DecidablePred Proper := fun name =>
  inferInstanceAs (Decidable (name ≠ [] ∧ '/' ∉ name ∧ name ≠ ['.'] ∧ name ≠ ['.', '.']))

/-- A canonical path: a slash in front of each name, and the root alone is a slash. -/
def Canonical : Prop := ∃ stack, (∀ n ∈ stack, Proper n) ∧ path = rendered stack

/-! ## Walks -/

theorem isSlash_eq_true_iff {c : Char} : isSlash c = true ↔ c = '/' := by simp [isSlash]

theorem isSlash_eq_false_iff {c : Char} : isSlash c = false ↔ c ≠ '/' := by simp [isSlash]

namespace Walk

variable {w : Walk} {name : List Char} {l : List (List Char)}

theorem step_of_proper (h : Proper name) : w.step name = { w with stack := w.stack ++ [name] } := by
  rw [step, if_neg h.2.2.1, if_neg h.2.2.2]

theorem foldl_step_induction {P : Walk → Prop} (hw : P w)
    (hstep : ∀ w, ∀ n ∈ l, P w → P (w.step n)) : P (l.foldl step w) := by
  induction l generalizing w with
  | nil => exact hw
  | cons n l ih =>
    exact ih (hstep w n mem_cons_self hw) fun w m hm => hstep w m (mem_cons_of_mem _ hm)

theorem mem_stack_step {n : List Char} (h : n ∈ (w.step name).stack) : n ∈ w.stack ∨ n = name := by
  unfold step at h
  split at h
  · exact .inl h
  · split at h
    · split at h
      · exact .inl h
      · exact .inl (dropLast_subset _ h)
    · rcases mem_append.mp h with h | h
      · exact .inl h
      · exact .inr (mem_singleton.mp h)

theorem mem_stack_foldl {n : List Char} (h : n ∈ (l.foldl step w).stack) : n ∈ w.stack ∨ n ∈ l := by
  revert h
  apply foldl_step_induction (P := fun v => n ∈ v.stack → n ∈ w.stack ∨ n ∈ l) Or.inl
  intro v m hm hv hn
  rcases mem_stack_step hn with h | rfl
  · exact hv h
  · exact .inr hm

theorem climbs_le_foldl : w.climbs ≤ (l.foldl step w).climbs := by
  apply foldl_step_induction (P := fun v => w.climbs ≤ v.climbs) le_rfl
  intro v n _ h
  unfold step
  split
  · exact h
  · split
    · split
      · exact Nat.le_succ_of_le h
      · exact h
    · exact h

theorem proper_foldl (hw : ∀ n ∈ w.stack, Proper n) (hl : ∀ n ∈ l, n ≠ [] ∧ '/' ∉ n) :
    ∀ n ∈ (l.foldl step w).stack, Proper n := by
  apply foldl_step_induction (P := fun v => ∀ n ∈ v.stack, Proper n) hw
  intro v n hn hv
  unfold step
  split
  · exact hv
  · next hdot =>
    split
    · split
      · exact hv
      · exact fun m hm => hv m (dropLast_subset _ hm)
    · next hdotdot =>
      intro m hm
      rcases mem_append.mp hm with hm | hm
      · exact hv m hm
      · rw [mem_singleton.mp hm]
        exact ⟨(hl n hn).1, (hl n hn).2, hdot, hdotdot⟩

theorem foldl_step_of_proper (hl : ∀ n ∈ l, Proper n) :
    l.foldl step w = { w with stack := w.stack ++ l } := by
  induction l generalizing w with
  | nil => simp
  | cons n l ih =>
    rw [foldl_cons, step_of_proper (hl n mem_cons_self),
      ih fun m hm => hl m (mem_cons_of_mem _ hm)]
    simp

end Walk

theorem names_spec {path n : List Char} (h : n ∈ names path) : n ≠ [] ∧ '/' ∉ n := by
  obtain ⟨hne, hsep, -⟩ := mem_fields h
  exact ⟨hne, fun hmem => absurd (hsep _ hmem) (by decide)⟩

theorem proper_resolve : ∀ n ∈ (resolve path).stack, Proper n :=
  Walk.proper_foldl (by simp [Walk.root]) fun _ hn => names_spec hn

theorem canonical_canonical : Canonical (canonical path) :=
  ⟨_, proper_resolve path, rfl⟩

/-! ## Texts -/

theorem Proper.not_isSlash {name : List Char} (h : Proper name) : ∀ c ∈ name, isSlash c = false := by
  intro c hc
  rw [isSlash_eq_false_iff]
  rintro rfl
  exact h.2.1 hc

theorem names_rendered {stack : List (List Char)} (h : ∀ n ∈ stack, Proper n) :
    names (rendered stack) = stack := by
  unfold rendered
  split
  · next hnil =>
    rw [hnil]
    show fields isSlash ['/'] = []
    rw [fields_cons_sep rfl, fields_nil]
  · exact fields_flatMap_cons rfl fun n hn => ⟨(h n hn).1, (h n hn).not_isSlash⟩

theorem resolve_rendered {stack : List (List Char)} (h : ∀ n ∈ stack, Proper n) :
    resolve (rendered stack) = { stack := stack, climbs := 0 } := by
  rw [resolve, names_rendered h, Walk.foldl_step_of_proper h]
  rfl

theorem normalized_eq_canonical {path : List Char} (h : (resolve path).climbs = 0) :
    normalized path = some (canonical path) := by
  simp only [normalized, h]

theorem normalized_eq_none {path : List Char} (h : 2 ≤ (resolve path).climbs) :
    normalized path = none := by
  obtain ⟨k, hk⟩ : ∃ k, (resolve path).climbs = k + 2 := ⟨_, (Nat.sub_add_cancel h).symm⟩
  simp only [normalized, hk]

theorem head?_rendered : (rendered stack).head? = some '/' := by
  unfold rendered
  split
  · rfl
  · next h =>
    cases stack with
    | nil => exact absurd rfl h
    | cons n stack => rfl

end RtThread.Dfs
