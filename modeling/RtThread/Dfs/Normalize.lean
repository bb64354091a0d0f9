import RtThread.Dfs.Path
import RtThread.Kernel.Model
import RtThread.Lib.Loop
import RtThread.Lib.Text

/-!
# Normalising a path

The model of `dfs_normalize_path` in `components/dfs/src/dfs.c`. The path is copied into a block of
memory and rewritten there: `src` goes through the text and `dst` behind it. The result of the
allocation is a parameter. A loop that ends only because the text does is bounded by `fuel`.

In front of `dst` there are the names of the walk so far, each with a slash behind it, and at `src`
there is the beginning of a name (`At`). A `..` at the root takes away the slash that stands for the
root, and a second one finds nothing to take away. What follows the loop is in `NormalizeText.lean`.
-/

namespace RtThread.Dfs

open Lib Function List Nat

/-! ## The source -/

/-- The memory, and the two pointers of the loop. -/
structure Norm where
  mem : ℕ → Char
  src : ℕ
  dst : ℕ

/-- The loop over the slashes behind a name. -/
def skipSlashes (m : ℕ → Char) : ℕ → ℕ → Except Fault ℕ
  | 0, _ => .error .fuel
  | fuel + 1, src => if m src = '/' then skipSlashes m fuel (src + 1) else .ok src

/-- Copying up to the next slash or the end, which is returned and passed over. -/
def copyName : ℕ → Norm → Except Fault (Char × Norm)
  | 0, _ => .error .fuel
  | fuel + 1, s =>
    let c := s.mem s.src
    let s := { s with src := s.src + 1 }
    if c ≠ '\x00' ∧ c ≠ '/' then
      copyName fuel { s with mem := update s.mem s.dst c, dst := s.dst + 1 }
    else .ok (c, s)

/-- Going back to the slash before. -/
def backUp (m : ℕ → Char) (dst0 dst : ℕ) : ℕ :=
  if dst0 < dst ∧ m (dst - 1) ≠ '/' then backUp m dst0 (dst - 1) else dst
termination_by dst

/-- A pass that ends with `up_one`; the end without a state is the return of `NULL`. -/
def upOne (dst0 : ℕ) (s : Norm) : Except Fault (Norm ⊕ Option Norm) :=
  let dst := s.dst - 1
  if dst < dst0 then .ok (.inr none)
  else .ok (.inl { s with dst := backUp s.mem dst0 dst })

/-- A pass that copies a name. -/
def copyUp (fuel : ℕ) (s : Norm) : Except Fault (Norm ⊕ Option Norm) := do
  let (c, s) ← copyName fuel s
  if c = '/' then
    let s := { s with mem := update s.mem s.dst '/', dst := s.dst + 1 }
    let src ← skipSlashes s.mem fuel s.src
    .ok (.inl { s with src := src })
  else .ok (.inr (some s))

/-- One pass of the outer loop: a `.`, a `..`, or a name. -/
def normPass (fuel dst0 : ℕ) (s : Norm) : Except Fault (Norm ⊕ Option Norm) :=
  if s.mem s.src = '.' then
    if s.mem (s.src + 1) = '\x00' then copyUp fuel { s with src := s.src + 1 }
    else if s.mem (s.src + 1) = '/' then do
      let src ← skipSlashes s.mem fuel (s.src + 2)
      .ok (.inl { s with src := src })
    else if s.mem (s.src + 1) = '.' then
      if s.mem (s.src + 2) = '\x00' then upOne dst0 { s with src := s.src + 2 }
      else if s.mem (s.src + 2) = '/' then do
        let src ← skipSlashes s.mem fuel (s.src + 3)
        upOne dst0 { s with src := src }
      else copyUp fuel s
    else copyUp fuel s
  else copyUp fuel s

/-- What follows the loop: the NUL, the last slash, and the slash of an empty path. -/
def finish (fullpath : ℕ) (s : Norm) : ℕ → Char :=
  let m := update s.mem s.dst '\x00'
  let dst := s.dst - 1
  let m := if dst ≠ fullpath ∧ m dst = '/' then update m dst '\x00' else m
  if m fullpath = '\x00' then
    update (update m fullpath '/') (fullpath + 1) '\x00'
  else m

/-- A text with its NUL at an address. -/
def writeText (m : ℕ → Char) (a : ℕ) (text : List Char) : ℕ → Char := fun x =>
  if a ≤ x ∧ x ≤ a + text.length then text.getD (x - a) '\x00' else m x

/-- The path that is normalised: the file name, or the directory and the file name. -/
def fullPath (directory filename : List Char) : List Char :=
  if filename.head? = some '/' then filename else directory ++ '/' :: filename

/-- `dfs_normalize_path`. A directory that is not given is the working directory. -/
def dfsNormalizePath (fuel : ℕ) (workingDirectory : List Char) (m : ℕ → Char) (alloc : Option ℕ)
    (directory : Option (List Char)) (filename : List Char) :
    Except Fault (Option ℕ × (ℕ → Char)) :=
  match alloc with
  | none => .ok (none, m)
  | some fullpath => do
    let m := writeText m fullpath (fullPath (directory.getD workingDirectory) filename)
    let last ← loop Fault.fuel (normPass fuel fullpath) fuel
      { mem := m, src := fullpath, dst := fullpath }
    match last with
    | none => .ok (none, m)
    | some s => .ok (some fullpath, finish fullpath s)

/-! ## The inner loops -/

variable {m : ℕ → Char}

theorem skipSlashes_spec {fuel a : ℕ} {rest : List Char}
    (h : LineAt '\x00' m a rest) (hfuel : rest.length < fuel) :
    ∃ src, skipSlashes m fuel a = .ok src ∧ a ≤ src ∧ LineAt '\x00' m src (rest.dropWhile isSlash) := by
  induction fuel generalizing a rest with
  | zero => exact absurd hfuel (not_lt_zero _)
  | succ fuel ih =>
    rw [skipSlashes]
    cases rest with
    | nil =>
      have hend := lineAt_nil_iff.mp h
      rw [hend, if_neg (by decide)]
      exact ⟨a, rfl, le_rfl, h⟩
    | cons c rest =>
      obtain ⟨hc, -, htail⟩ := lineAt_cons_iff.mp h
      rw [hc, dropWhile_cons]
      by_cases hslash : c = '/'
      · obtain ⟨src, hsrc, hle, hline⟩ := ih htail (by simpa using hfuel)
        rw [if_pos hslash, if_pos (isSlash_eq_true_iff.mpr hslash)]
        exact ⟨src, hsrc, by omega, hline⟩
      · rw [if_neg hslash, if_neg (by simpa [isSlash] using hslash)]
        exact ⟨a, rfl, le_rfl, h⟩

/-- The text in front of `dst` is `text`, behind `p`. -/
structure Written (p : ℕ) (text : List Char) (s : Norm) : Prop where
  dst : s.dst = p + text.length
  text : slice s.mem p text.length = text
  le : s.dst ≤ s.src

theorem Written.snoc {p : ℕ} {text : List Char} {s : Norm} {c : Char} {src : ℕ}
    (h : Written p text s) (hsrc : s.dst < src) :
    Written p (text ++ [c]) { mem := update s.mem s.dst c, src := src, dst := s.dst + 1 } where
  dst := by simp [h.dst, add_assoc]
  text := by
    rw [h.dst]
    exact slice_update_append h.text
  le := hsrc

/-- The inner loop copies a name up to the slash behind it. -/
theorem copyName_spec {fuel p : ℕ} {text name rest : List Char} {s : Norm} (h : Written p text s)
    (hline : LineAt '\x00' s.mem s.src (name ++ rest)) (hname : '/' ∉ name)
    (hrest : rest.head? = none ∨ rest.head? = some '/') (hfuel : name.length < fuel) :
    ∃ s', copyName fuel s = .ok (rest.head?.getD '\x00', s') ∧ Written p (text ++ name) s' ∧
      s'.dst < s'.src ∧ (∀ rest', rest = '/' :: rest' → LineAt '\x00' s'.mem s'.src rest') := by
  induction fuel generalizing text name s with
  | zero => exact absurd hfuel (not_lt_zero _)
  | succ fuel ih =>
    rw [copyName]
    have hle := h.le
    cases name with
    | nil =>
      rw [nil_append] at hline
      rw [append_nil]
      have hstop : s.mem s.src = rest.head?.getD '\x00' := by
        cases rest with
        | nil => exact lineAt_nil_iff.mp hline
        | cons c rest => exact (lineAt_cons_iff.mp hline).1
      have hend : ¬ (s.mem s.src ≠ '\x00' ∧ s.mem s.src ≠ '/') := by
        rcases hrest with hr | hr <;> simp [hstop, hr]
      rw [if_neg hend, hstop]
      refine ⟨_, rfl, ⟨h.dst, h.text, le_succ_of_le hle⟩, lt_succ_of_le hle, ?_⟩
      rintro rest' rfl
      exact (lineAt_cons_iff.mp hline).2.2
    | cons c name =>
      obtain ⟨hc, hne, htail⟩ := lineAt_cons_iff.mp hline
      rw [mem_cons, not_or] at hname
      dsimp only
      rw [hc, if_pos ⟨hne, Ne.symm hname.1⟩]
      have hsrc : s.dst < s.src + 1 := by omega
      obtain ⟨s', hs', hw', hlt, hrest'⟩ := ih (h.snoc hsrc) (htail.update (by omega)) hname.2
        (by simpa using hfuel)
      rw [append_assoc, singleton_append] at hw'
      exact ⟨s', hs', hw', hlt, hrest'⟩

theorem copyUp_slash {fuel p : ℕ} {text name rest : List Char} {s : Norm} (h : Written p text s)
    (hline : LineAt '\x00' s.mem s.src (name ++ '/' :: rest)) (hname : '/' ∉ name)
    (hfuel : (name ++ '/' :: rest).length < fuel) :
    ∃ s', copyUp fuel s = .ok (.inl s') ∧ Written p (text ++ name ++ ['/']) s' ∧
      LineAt '\x00' s'.mem s'.src (rest.dropWhile isSlash) := by
  rw [length_append, length_cons] at hfuel
  obtain ⟨s', hcopy, hwritten, hlt, hafter⟩ :=
    copyName_spec h hline hname (.inr rfl) (show name.length < fuel by omega)
  obtain ⟨src, hskip, hle, hline⟩ :=
    skipSlashes_spec ((hafter rest rfl).update (c := '/') hlt) (show rest.length < fuel by omega)
  refine ⟨{ mem := update s'.mem s'.dst '/', src := src, dst := s'.dst + 1 }, ?_,
    hwritten.snoc (by omega), hline⟩
  unfold copyUp
  rw [hcopy]
  change (skipSlashes (update s'.mem s'.dst '/') fuel s'.src >>= _) = _
  rw [hskip]
  rfl

theorem backUp_eq {p d e : ℕ} (hpe : p ≤ e) (hed : e ≤ d)
    (hname : ∀ x, e ≤ x → x < d → m x ≠ '/') (hstop : e = p ∨ m (e - 1) = '/') :
    backUp m p d = e := by
  induction d using Nat.strongRecOn with
  | _ d ih =>
  rw [backUp]
  by_cases heq : e = d
  · subst heq
    rw [if_neg]
    rintro ⟨hlt, hne⟩
    rcases hstop with rfl | hslash
    · exact absurd hlt (lt_irrefl _)
    · exact hne hslash
  · rw [if_pos ⟨by omega, hname _ (by omega) (by omega)⟩]
    exact ih (d - 1) (by omega) (by omega) fun x hx hx' => hname x hx (by omega)

/-! ## A pass is a step of the walk -/

/-- The text of a walk: each name with a slash behind it, and in front a slash for the root. -/
def content (w : Walk) : List Char :=
  (if w.climbs = 0 then ['/'] else []) ++ w.stack.flatMap (· ++ ['/'])

/-- The walk `w` is in front of `dst`, and the rest of the path begins with a name. -/
structure At (p : ℕ) (w : Walk) (rest : List Char) (s : Norm) : Prop where
  written : Written p (content w) s
  line : LineAt '\x00' s.mem s.src rest
  start : rest.head? ≠ some '/'
  climbs : w.climbs ≤ 1
  proper : ∀ n ∈ w.stack, Proper n ∧ '\x00' ∉ n

/-- The text that the loop leaves: that of the walk, or without the last slash. -/
structure Left (p : ℕ) (w : Walk) (s : Norm) : Prop where
  written : ∃ text, s.dst = p + text.length ∧ slice s.mem p text.length = text ∧
    (text = content w ∨ text ++ ['/'] = content w ∧ w.stack ≠ [])
  climbs : w.climbs ≤ 1
  proper : ∀ n ∈ w.stack, Proper n ∧ '\x00' ∉ n

/-- What a pass of the outer loop does to a walk that ends as `last`. -/
inductive Passed (p : ℕ) (last : Walk) (k : ℕ) : Except Fault (Norm ⊕ Option Norm) → Prop
  | next {w s rest} (h : At p w rest s) (hlast : (names rest).foldl Walk.step w = last)
      (hlt : rest.length < k) : Passed p last k (.ok (.inl s))
  | null (h : 2 ≤ last.climbs) : Passed p last k (.ok (.inr none))
  | leave {s} (h : Left p last s) : Passed p last k (.ok (.inr (some s)))

theorem head?_dropWhile_isSlash (l : List Char) : (l.dropWhile isSlash).head? ≠ some '/' := by
  intro h
  have := head?_dropWhile_not isSlash l
  rw [h] at this
  exact absurd this (by decide)

theorem content_append (w : Walk) (name : List Char) :
    content { w with stack := w.stack ++ [name] } = content w ++ name ++ ['/'] := by
  simp [content]

section Pass

variable {p k fuel : ℕ} {w last : Walk} {rest name : List Char} {s : Norm}

theorem length_dropWhile_isSlash_le (l : List Char) : (l.dropWhile isSlash).length ≤ l.length :=
  length_dropWhile_le _ l

/-- A pass that copies a name is a step of the walk. -/
theorem At.passed_copyUp (h : At p w (name ++ rest) s) (hname : '/' ∉ name)
    (hproper : name = [] ∧ rest = [] ∨ Proper name)
    (hrest : rest = [] ∨ ∃ rest', rest = '/' :: rest') (hfuel : (name ++ rest).length < fuel) :
    Passed p ((names (name ++ rest)).foldl Walk.step w) (name ++ rest).length (copyUp fuel s) := by
  have hnonzero : '\x00' ∉ name := fun hmem => h.line.nonzero (mem_append_left _ hmem)
  -- The name is one more of the walk.
  have hstack : Proper name → ∀ n ∈ w.stack ++ [name], Proper n ∧ '\x00' ∉ n := by
    intro hproper n hn
    rcases mem_append.mp hn with hn | hn
    · exact h.proper n hn
    · rw [mem_singleton.mp hn]
      exact ⟨hproper, hnonzero⟩
  rcases hrest with rfl | ⟨rest', rfl⟩
  · -- The path ends here.
    rw [append_nil] at hfuel ⊢
    obtain ⟨s', hcopy, hwritten, -⟩ := copyName_spec h.written h.line hname (.inl rfl) hfuel
    unfold copyUp
    rw [hcopy]
    show Passed p _ _ (.ok (.inr (some s')))
    apply Passed.leave
    rcases hproper with ⟨rfl, -⟩ | hproper
    · rw [append_nil] at hwritten
      refine ⟨⟨_, hwritten.dst, hwritten.text, .inl ?_⟩, ?_, ?_⟩
      · simp
      · simpa using h.climbs
      · simpa using h.proper
    · have hnames : names name = [name] := fields_eq_singleton hproper.1 hproper.not_isSlash
      rw [hnames, foldl_cons, foldl_nil, Walk.step_of_proper hproper]
      refine ⟨⟨_, hwritten.dst, hwritten.text, .inr ⟨?_, by simp⟩⟩, h.climbs, hstack hproper⟩
      rw [content_append]
  · have hproper : Proper name := hproper.resolve_left fun hnil => by cases hnil.2
    obtain ⟨s', hcopy, hwritten, hline⟩ := copyUp_slash h.written h.line hname hfuel
    have hnames : names (name ++ '/' :: rest') = name :: names (rest'.dropWhile isSlash) := by
      rw [names, fields_append hproper.1 hproper.not_isSlash rfl, ← fields_dropWhile rest']
    rw [hcopy, hnames, foldl_cons, Walk.step_of_proper hproper]
    rw [← content_append] at hwritten
    apply Passed.next ⟨hwritten, hline, head?_dropWhile_isSlash rest', h.climbs, hstack hproper⟩ rfl
    have := length_dropWhile_isSlash_le rest'
    simp
    omega

theorem content_eq_nil_or (w : Walk) : content w = [] ∨ (content w).getLast? = some '/' := by
  unfold content
  rcases eq_nil_or_concat' w.stack with hnil | ⟨stack, name, hconcat⟩
  · rw [hnil]
    split
    · exact .inr rfl
    · exact .inl rfl
  · right
    rw [hconcat]
    simp

/-- `up_one` goes back by one name or takes the slash of the root away, and returns `NULL` if there is
neither. -/
theorem upOne_spec (hp : 0 < p) (h : Written p (content w) s) (hclimbs : w.climbs ≤ 1)
    (hproper : ∀ n ∈ w.stack, Proper n ∧ '\x00' ∉ n) :
    2 ≤ (w.step ['.', '.']).climbs ∧ upOne p s = .ok (.inr none) ∨
    (w.step ['.', '.']).climbs ≤ 1 ∧ (∀ n ∈ (w.step ['.', '.']).stack, Proper n ∧ '\x00' ∉ n) ∧
      ∃ dst, upOne p s = .ok (.inl { s with dst := dst }) ∧
        Written p (content (w.step ['.', '.'])) { s with dst := dst } := by
  obtain ⟨stack, climbs⟩ := w
  have hdst := h.dst
  have hle := h.le
  unfold upOne
  rcases eq_nil_or_concat' stack with rfl | ⟨stack, name, rfl⟩
  · have hstep : Walk.step { stack := [], climbs := climbs } ['.', '.'] =
      { stack := [], climbs := climbs + 1 } := rfl
    rw [hstep]
    by_cases hzero : climbs = 0
    · -- The slash of the root.
      right
      subst hzero
      have hlength : s.dst = p + 1 := hdst
      refine ⟨le_rfl, by simp, p, ?_, ?_⟩
      · rw [if_neg (by omega), hlength, Nat.add_sub_cancel,
          backUp_eq le_rfl le_rfl (fun x hx hx' => by omega) (.inl rfl)]
      · exact ⟨rfl, rfl, by simp; omega⟩
    · left
      refine ⟨by simp; omega, ?_⟩
      have hlength : s.dst = p := by simpa [content, hzero] using hdst
      rw [if_pos (by omega)]
  · right
    have hname : Proper name := (hproper name (by simp)).1
    have hstep : Walk.step { stack := stack ++ [name], climbs := climbs } ['.', '.'] =
        { stack := stack, climbs := climbs } := by
      simp [Walk.step]
    have htext := h.text
    rw [hstep]
    rw [content_append { stack := stack, climbs := climbs } name] at hdst htext
    have hlast := content_eq_nil_or { stack := stack, climbs := climbs }
    refine ⟨hclimbs, fun n hn => hproper n (by simp [hn]), p + (content ⟨stack, climbs⟩).length, ?_⟩
    generalize content ⟨stack, climbs⟩ = front at hdst htext hlast ⊢
    obtain ⟨hboth, -⟩ := slice_append_iff.mp htext
    obtain ⟨hfront, hname'⟩ := slice_append_iff.mp hboth
    simp only [length_append, length_singleton] at hdst
    constructor
    · rw [if_neg (by omega), backUp_eq (le_add_right p front.length) (by omega)]
      · intro x hx hx'
        have hchar := slice_eq_iff.mp hname' (x - (p + front.length)) (by omega)
        rw [Nat.add_sub_cancel' hx] at hchar
        rw [hchar]
        intro hslash
        exact hname.2.1 (hslash ▸ getElem_mem _)
      · rcases hlast with rfl | hlast
        · exact .inl rfl
        · right
          have hpos : 0 < front.length := by
            apply length_pos_iff_ne_nil.mpr
            rintro rfl
            cases hlast
          have hchar := slice_eq_iff.mp hfront (front.length - 1) (by omega)
          rw [getLast?_eq_getElem?, getElem?_eq_getElem (by omega)] at hlast
          rw [Nat.add_sub_assoc (by omega), hchar]
          exact Option.some.inj hlast
    · exact ⟨rfl, hfront, by show p + front.length ≤ s.src; omega⟩

theorem At.passed_upOne (hp : 0 < p) (h : At p w rest s) {src : ℕ} {after : List Char}
    (hline : LineAt '\x00' s.mem src after) (hsrc : s.src ≤ src) (hstart : after.head? ≠ some '/')
    (hlt : after.length < k) : Passed p ((names after).foldl Walk.step (w.step ['.', '.'])) k
      (upOne p { s with src := src }) := by
  have hwritten : Written p (content w) { s with src := src } :=
    ⟨h.written.dst, h.written.text, h.written.le.trans hsrc⟩
  rcases upOne_spec hp hwritten h.climbs h.proper with
    ⟨hclimbs, hnull⟩ | ⟨hclimbs, hproper, dst, hnext, hwritten'⟩
  · rw [hnull]
    exact .null (hclimbs.trans Walk.climbs_le_foldl)
  · rw [hnext]
    exact .next ⟨hwritten', hline, hstart, hclimbs, hproper⟩ rfl hlt

theorem Passed.mono {k' : ℕ} {r : Except Fault (Norm ⊕ Option Norm)} (h : Passed p last k r)
    (hle : k ≤ k') : Passed p last k' r := by
  cases h with
  | next hat hlast hlt => exact .next hat hlast (by omega)
  | null hclimbs => exact .null hclimbs
  | leave hleft => exact .leave hleft

theorem exists_name_append (rest : List Char) :
    ∃ name after, rest = name ++ after ∧ '/' ∉ name ∧ (after = [] ∨ ∃ after', after = '/' :: after') := by
  refine ⟨rest.takeWhile (fun c => !isSlash c), rest.dropWhile (fun c => !isSlash c),
    takeWhile_append_dropWhile.symm, ?_, ?_⟩
  · intro hmem
    exact absurd (mem_takeWhile_imp hmem) (by decide)
  · cases hafter : rest.dropWhile (fun c => !isSlash c) with
    | nil => exact .inl rfl
    | cons c after =>
      have := head?_dropWhile_not (fun c => !isSlash c) rest
      rw [hafter] at this
      have hc : isSlash c = true := by simpa using this
      exact .inr ⟨after, by rw [isSlash_eq_true_iff.mp hc]⟩

theorem names_dots (name : List Char) {after : List Char} (hne : name ≠ []) (hslash : '/' ∉ name)
    (hafter : after = [] ∨ ∃ after', after = '/' :: after') :
    names (name ++ after) = name :: names (after.dropWhile isSlash) := by
  have hsep : ∀ c ∈ name, isSlash c = false := fun c hc =>
    isSlash_eq_false_iff.mpr fun heq => hslash (heq ▸ hc)
  rcases hafter with rfl | ⟨after', rfl⟩
  · rw [append_nil, names, fields_eq_singleton hne hsep]
    simp [names]
  · rw [names, fields_append hne hsep rfl, names, fields_dropWhile, fields_cons_sep rfl]

/-- A pass over `.` leaves the walk where it is. -/
theorem At.passed_dot (h : At p w ('.' :: rest) s) (hrest : rest = [] ∨ ∃ after, rest = '/' :: after)
    (hfuel : ('.' :: rest).length < fuel) :
    Passed p ((names ('.' :: rest)).foldl Walk.step w) ('.' :: rest).length
      (normPass fuel p s) := by
  obtain ⟨hdot, -, htail⟩ := lineAt_cons_iff.mp h.line
  have hnames : names ('.' :: rest) = ['.'] :: names (rest.dropWhile isSlash) :=
    names_dots ['.'] (by simp) (by decide) hrest
  have hle := h.written.le
  unfold normPass
  rw [if_pos hdot, hnames]
  show Passed p ((names (rest.dropWhile isSlash)).foldl Walk.step w) _ _
  rcases hrest with rfl | ⟨after, rfl⟩
  · -- The path ends with `.`.
    rw [if_pos (lineAt_nil_iff.mp htail)]
    have hat : At p w ([] ++ []) { s with src := s.src + 1 } :=
      ⟨⟨h.written.dst, h.written.text, le_succ_of_le hle⟩, htail, by simp, h.climbs, h.proper⟩
    exact (hat.passed_copyUp (by simp) (.inl ⟨rfl, rfl⟩) (.inl rfl)
      (by simp at hfuel ⊢; omega)).mono (by simp)
  · obtain ⟨hslash, -, hafter⟩ := lineAt_cons_iff.mp htail
    rw [hslash, if_neg (by decide), if_pos rfl]
    obtain ⟨src, hskip, hsrc, hline⟩ := skipSlashes_spec hafter
      (show after.length < fuel by simp at hfuel; omega)
    rw [show s.src + 2 = s.src + 1 + 1 from rfl, hskip]
    have hat : At p w (after.dropWhile isSlash) { s with src := src } := by
      refine ⟨⟨h.written.dst, h.written.text, ?_⟩, hline, head?_dropWhile_isSlash after, h.climbs,
        h.proper⟩
      show s.dst ≤ src
      omega
    apply Passed.next hat
    · rfl
    · have := length_dropWhile_isSlash_le after
      simp
      omega

theorem At.passed_dotdot (hp : 0 < p) (h : At p w ('.' :: '.' :: rest) s)
    (hrest : rest = [] ∨ ∃ after, rest = '/' :: after)
    (hfuel : ('.' :: '.' :: rest).length < fuel) :
    Passed p ((names ('.' :: '.' :: rest)).foldl Walk.step w) ('.' :: '.' :: rest).length
      (normPass fuel p s) := by
  obtain ⟨hdot, -, htail⟩ := lineAt_cons_iff.mp h.line
  obtain ⟨hdot', -, htail⟩ := lineAt_cons_iff.mp htail
  have hnames : names ('.' :: '.' :: rest) = ['.', '.'] :: names (rest.dropWhile isSlash) :=
    names_dots ['.', '.'] (by simp) (by decide) hrest
  unfold normPass
  rw [if_pos hdot, hdot', if_neg (by decide), if_neg (by decide), if_pos rfl, hnames,
    foldl_cons]
  rcases hrest with rfl | ⟨after, rfl⟩
  · -- The path ends with `..`.
    rw [if_pos (lineAt_nil_iff.mp htail)]
    exact h.passed_upOne hp htail (by omega) (by simp) (by simp)
  · obtain ⟨hslash, -, hafter⟩ := lineAt_cons_iff.mp htail
    have hslash' : s.mem (s.src + 2) = '/' := hslash
    rw [hslash', if_neg (by decide), if_pos rfl]
    obtain ⟨src, hskip, hsrc, hline⟩ := skipSlashes_spec hafter
      (show after.length < fuel by simp at hfuel; omega)
    rw [show s.src + 3 = s.src + 1 + 1 + 1 from rfl, hskip]
    have hlt : (after.dropWhile isSlash).length < ('.' :: '.' :: '/' :: after).length := by
      have := length_dropWhile_isSlash_le after
      simp
      omega
    exact h.passed_upOne hp hline (by omega) (head?_dropWhile_isSlash after) hlt

/-- A proper name is copied. -/
theorem normPass_of_proper (hline : LineAt '\x00' s.mem s.src (name ++ rest)) (hname : Proper name) :
    normPass fuel p s = copyUp fuel s := by
  obtain ⟨hne, hslash, hdot, hdotdot⟩ := hname
  unfold normPass
  cases name with
  | nil => exact absurd rfl hne
  | cons c name =>
    obtain ⟨hc, -, htail⟩ := lineAt_cons_iff.mp hline
    by_cases hcdot : c = '.'
    swap
    · rw [hc, if_neg hcdot]
    subst hcdot
    rw [if_pos hc]
    cases name with
    | nil => exact absurd rfl hdot
    | cons d name =>
      obtain ⟨hd, hdnul, htail'⟩ := lineAt_cons_iff.mp htail
      have hdslash : d ≠ '/' := fun heq => hslash (by simp [heq])
      rw [hd, if_neg hdnul, if_neg hdslash]
      by_cases hddot : d = '.'
      swap
      · rw [if_neg hddot]
      subst hddot
      rw [if_pos rfl]
      cases name with
      | nil => exact absurd rfl hdotdot
      | cons e name =>
        obtain ⟨he, henul, -⟩ := lineAt_cons_iff.mp htail'
        have heslash : e ≠ '/' := fun heq => hslash (by simp [heq])
        have he' : s.mem (s.src + 2) = e := he
        rw [he', if_neg henul, if_neg heslash]

theorem At.pass (hp : 0 < p) (h : At p w rest s) (hfuel : rest.length < fuel) :
    Passed p ((names rest).foldl Walk.step w) rest.length (normPass fuel p s) := by
  obtain ⟨name, after, rfl, hslash, hafter⟩ := exists_name_append rest
  by_cases hnil : name = []
  · -- There is no name, because nothing is left.
    subst hnil
    rcases hafter with rfl | ⟨after, rfl⟩
    · have hend : s.mem s.src = '\x00' := lineAt_nil_iff.mp h.line
      unfold normPass
      rw [hend, if_neg (by decide)]
      exact h.passed_copyUp hslash (.inl ⟨rfl, rfl⟩) (.inl rfl) hfuel
    · exact absurd rfl h.start
  by_cases hdot : name = ['.']
  · subst hdot
    exact h.passed_dot hafter hfuel
  by_cases hdotdot : name = ['.', '.']
  · subst hdotdot
    exact h.passed_dotdot hp hafter hfuel
  have hproper : Proper name := ⟨hnil, hslash, hdot, hdotdot⟩
  rw [normPass_of_proper h.line hproper]
  exact h.passed_copyUp hslash (.inr hproper) hafter hfuel

theorem passed_start (hline : LineAt '\x00' m p ('/' :: rest))
    (hfuel : ('/' :: rest).length < fuel) : Passed p (resolve ('/' :: rest)) ('/' :: rest).length
      (normPass fuel p { mem := m, src := p, dst := p }) := by
  have hempty : Written p [] { mem := m, src := p, dst := p } := ⟨rfl, rfl, le_rfl⟩
  obtain ⟨s', hcopy, hwritten, hline'⟩ :=
    copyUp_slash hempty (show LineAt '\x00' m p ([] ++ '/' :: rest) from hline) (by simp) hfuel
  have hnodot : m p ≠ '.' := by
    rw [(lineAt_cons_iff.mp hline).1]
    decide
  unfold normPass
  rw [if_neg hnodot, hcopy]
  have hlast : (names (rest.dropWhile isSlash)).foldl Walk.step .root = resolve ('/' :: rest) := by
    rw [resolve, names, names, fields_dropWhile, fields_cons_sep rfl]
  apply Passed.next ⟨hwritten, hline', head?_dropWhile_isSlash rest, zero_le _,
    by simp [Walk.root]⟩ hlast
  have := length_dropWhile_isSlash_le rest
  simp
  omega

end Pass

/-! ## The loop -/

/-- What the loop leaves of a walk. -/
def Result (p : ℕ) (last : Walk) : Option Norm → Prop
  | none => 2 ≤ last.climbs
  | some s => Left p last s

theorem exists_loop_normPass {p fuel : ℕ} {rest : List Char} (hp : 0 < p)
    (hline : LineAt '\x00' m p ('/' :: rest)) (hfuel : ('/' :: rest).length < fuel) :
    ∃ r, loop Fault.fuel (normPass fuel p) fuel { mem := m, src := p, dst := p } = .ok r ∧
      Result p (resolve ('/' :: rest)) r := by
  apply exists_loop_eq (I := fun k s => k < fuel ∧
    Passed p (resolve ('/' :: rest)) k (normPass fuel p s)) _ ⟨hfuel, passed_start hline hfuel⟩ hfuel
  rintro k s ⟨hk, hpassed⟩
  cases hresult : normPass fuel p s with
  | error e =>
    rw [hresult] at hpassed
    cases hpassed
  | ok r =>
    rw [hresult] at hpassed
    cases hpassed with
    | next hat hlast hlt =>
      have hpass := hat.pass hp (hlt.trans hk)
      rw [hlast] at hpass
      exact .inl ⟨_, hlt, _, rfl, hlt.trans hk, hpass⟩
    | null hclimbs => exact .inr ⟨none, rfl, hclimbs⟩
    | leave hleft => exact .inr ⟨some _, rfl, hleft⟩

end RtThread.Dfs
