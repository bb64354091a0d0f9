import RtThread.Dfs.Normalize

/-!
# The text of a normalised path

What the loop of `dfs_normalize_path` leaves is the content of a walk, with or without the slash behind
its last name. The end of the function takes a slash away, unless it is the only character, and puts one
where there is nothing. The text is canonical except for a path that climbs above the root once and ends
below it.
-/

namespace RtThread.Dfs

open Lib Function List

/-- The text of a walk, which lacks its first slash behind a climb. -/
def textOf (w : Walk) : List Char := if w.climbs = 0 then rendered w.stack else rootless w.stack

theorem rendered_eq_dropLast {stack : List (List Char)} (h : stack ≠ []) :
    rendered stack = ('/' :: stack.flatMap (· ++ ['/'])).dropLast := by
  have hmove : ∀ l : List (List Char), '/' :: l.flatMap (· ++ ['/']) = l.flatMap ('/' :: ·) ++ ['/'] := by
    intro l
    induction l with
    | nil => rfl
    | cons n l ih => simp [flatMap_cons, ih]
  rw [rendered, if_neg h, hmove, dropLast_concat]

variable {w : Walk}

theorem textOf_eq_dropLast (h : w.stack ≠ []) : textOf w = (content w).dropLast := by
  unfold textOf content
  split
  · rw [rendered_eq_dropLast h]
    rfl
  · rw [rootless, if_neg h, nil_append]

theorem content_of_ne_nil (h : w.stack ≠ []) :
    ∃ front name, name ∈ w.stack ∧ textOf w = front ++ name ∧ content w = textOf w ++ ['/'] := by
  rcases eq_nil_or_concat' w.stack with hnil | ⟨stack, name, hstack⟩
  · exact absurd hnil h
  · have hcontent : content w = content { w with stack := stack } ++ name ++ ['/'] := by
      rw [← content_append, ← hstack]
    have htext : textOf w = content { w with stack := stack } ++ name := by
      rw [textOf_eq_dropLast h, hcontent, dropLast_concat]
    exact ⟨_, name, by simp [hstack], htext, by rw [hcontent, htext]⟩

theorem nul_notMem_content (h : ∀ n ∈ w.stack, '\x00' ∉ n) : '\x00' ∉ content w := by
  unfold content
  simp only [mem_append, mem_flatMap, mem_singleton, not_or, not_exists, not_and]
  refine ⟨?_, fun n hn => ⟨h n hn, by decide⟩⟩
  split
  · decide
  · simp

variable {m : ℕ → Char} {p : ℕ} {t : List Char}

theorem apply_ne_nul (h : slice m p t.length = t)
    (hne : t ≠ []) (hnul : '\x00' ∉ t) : m p ≠ '\x00' := by
  have hpos : 0 < t.length := length_pos_iff_ne_nil.mpr hne
  have hfirst : m p = t[0] := slice_eq_iff.mp h 0 hpos
  rw [hfirst]
  intro hzero
  exact hnul (hzero ▸ getElem_mem hpos)

variable {s : Norm}

theorem stringAt_finish_of_slash (hdst : s.dst = p + t.length + 1)
    (htext : slice s.mem p (t ++ ['/']).length = t ++ ['/']) (hne : t ≠ []) (hnul : '\x00' ∉ t) :
    StringAt '\x00' (finish p s) p t := by
  have hpos : 0 < t.length := length_pos_iff_ne_nil.mpr hne
  obtain ⟨hslice, hslash⟩ := slice_append_iff.mp htext
  have hlast : s.dst - 1 = p + t.length := by omega
  have hcut : p + t.length ≠ p ∧ update s.mem s.dst '\x00' (p + t.length) = '/' := by
    rw [update_of_ne (by omega)]
    exact ⟨by omega, (cons.inj hslash).1⟩
  have hkeep : slice (update s.mem s.dst '\x00') p t.length = t := by
    rw [← hslice, length_slice]
    exact slice_congr fun k hk => update_of_ne (by omega) _ _
  have hend : StringAt '\x00' (update _ (p + t.length) '\x00') p t :=
    stringAt_update_end hkeep
  simp only [finish, hlast, if_pos hcut, if_neg (apply_ne_nul hend.1 hne hnul)]
  exact hend

theorem stringAt_finish_of_name (hdst : s.dst = p + t.length)
    (htext : slice s.mem p t.length = t) (hne : t ≠ []) (hnul : '\x00' ∉ t)
    (hlast : t.length = 1 ∨ t.getLast? ≠ some '/') : StringAt '\x00' (finish p s) p t := by
  have hpos : 0 < t.length := length_pos_iff_ne_nil.mpr hne
  have hend : StringAt '\x00' (update s.mem (p + t.length) '\x00') p t :=
    stringAt_update_end htext
  have hkeep : ¬ (p + t.length - 1 ≠ p ∧
      update s.mem (p + t.length) '\x00' (p + t.length - 1) = '/') := by
    rintro ⟨hlong, hslash⟩
    have hchar := slice_eq_iff.mp hend.1 (t.length - 1) (by omega)
    rw [← Nat.add_sub_assoc hpos, hslash] at hchar
    rcases hlast with hone | hlast
    · omega
    · apply hlast
      rw [getLast?_eq_getElem?, getElem?_eq_getElem (by omega), ← hchar]
  simp only [finish, hdst, if_neg hkeep, if_neg (apply_ne_nul hend.1 hne hnul)]
  exact hend

theorem stringAt_finish_of_nil (hp : 0 < p) (hdst : s.dst = p) :
    StringAt '\x00' (finish p s) p ['/'] := by
  have hfirst : ∀ m : ℕ → Char, (if p - 1 ≠ p ∧ m (p - 1) = '/' then
      update m (p - 1) '\x00' else m) p = m p := by
    intro m
    split
    · exact update_of_ne (by omega) _ _
    · rfl
  simp only [finish, hdst, hfirst, update_self, if_true]
  exact stringAt_update_end (l := ['/']) (by simp [slice])

/-- The end of the function leaves the text of the walk. -/
theorem stringAt_finish (hp : 0 < p) (h : Left p w s) :
    StringAt '\x00' (finish p s) p (textOf w) := by
  obtain ⟨⟨text, hdst, htext, hcases⟩, -, hproper⟩ := h
  by_cases hstack : w.stack = []
  · -- No name: the root, with or without its slash.
    obtain rfl : text = content w := by
      rcases hcases with htext | ⟨-, hne⟩
      · exact htext
      · exact absurd hstack hne
    by_cases hzero : w.climbs = 0
    · have hcontent : content w = ['/'] := by simp [content, hzero, hstack]
      have htextOf : textOf w = ['/'] := by simp [textOf, hzero, rendered, hstack]
      rw [hcontent] at hdst htext
      rw [htextOf]
      exact stringAt_finish_of_name hdst htext (by simp) (by decide) (.inl rfl)
    · have hcontent : content w = [] := by simp [content, hzero, hstack]
      have htextOf : textOf w = ['/'] := by simp [textOf, hzero, rootless, hstack]
      rw [hcontent] at hdst
      rw [htextOf]
      exact stringAt_finish_of_nil hp hdst
  · obtain ⟨front, name, hmem, hname, hcontent⟩ := content_of_ne_nil hstack
    obtain ⟨⟨hnename, hslash, -⟩, -⟩ := hproper name hmem
    have hne : textOf w ≠ [] := by simp [hname, hnename]
    have hnul : '\x00' ∉ textOf w := by
      have := nul_notMem_content fun n hn => (hproper n hn).2
      rw [hcontent, mem_append, not_or] at this
      exact this.1
    rw [hcontent] at hcases
    rcases hcases with rfl | ⟨htext', -⟩
    · rw [length_append, length_singleton, ← Nat.add_assoc] at hdst
      exact stringAt_finish_of_slash hdst htext hne hnul
    · obtain rfl : text = textOf w := append_cancel_right htext'
      refine stringAt_finish_of_name hdst htext hne hnul (.inr ?_)
      rw [hname, getLast?_append_of_ne_nil _ hnename]
      intro hlast
      exact hslash (mem_of_getLast? hlast)

theorem textOf_resolve {path : List Char} (h : (resolve path).climbs ≤ 1) :
    normalized path = some (textOf (resolve path)) := by
  unfold normalized textOf canonical
  rcases Nat.le_one_iff_eq_zero_or_eq_one.mp h with h0 | h1
  · simp [h0]
  · simp [h1]

theorem lineAt_writeText {text : List Char} (h : '\x00' ∉ text) :
    LineAt '\x00' (writeText m p text) p text := by
  refine ⟨⟨slice_eq_iff.mpr fun k hk => ?_, ?_⟩, h⟩
  · simp only [writeText]
    rw [if_pos (by omega), Nat.add_sub_cancel_left]
    simp [hk]
  · simp [writeText]

theorem head?_fullPath {directory filename : List Char}
    (h : filename.head? = some '/' ∨ directory.head? = some '/') :
    ∃ rest, fullPath directory filename = '/' :: rest := by
  unfold fullPath
  split
  · next habs =>
    cases filename with
    | nil => cases habs
    | cons c rest => exact ⟨rest, by rw [Option.some.inj habs]⟩
  · next hrel =>
    rcases h with h | h
    · exact absurd h hrel
    · cases directory with
      | nil => cases h
      | cons c rest => exact ⟨rest ++ '/' :: filename, by rw [Option.some.inj h]; rfl⟩

/-- `dfs_normalize_path` returns what `normalized` says, in the block that it has been given. -/
theorem exists_dfsNormalizePath {workingDirectory filename : List Char}
    {directory : Option (List Char)} (m : ℕ → Char) (hp : 0 < p)
    (habs : filename.head? = some '/' ∨ (directory.getD workingDirectory).head? = some '/')
    (hnul : '\x00' ∉ fullPath (directory.getD workingDirectory) filename) :
    ∀ fuel > (fullPath (directory.getD workingDirectory) filename).length,
      ∃ r m', dfsNormalizePath fuel workingDirectory m (some p) directory filename = .ok (r, m') ∧
        match normalized (fullPath (directory.getD workingDirectory) filename) with
        | none => r = none
        | some text => r = some p ∧ StringAt '\x00' m' p text := by
  obtain ⟨rest, hfull⟩ := head?_fullPath habs
  rw [hfull] at hnul ⊢
  intro fuel hfuel
  obtain ⟨last, hloop, hresult⟩ := exists_loop_normPass hp (lineAt_writeText (m := m) hnul) hfuel
  simp only [dfsNormalizePath, hfull, hloop]
  cases last with
  | none =>
    refine ⟨none, _, rfl, ?_⟩
    rw [normalized_eq_none hresult]
  | some s =>
    refine ⟨some p, _, rfl, ?_⟩
    rw [textOf_resolve hresult.climbs]
    exact ⟨rfl, stringAt_finish hp hresult⟩

/-- What `dfs_normalize_path` is for: it returns the canonical path, and `NULL` only if there is no memory
or the path climbs above the root. -/
def Normalizes (workingDirectory : List Char) (m : ℕ → Char) (alloc : Option ℕ)
    (directory : Option (List Char)) (filename : List Char) : Prop :=
  ∃ bound, ∀ fuel > bound, ∃ r m',
    dfsNormalizePath fuel workingDirectory m alloc directory filename = .ok (r, m') ∧
    (r = none →
      alloc = none ∨ 0 < (resolve (fullPath (directory.getD workingDirectory) filename)).climbs) ∧
    ∀ a, r = some a →
      Canonical (canonical (fullPath (directory.getD workingDirectory) filename)) ∧
      StringAt '\x00' m' a (canonical (fullPath (directory.getD workingDirectory) filename))

theorem not_stringAt_rootless {stack stack' : List (List Char)}
    (hne : stack ≠ []) (hproper : ∀ n ∈ stack, Proper n) (h : StringAt '\x00' m p (rootless stack)) :
    ¬ StringAt '\x00' m p (rendered stack') := by
  intro h'
  have hslash : m p = '/' := by
    have hhead := head?_rendered stack'
    cases htext : rendered stack' with
    | nil => simp [htext] at hhead
    | cons c text =>
      rw [htext] at h' hhead
      exact (cons.inj h'.1).1.trans (Option.some.inj hhead)
  obtain ⟨name, rest, rfl⟩ := exists_cons_of_ne_nil hne
  obtain ⟨hnename, hnoslash, -⟩ := hproper name mem_cons_self
  obtain ⟨c, name, rfl⟩ := exists_cons_of_ne_nil hnename
  have hfirst : m p = c := by
    have hcons : ∃ text, rootless ((c :: name) :: rest) = c :: text := by
      simp only [rootless, cons_ne_nil, if_false, flatMap_cons, cons_append]
      rw [dropLast_cons_of_ne_nil (by simp)]
      exact ⟨_, rfl⟩
    obtain ⟨text, htext⟩ := hcons
    rw [htext] at h
    exact (cons.inj h.1).1
  exact hnoslash (by simp [← hfirst, hslash])

section Spelling

variable {workingDirectory filename : List Char} {directory : Option (List Char)} {m : ℕ → Char}
  {p : ℕ}

theorem not_normalizes_of_climb (hp : 0 < p)
    (habs : filename.head? = some '/' ∨ (directory.getD workingDirectory).head? = some '/')
    (hnul : '\x00' ∉ fullPath (directory.getD workingDirectory) filename)
    (hclimbs : (resolve (fullPath (directory.getD workingDirectory) filename)).climbs = 1)
    (hstack : (resolve (fullPath (directory.getD workingDirectory) filename)).stack ≠ []) :
    ¬ Normalizes workingDirectory m (some p) directory filename := by
  rintro ⟨bound, h⟩
  obtain ⟨r, m', hok, -, htext⟩ := h (max bound
    (fullPath (directory.getD workingDirectory) filename).length + 1) (by omega)
  obtain ⟨r', m'', hok', hresult⟩ := exists_dfsNormalizePath m hp habs hnul (max bound
    (fullPath (directory.getD workingDirectory) filename).length + 1) (by omega)
  obtain ⟨rfl, rfl⟩ := Prod.mk.inj (Except.ok.inj (hok.symm.trans hok'))
  have hnormalized : normalized (fullPath (directory.getD workingDirectory) filename) =
      some (rootless (resolve (fullPath (directory.getD workingDirectory) filename)).stack) := by
    simp only [normalized, hclimbs]
  rw [hnormalized] at hresult
  exact not_stringAt_rootless hstack (proper_resolve _) hresult.2 (htext p hresult.1).2

/-- `dfs_normalize_path` does what it is for exactly if the path does not climb above the root, or climbs
more than once, or comes back to the root in the end. -/
theorem dfs_path_normalisation {alloc : Option ℕ} (halloc : ∀ p ∈ alloc, 0 < p)
    (habs : filename.head? = some '/' ∨ (directory.getD workingDirectory).head? = some '/')
    (hnul : '\x00' ∉ fullPath (directory.getD workingDirectory) filename) :
    Normalizes workingDirectory m alloc directory filename ↔ alloc = none ∨
      (resolve (fullPath (directory.getD workingDirectory) filename)).climbs ≠ 1 ∨
      (resolve (fullPath (directory.getD workingDirectory) filename)).stack = [] := by
  cases alloc with
  | none =>
    refine ⟨fun _ => .inl rfl, fun _ => ⟨0, fun fuel _ => ⟨none, m, rfl, fun _ => .inl rfl, ?_⟩⟩⟩
    intro a ha
    cases ha
  | some p =>
    have hp : 0 < p := halloc p rfl
    constructor
    · intro h
      by_contra hnot
      simp only [not_or, not_not] at hnot
      exact not_normalizes_of_climb hp habs hnul hnot.2.1 hnot.2.2 h
    · intro hcond
      refine ⟨(fullPath (directory.getD workingDirectory) filename).length, fun fuel hfuel => ?_⟩
      obtain ⟨r, m', hok, hresult⟩ := exists_dfsNormalizePath m hp habs hnul fuel hfuel
      refine ⟨r, m', hok, ?_⟩
      generalize fullPath (directory.getD workingDirectory) filename = full at *
      -- Two climbs give no path. With fewer, the text is that of the walk.
      by_cases hclimbs : 2 ≤ (resolve full).climbs
      · rw [normalized_eq_none hclimbs] at hresult
        subst hresult
        refine ⟨fun _ => .inr (by omega), fun a ha => ?_⟩
        cases ha
      · have htext : textOf (resolve full) = canonical full := by
          unfold textOf canonical
          split
          · rfl
          · next hzero =>
            have hstack : (resolve full).stack = [] := by
              rcases hcond with hnone | hone | hstack
              · cases hnone
              · omega
              · exact hstack
            rw [hstack]
            rfl
        rw [textOf_resolve (by omega), htext] at hresult
        obtain ⟨rfl, hstring⟩ := hresult
        refine ⟨fun hr => (nomatch hr), fun a ha => ?_⟩
        obtain rfl := Option.some.inj ha
        exact ⟨canonical_canonical full, hstring⟩

end Spelling

/-- `/a/../b`, into a block at the address 1. -/
theorem dfs_path_normalisation_below :
    (∀ p ∈ some 1, 0 < p) ∧ Normalizes ['/'] (fun _ => 'x') (some 1) none
      ['/', 'a', '/', '.', '.', '/', 'b'] :=
  ⟨by simp, (dfs_path_normalisation (by simp) (.inl rfl) (by decide)).mpr
    (.inr (.inl (by decide +kernel)))⟩

/-- `/../a` becomes `a`. -/
theorem climbing_path_loses_slash :
    ¬ Normalizes ['/'] (fun _ => 'x') (some 1) none ['/', '.', '.', '/', 'a'] := by
  apply not_normalizes_of_climb (by decide) (.inl rfl) (by decide)
  · decide +kernel
  · decide +kernel

example : normalized ['/', '.', '.', '/', 'a'] = some ['a'] := by decide +kernel

end RtThread.Dfs
