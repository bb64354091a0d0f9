import RtThread.Kernel.Model
import RtThread.Lib.Bytes
import RtThread.Lib.Loop
import RtThread.Lib.Text
import Mathlib.Data.List.TakeWhile

/-!
# Splitting a command line into arguments

The model of `msh_split` in `components/finsh/msh.c`. The line is in a byte memory, where the function
puts zeros, and an argument is the address of its first character. The loops are given
`length - position`, the number of characters that are left. `tokens` says what the arguments of a line
are. An argument that is ended by a blank is a string only after the next pass has overwritten the
blank, so the invariant of the outer loop (`Splitting`) lets the last argument end where the rest of
the line begins with a blank.
-/

namespace RtThread.Finsh

open Lib Function List Nat

/-- The most arguments of a command. -/
def RT_FINSH_ARG_MAX : ℕ := 10

/-! ## The source -/

/-- A blank or a tab. -/
def isBlank (c : UInt8) : Bool := c = 32 || c = 9

/-- The character that strings are enclosed in. -/
def quote : UInt8 := 34

/-- The character that escapes a quote. -/
def backslash : UInt8 := 92

/-- The variables of `msh_split`; the arguments found so far are `argc` in number. -/
structure Split where
  mem : Bytes
  ptr : ℕ
  /-- `length - position` -/
  left : ℕ
  argv : List ℕ

/-- The loop over blanks, which overwrites them. -/
def strip (m : Bytes) (ptr : ℕ) : ℕ → Bytes × ℕ × ℕ
  | 0 => (m, ptr, 0)
  | left + 1 =>
    if isBlank (m ptr) then strip (update m ptr 0) (ptr + 1) left else (m, ptr, left + 1)

/-- The loop to the closing quote. -/
def skipString (m : Bytes) (ptr left : ℕ) : ℕ × ℕ :=
  if left = 0 ∨ m ptr = quote then (ptr, left)
  else if m ptr = backslash ∧ m (ptr + 1) = quote then skipString m (ptr + 2) (left - 2)
  else skipString m (ptr + 1) (left - 1)
termination_by left

/-- The loop to the next blank. -/
def skipWord (m : Bytes) (ptr : ℕ) : ℕ → ℕ × ℕ
  | 0 => (ptr, 0)
  | left + 1 => if isBlank (m ptr) then (ptr, left + 1) else skipWord m (ptr + 1) left

/-- One pass of the outer loop: blanks, and then an argument. -/
def splitPass (s : Split) : Except Fault (Split ⊕ Split) :=
  if s.left = 0 then .ok (.inr s)
  else
    let (m, ptr, left) := strip s.mem s.ptr s.left
    let s := { s with mem := m, ptr := ptr, left := left }
    if RT_FINSH_ARG_MAX ≤ s.argv.length then .ok (.inr s)
    else if s.left = 0 then .ok (.inr s)
    else if s.mem s.ptr = quote then
      let (ptr, left) := skipString s.mem (s.ptr + 1) (s.left - 1)
      let s := { s with ptr := ptr, left := left, argv := s.argv ++ [s.ptr + 1] }
      if s.left = 0 then .ok (.inr s)
      else .ok (.inl { s with
        mem := update s.mem s.ptr 0, ptr := s.ptr + 1, left := s.left - 1 })
    else
      let (ptr, left) := skipWord s.mem s.ptr s.left
      let s := { s with ptr := ptr, left := left, argv := s.argv ++ [s.ptr] }
      if s.left = 0 then .ok (.inr s) else .ok (.inl s)

/-- `msh_split`: the number of arguments, the arguments and the line. -/
def mshSplit (fuel : ℕ) (m : Bytes) (cmd length : ℕ) : Except Fault (ℕ × List ℕ × Bytes) := do
  let s ← loop .fuel splitPass fuel { mem := m, ptr := cmd, left := length, argv := [] }
  .ok (s.argv.length, s.argv, s.mem)

/-- `_msh_exec_cmd`, with the table of commands: the command, and what it is called with. -/
def mshExecCmd {χ : Type} (mshGetCmd : List UInt8 → Option χ) (fuel : ℕ) (m : Bytes)
    (cmd length : ℕ) : Except Fault (Option (χ × ℕ × List ℕ × Bytes)) :=
  -- The loop for the size of the first command is the one that skips an argument.
  let cmd0_size := (skipWord m cmd length).1 - cmd
  if cmd0_size = 0 then .ok none
  else
    match mshGetCmd (slice m cmd cmd0_size) with
    | none => .ok none
    | some command => do
      let (argc, argv, m) ← mshSplit fuel m cmd length
      if argc = 0 then .ok none else .ok (some (command, argc, argv, m))

/-! ## What the arguments are -/

/-- A string up to the next quote that is not preceded by a backslash, and what follows the quote. -/
def quoted : (before : UInt8) → List UInt8 → List UInt8 × List UInt8
  | _, [] => ([], [])
  | before, c :: rest =>
    if c = quote ∧ before ≠ backslash then ([], rest)
    else
      let (token, after) := quoted c rest
      (c :: token, after)

variable {rest : List UInt8}

theorem quoted_of_close {b : UInt8} (hb : b ≠ backslash) :
    quoted b (quote :: rest) = ([], rest) := by
  rw [quoted, if_pos ⟨rfl, hb⟩]

theorem quoted_of_other {b c : UInt8} (h : c = quote → b = backslash) :
    quoted b (c :: rest) = (c :: (quoted c rest).1, (quoted c rest).2) := by
  rw [quoted, if_neg fun hc => hc.2 (h hc.1)]

theorem length_quoted_le (before : UInt8) (l : List UInt8) :
    (quoted before l).2.length ≤ l.length := by
  induction l generalizing before with
  | nil => exact le_refl _
  | cons c rest ih =>
    rw [quoted]
    split
    · exact le_succ _
    · exact (ih c).trans (le_succ _)

/-- The arguments of a line. -/
def tokens : List UInt8 → List (List UInt8)
  | [] => []
  | c :: rest =>
    if isBlank c then tokens rest
    else if c = quote then (quoted quote rest).1 :: tokens (quoted quote rest).2
    else
      (c :: rest.takeWhile (fun c => !isBlank c)) :: tokens (rest.dropWhile (fun c => !isBlank c))
termination_by line => line.length
decreasing_by
  · exact lt_succ_self _
  · exact lt_succ_of_le (length_quoted_le quote rest)
  · exact lt_succ_of_le (length_dropWhile_le _ rest)

section Tokens

variable {c : UInt8} {rest : List UInt8}

theorem tokens_nil : tokens [] = [] := by rw [tokens]

theorem tokens_blank (h : isBlank c) : tokens (c :: rest) = tokens rest := by
  rw [tokens, if_pos h]

theorem tokens_quote : tokens (quote :: rest) =
    (quoted quote rest).1 :: tokens (quoted quote rest).2 := by
  rw [tokens, if_neg (by decide), if_pos rfl]

theorem tokens_word (hblank : ¬ isBlank c) (hquote : c ≠ quote) : tokens (c :: rest) =
    (c :: rest).takeWhile (fun c => !isBlank c) ::
      tokens ((c :: rest).dropWhile (fun c => !isBlank c)) := by
  rw [tokens, if_neg hblank, if_neg hquote]
  simp [hblank]

end Tokens

/-! ## The inner loops -/

/-- What stripping blanks does: it clears the blanks in front of the rest `rest'`. -/
structure Stripped (m : Bytes) (ptr : ℕ) (rest rest' : List UInt8) (r : Bytes × ℕ × ℕ) : Prop where
  le_ptr : ptr ≤ r.2.1
  left : r.2.2 = rest'.length
  le : rest'.length ≤ rest.length
  line : LineAt 0 r.1 r.2.1 rest'
  eq_tokens : tokens rest = tokens rest'
  head : ∀ c ∈ rest'.head?, isBlank c = false
  mem : ∀ x, r.1 x = if ptr ≤ x ∧ x < r.2.1 then 0 else m x
  moved : (∃ c ∈ rest.head?, isBlank c = true) → ptr < r.2.1

variable {m : Bytes} {ptr : ℕ}

/-- The loop over blanks finds the rest of the line, and makes the last argument a string. -/
theorem strip_spec (h : LineAt 0 m ptr rest) :
    ∃ rest', Stripped m ptr rest rest' (strip m ptr rest.length) := by
  induction rest generalizing m ptr with
  | nil =>
    refine ⟨[], le_rfl, rfl, le_rfl, h, rfl, by simp, ?_, by simp⟩
    intro x
    rw [if_neg (by simp [strip])]
    rfl
  | cons c rest ih =>
    obtain ⟨hc, hne, htail⟩ := lineAt_cons_iff.mp h
    rw [length_cons, strip, hc]
    by_cases hblank : isBlank c
    · rw [if_pos hblank]
      have hcleared : LineAt 0 (update m ptr 0) (ptr + 1) rest :=
        htail.congr fun x hx => update_of_ne (by omega) _ _
      obtain ⟨rest', hs⟩ := ih hcleared
      have hle := hs.le_ptr
      refine ⟨rest', by omega, hs.left, hs.le.trans (le_succ _), hs.line,
        (tokens_blank hblank).trans hs.eq_tokens, hs.head, ?_, fun _ => by omega⟩
      intro x
      rw [hs.mem]
      by_cases hx : x = ptr
      · subst hx
        simp
        omega
      · rw [update_of_ne hx]
        congr 1
        simp only [eq_iff_iff]
        omega
    · rw [if_neg hblank]
      refine ⟨c :: rest, le_rfl, rfl, le_rfl, h, rfl, by simpa using hblank, ?_, by simp [hblank]⟩
      intro x
      rw [if_neg (by simp)]

/-- A string goes to the end of the line, or to a quote. -/
def Closes (rest token after : List UInt8) : Prop :=
  rest = token ∧ after = [] ∨ rest = token ++ quote :: after

theorem Closes.cons {c : UInt8} {token after : List UInt8} (h : Closes rest token after) :
    Closes (c :: rest) (c :: token) after := by
  rcases h with ⟨rfl, hafter⟩ | rfl
  · exact .inl ⟨rfl, hafter⟩
  · exact .inr rfl

/-- The loop to the closing quote finds what `quoted` says. -/
theorem skipString_spec (b : UInt8)
    (h : LineAt 0 m ptr rest) (hb : b = backslash → rest.head? ≠ some quote) :
    skipString m ptr rest.length =
        (ptr + (quoted b rest).1.length, rest.length - (quoted b rest).1.length) ∧
      Closes rest (quoted b rest).1 (quoted b rest).2 := by
  induction hn : rest.length using Nat.strongRecOn generalizing rest ptr b with
  | _ n ih =>
  subst hn
  cases rest with
  | nil =>
    rw [skipString, quoted]
    exact ⟨rfl, .inl ⟨rfl, rfl⟩⟩
  | cons c rest =>
    obtain ⟨hc, -, htail⟩ := lineAt_cons_iff.mp h
    rw [length_cons, skipString, hc]
    by_cases hquote : c = quote
    · -- The string ends here.
      subst hquote
      rw [if_pos (.inr rfl), quoted_of_close fun hb' => hb hb' rfl]
      exact ⟨rfl, .inr rfl⟩
    rw [if_neg (by simp [hquote] : ¬ (rest.length + 1 = 0 ∨ c = quote)),
      quoted_of_other fun hc => absurd hc hquote]
    by_cases hescape : c = backslash ∧ m (ptr + 1) = quote
    · -- Backslash and quote: the line cannot end in between, because it ends with a zero.
      rw [if_pos hescape]
      cases rest with
      | nil => exact absurd (htail.string.2.symm.trans hescape.2) (by decide)
      | cons d rest =>
        obtain ⟨hd, -, htail⟩ := lineAt_cons_iff.mp htail
        have hdq : d = quote := hd.symm.trans hescape.2
        obtain ⟨hskip, hcloses⟩ := ih rest.length (by simp only [length_cons]; omega) d htail
          (fun hd' => absurd (hd'.symm.trans hdq) (by decide)) rfl
        rw [length_cons, quoted_of_other fun _ => hescape.1,
          show ptr + 2 = ptr + 1 + 1 by omega,
          show rest.length + 1 + 1 - 2 = rest.length by omega, hskip]
        refine ⟨?_, hcloses.cons.cons⟩
        simp only [length_cons, Prod.mk.injEq]
        omega
    · rw [if_neg hescape]
      have hnext : c = backslash → rest.head? ≠ some quote := by
        intro hcb hhead
        cases rest with
        | nil => cases hhead
        | cons d rest =>
          have hd : d = quote := Option.some.inj hhead
          exact hescape ⟨hcb, (lineAt_cons_iff.mp htail).1.trans hd⟩
      obtain ⟨hskip, hcloses⟩ := ih rest.length (by simp) c htail hnext rfl
      rw [Nat.add_sub_cancel, hskip]
      refine ⟨?_, hcloses.cons⟩
      simp only [length_cons, Prod.mk.injEq]
      omega

theorem skipWord_spec (h : LineAt 0 m ptr rest) :
    skipWord m ptr rest.length = (ptr + (rest.takeWhile fun c => !isBlank c).length,
      (rest.dropWhile fun c => !isBlank c).length) := by
  induction rest generalizing ptr with
  | nil => rfl
  | cons c rest ih =>
    obtain ⟨hc, -, htail⟩ := lineAt_cons_iff.mp h
    rw [length_cons, skipWord, hc]
    by_cases hblank : isBlank c
    · simp [hblank]
    · rw [if_neg hblank, ih htail]
      simp [hblank]
      omega

/-! ## The outer loop -/

/-- An argument that has been found: it ends with a zero in front of the rest, or with the blank that
the rest begins with. -/
def Found (m : Bytes) (ptr : ℕ) (rest : List UInt8) (a : ℕ) (token : List UInt8) : Prop :=
  slice m a token.length = token ∧
    (m (a + token.length) = 0 ∧ a + token.length < ptr ∨
      a + token.length = ptr ∧ ∃ c ∈ rest.head?, isBlank c = true)

/-- The state of the outer loop: the tokens that have been found, and the rest of the line. -/
structure Splitting (line : List UInt8) (found : List (List UInt8)) (rest : List UInt8) (s : Split) :
    Prop where
  eq_tokens : tokens line = found ++ tokens rest
  left : s.left = rest.length
  line : LineAt 0 s.mem s.ptr rest
  argv : List.Forall₂ (Found s.mem s.ptr rest) s.argv found
  max : s.argv.length ≤ RT_FINSH_ARG_MAX

/-- All arguments of a line, or as many as there is room for. -/
def Complete (line : List UInt8) (s : Split) : Prop :=
  List.Forall₂ (StringAt 0 s.mem) s.argv ((tokens line).take RT_FINSH_ARG_MAX)

section Outer

variable {line rest token : List UInt8} {found : List (List UInt8)} {s : Split}

theorem Splitting.strings (h : Splitting line found rest s)
    (hhead : ∀ c ∈ rest.head?, isBlank c = false) :
    List.Forall₂ (fun a token => StringAt 0 s.mem a token ∧ a + token.length < s.ptr)
      s.argv found := by
  refine h.argv.imp ?_
  rintro a token ⟨hread, ⟨hzero, hlt⟩ | ⟨-, c, hc, hblank⟩⟩
  · exact ⟨⟨hread, hzero⟩, hlt⟩
  · rw [hhead c hc] at hblank
    cases hblank

theorem Found.strip {a : ℕ} {rest' : List UInt8} {r : Bytes × ℕ × ℕ}
    (h : Found m ptr rest a token) (hs : Stripped m ptr rest rest' r) :
    Found r.1 r.2.1 rest' a token := by
  obtain ⟨hread, hend⟩ := h
  have hle := hs.le_ptr
  constructor
  · rw [← hread, length_slice]
    apply slice_congr
    intro k hk
    rw [hs.mem, if_neg (by omega)]
  · left
    rcases hend with ⟨hzero, hlt⟩ | ⟨heq, hblank⟩
    · refine ⟨?_, by omega⟩
      rw [hs.mem, if_neg (by omega)]
      exact hzero
    · -- The blank behind the argument has become its zero.
      have hmoved := hs.moved hblank
      refine ⟨?_, by omega⟩
      rw [hs.mem, if_pos (by omega)]

section

variable (h : Splitting line found rest s)
include h

theorem Splitting.strip :
    ∃ rest', Splitting line found rest' { s with
        mem := (strip s.mem s.ptr s.left).1, ptr := (strip s.mem s.ptr s.left).2.1,
        left := (strip s.mem s.ptr s.left).2.2 } ∧
      (∀ c ∈ rest'.head?, isBlank c = false) ∧ rest'.length ≤ rest.length := by
  obtain ⟨rest', hs⟩ := strip_spec h.line
  rw [h.left]
  refine ⟨rest', ?_, hs.head, hs.le⟩
  constructor
  · rw [h.eq_tokens, hs.eq_tokens]
  · exact hs.left
  · exact hs.line
  · exact h.argv.imp fun _ _ hfound => hfound.strip hs
  · exact h.max

section

variable (hhead : ∀ c ∈ rest.head?, isBlank c = false)
include hhead

theorem Splitting.complete
    (hend : rest = [] ∨ RT_FINSH_ARG_MAX ≤ s.argv.length) : Complete line s := by
  have hlength := h.argv.length_eq
  have hmax := h.max
  have htake : (tokens line).take RT_FINSH_ARG_MAX = found := by
    rw [h.eq_tokens]
    rcases hend with rfl | hfull
    · rw [tokens_nil, append_nil, take_of_length_le (by omega)]
    · rw [take_left' (by omega)]
  unfold Complete
  rw [htake]
  exact (h.strings hhead).imp fun _ _ => .left

theorem Splitting.snoc (hroom : s.argv.length < RT_FINSH_ARG_MAX)
    {after : List UInt8} (htokens : tokens rest = token :: tokens after) {a : ℕ}
    (ha : s.ptr ≤ a) (hm : ∀ x, x < a + token.length → m x = s.mem x)
    (hafter : LineAt 0 m ptr after) (hfound : Found m ptr after a token) (hptr : s.ptr ≤ ptr) :
    Splitting line (found ++ [token]) after
      { mem := m, ptr := ptr, left := after.length, argv := s.argv ++ [a] } where
  eq_tokens := by rw [h.eq_tokens, htokens, append_assoc, singleton_append]
  left := rfl
  line := hafter
  argv := by
    refine rel_append ((h.strings hhead).imp ?_) (.cons hfound .nil)
    rintro b token' ⟨hstring, hlt⟩
    have hsame : StringAt 0 m b token' := hstring.congr fun x _ hx => hm x (by omega)
    exact ⟨hsame.1, .inl ⟨hsame.2, lt_of_lt_of_le hlt hptr⟩⟩
  max := by
    simp
    omega

theorem Splitting.complete_last (hroom : s.argv.length < RT_FINSH_ARG_MAX)
    (htokens : tokens rest = [token]) {a left : ℕ} (htoken : StringAt 0 s.mem a token) :
    Complete line { s with ptr := ptr, left := left, argv := s.argv ++ [a] } := by
  have hlength := h.argv.length_eq
  unfold Complete
  rw [h.eq_tokens, htokens, take_of_length_le (by simp; omega)]
  refine rel_append ((h.strings hhead).imp fun _ _ => .left) ?_
  exact .cons htoken .nil

end

end

/-- What a pass does: it finds another argument, or leaves with all of them. -/
def Passes (line rest : List UInt8) (r : Except Fault (Split ⊕ Split)) : Prop :=
  (∃ s' found' rest', r = .ok (.inl s') ∧ Splitting line found' rest' s' ∧
    rest'.length < rest.length) ∨ ∃ s', r = .ok (.inr s') ∧ Complete line s'

/-- A pass that finds a quoted argument. -/
theorem Splitting.passes_string (h : Splitting line found (quote :: rest) s)
    (hroom : s.argv.length < RT_FINSH_ARG_MAX) :
    Passes line (quote :: rest)
      (let r := skipString s.mem (s.ptr + 1) (s.left - 1)
       let s := { s with ptr := r.1, left := r.2, argv := s.argv ++ [s.ptr + 1] }
       if s.left = 0 then .ok (.inr s)
       else .ok (.inl { s with
         mem := update s.mem s.ptr 0, ptr := s.ptr + 1, left := s.left - 1 })) := by
  obtain ⟨-, -, htail⟩ := lineAt_cons_iff.mp h.line
  obtain ⟨hskip, hcloses⟩ := skipString_spec quote htail (fun hq => absurd hq (by decide))
  have hhead : ∀ c ∈ (quote :: rest).head?, isBlank c = false := by
    intro c hc
    rw [← Option.some.inj hc]
    rfl
  have htokens : tokens (quote :: rest) = _ := tokens_quote
  rw [h.left, length_cons, Nat.add_sub_cancel, hskip]
  generalize quoted quote rest = q at *
  obtain ⟨token, after⟩ := q
  dsimp only at *
  rcases hcloses with ⟨rfl, rfl⟩ | rfl
  · -- The line ends before the string does.
    right
    refine ⟨_, if_pos (Nat.sub_self _), ?_⟩
    rw [tokens_nil] at htokens
    exact h.complete_last hhead hroom htokens htail.string
  · left
    obtain ⟨hread, hclose⟩ := htail.of_append
    obtain ⟨-, -, hafter⟩ := lineAt_cons_iff.mp hclose
    have hleft : (token ++ quote :: after).length - token.length = after.length + 1 := by simp
    rw [hleft]
    refine ⟨_, found ++ [token], after, if_neg (by omega), ?_, by simp; omega⟩
    apply h.snoc hhead hroom htokens (by omega) (fun x hx => update_of_ne (by omega) _ _)
    · exact hafter.congr fun x hx => update_of_ne (by omega) _ _
    · constructor
      · rw [← hread, length_slice]
        apply slice_congr
        intro k hk
        exact update_of_ne (by omega) _ _
      · exact .inl ⟨update_self .., by omega⟩
    · omega

/-- A pass that finds a word. -/
theorem Splitting.passes_word (h : Splitting line found rest s)
    (hhead : ∀ c ∈ rest.head?, isBlank c = false) (hne : rest ≠ [])
    (hquote : rest.head? ≠ some quote) (hroom : s.argv.length < RT_FINSH_ARG_MAX) :
    Passes line rest
      (let r := skipWord s.mem s.ptr s.left
       let s := { s with ptr := r.1, left := r.2, argv := s.argv ++ [s.ptr] }
       if s.left = 0 then .ok (.inr s) else .ok (.inl s)) := by
  have htokens : tokens rest = rest.takeWhile (fun c => !isBlank c) ::
      tokens (rest.dropWhile fun c => !isBlank c) := by
    cases rest with
    | nil => exact absurd rfl hne
    | cons c rest =>
      exact tokens_word (by simp [hhead c rfl]) fun hc => hquote (by rw [hc]; rfl)
  have hshorter : (rest.dropWhile fun c => !isBlank c).length < rest.length := by
    cases rest with
    | nil => exact absurd rfl hne
    | cons c rest =>
      rw [dropWhile_cons, if_pos (by simp [hhead c rfl])]
      exact lt_succ_of_le (length_dropWhile_le _ rest)
  have hblank : ∀ c ∈ (rest.dropWhile fun c => !isBlank c).head?, isBlank c = true := by
    intro c hc
    have := head?_dropWhile_not (fun c => !isBlank c) rest
    rw [Option.mem_def.mp hc] at this
    simpa using this
  have hsplit : rest.takeWhile (fun c => !isBlank c) ++ rest.dropWhile (fun c => !isBlank c) = rest :=
    takeWhile_append_dropWhile
  rw [h.left, skipWord_spec h.line]
  have hline := h.line
  generalize rest.takeWhile (fun c => !isBlank c) = token at *
  generalize (rest.dropWhile fun c => !isBlank c) = after at *
  subst hsplit
  obtain ⟨hread, hafter⟩ := hline.of_append
  -- The word ends the line, or a blank follows that the next pass overwrites.
  by_cases hend : after = []
  · subst hend
    right
    refine ⟨_, if_pos rfl, ?_⟩
    rw [tokens_nil] at htokens
    exact h.complete_last hhead hroom htokens ⟨hread, hafter.string.2⟩
  · left
    have hlength : after.length ≠ 0 := fun h => hend (length_eq_zero_iff.mp h)
    refine ⟨_, found ++ [token], after, if_neg hlength, ?_, hshorter⟩
    apply h.snoc hhead hroom htokens le_rfl (fun _ _ => rfl) hafter
    · refine ⟨hread, .inr ⟨rfl, ?_⟩⟩
      cases after with
      | nil => exact absurd rfl hend
      | cons c after => exact ⟨c, rfl, hblank c rfl⟩
    · omega

/-- A pass finds one argument, or ends the loop with all of them. -/
theorem Splitting.pass (h : Splitting line found rest s) : Passes line rest (splitPass s) := by
  unfold splitPass
  by_cases hleft : s.left = 0
  · -- Nothing is left, so the last argument is not waiting for a blank to be cleared.
    rw [if_pos hleft]
    have hrest : rest = [] := length_eq_zero_iff.mp (h.left.symm.trans hleft)
    subst hrest
    exact .inr ⟨s, rfl, h.complete (by simp) (.inl rfl)⟩
  rw [if_neg hleft]
  obtain ⟨rest', h', hhead, hle⟩ := h.strip
  have hweaken : ∀ {r}, Passes line rest' r → Passes line rest r := by
    rintro r (⟨s', found', rest'', hr, hsplit, hlt⟩ | hleave)
    · exact .inl ⟨s', found', rest'', hr, hsplit, by omega⟩
    · exact .inr hleave
  apply hweaken
  clear hweaken hle
  generalize RtThread.Finsh.strip s.mem s.ptr s.left = r at h' ⊢
  obtain ⟨m, ptr, left⟩ := r
  dsimp only at h' ⊢
  by_cases hfull : RT_FINSH_ARG_MAX ≤ s.argv.length
  · rw [if_pos hfull]
    exact .inr ⟨_, rfl, h'.complete hhead (.inr hfull)⟩
  rw [if_neg hfull]
  have hroom : s.argv.length < RT_FINSH_ARG_MAX := not_le.mp hfull
  cases rest' with
  | nil =>
    have hzero : left = 0 := h'.left
    rw [if_pos hzero]
    exact .inr ⟨_, rfl, h'.complete hhead (.inl rfl)⟩
  | cons c rest' =>
    have hc : m ptr = c := (lineAt_cons_iff.mp h'.line).1
    have hne : left ≠ 0 := by
      have := h'.left
      simp at this
      omega
    rw [if_neg hne]
    by_cases hquote : m ptr = quote
    · rw [if_pos hquote]
      obtain rfl : c = quote := hc.symm.trans hquote
      exact h'.passes_string hroom
    · rw [if_neg hquote]
      exact h'.passes_word hhead (by simp) (by simpa [← hc] using hquote) hroom

end Outer

variable {line : List UInt8}

theorem exists_returns_splitPass {cmd : ℕ}
    (hline : LineAt 0 m cmd line) :
    ∃ s, Returns .fuel splitPass { mem := m, ptr := cmd, left := line.length, argv := [] } s ∧
      Complete line s := by
  apply exists_returns (I := fun s => ∃ found rest, Splitting line found rest s) (fun s => s.left)
  · rintro s ⟨found, rest, h⟩
    rcases h.pass with ⟨s', found', rest', hs', h', hlt⟩ | hleave
    · refine .inl ⟨s', hs', ⟨found', rest', h'⟩, ?_⟩
      rw [h.left, h'.left]
      exact hlt
    · exact .inr hleave
  · exact ⟨[], line, rfl, rfl, hline, .nil, zero_le _⟩

theorem Complete.length_argv {s : Split} (h : Complete line s) :
    s.argv.length = min (tokens line).length RT_FINSH_ARG_MAX := by
  rw [h.length_eq, length_take, min_comm]

theorem Complete.stringAt {s : Split} (h : Complete line s) {i : ℕ}
    (hi : i < s.argv.length) (hi' : i < (tokens line).length) :
    StringAt 0 s.mem s.argv[i] (tokens line)[i] := by
  have hget := (forall₂_iff_get.mp h).2 i hi (h.length_eq ▸ hi)
  simpa using hget

/-- Every line is split into its arguments: their number is returned, up to the limit, and each of them
is left in the memory as a string. -/
theorem msh_split_tokens {m : Bytes} {cmd : ℕ} {line : List UInt8} (hline : LineAt 0 m cmd line) :
    ∃ fuel argc argv m', mshSplit fuel m cmd line.length = .ok (argc, argv, m') ∧
      argc = min (tokens line).length RT_FINSH_ARG_MAX ∧ argv.length = argc ∧
      ∀ i (h : i < argv.length) (h' : i < (tokens line).length),
        StringAt 0 m' argv[i] (tokens line)[i] := by
  obtain ⟨s, ⟨fuel, hloop⟩, hcomplete⟩ := exists_returns_splitPass hline
  refine ⟨fuel, s.argv.length, s.argv, s.mem, ?_, hcomplete.length_argv, rfl, ?_⟩
  · rw [mshSplit, hloop]
    rfl
  · intro i hi hi'
    exact hcomplete.stringAt hi hi'

/-- The memory that begins with the given bytes. -/
def holding (bytes : List UInt8) : Bytes := fun a => bytes.getD a 0

/-- The line `a "b c"` -/
theorem msh_split_tokens_twoArguments : LineAt 0 (holding [97, 32, 34, 98, 32, 99, 34]) 0
      [97, 32, 34, 98, 32, 99, 34] ∧
    ∃ fuel argc argv m', mshSplit fuel (holding [97, 32, 34, 98, 32, 99, 34]) 0 7 =
        .ok (argc, argv, m') ∧
      argc = min (tokens [97, 32, 34, 98, 32, 99, 34]).length RT_FINSH_ARG_MAX ∧
      argv.length = argc ∧
      ∀ i (h : i < argv.length) (h' : i < (tokens [97, 32, 34, 98, 32, 99, 34]).length),
        StringAt 0 m' argv[i] (tokens [97, 32, 34, 98, 32, 99, 34])[i] := by
  have hline : LineAt 0 (holding [97, 32, 34, 98, 32, 99, 34]) 0 [97, 32, 34, 98, 32, 99, 34] :=
    ⟨⟨rfl, rfl⟩, by decide⟩
  exact ⟨hline, msh_split_tokens hline⟩

example : tokens [97, 32, 34, 98, 32, 99, 34] = [[97], [98, 32, 99]] := by
  simp [tokens, isBlank, quote, backslash, quoted]

/-- A command that the table has is called with its own name as the first argument, unless the name
begins with a quote. -/
theorem mshExecCmd_name {χ : Type} {mshGetCmd : List UInt8 → Option χ} {cmd : ℕ}
    {command : χ} (hline : LineAt 0 m cmd line)
    (hname : mshGetCmd (line.takeWhile fun c => !isBlank c) = some command)
    (hblank : ∃ c ∈ line.head?, isBlank c = false ∧ c ≠ quote) :
    ∃ fuel argc argv m', mshExecCmd mshGetCmd fuel m cmd line.length =
        .ok (some (command, argc, argv, m')) ∧
      ∃ a ∈ argv.head?, StringAt 0 m' a (line.takeWhile fun c => !isBlank c) := by
  obtain ⟨s, ⟨fuel, hloop⟩, hcomplete⟩ := exists_returns_splitPass hline
  obtain ⟨c, hc, hnb, hnq⟩ := hblank
  cases line with
  | nil => cases hc
  | cons d rest =>
    obtain rfl : d = c := Option.some.inj hc
    have htokens : tokens (d :: rest) = _ := tokens_word (by simp [hnb]) hnq
    have hskip := skipWord_spec hline
    have hread : slice m cmd ((d :: rest).takeWhile fun c => !isBlank c).length =
        (d :: rest).takeWhile fun c => !isBlank c := by
      have hsplit : (d :: rest).takeWhile (fun c => !isBlank c) ++
          (d :: rest).dropWhile (fun c => !isBlank c) = d :: rest :=
        takeWhile_append_dropWhile
      exact (LineAt.of_append (hsplit.symm ▸ hline)).1
    have hsize : ((d :: rest).takeWhile fun c => !isBlank c).length ≠ 0 := by simp [hnb]
    have hpos : 0 < s.argv.length := by
      rw [hcomplete.length_argv, htokens]
      simp [RT_FINSH_ARG_MAX]
    have hstring := hcomplete.stringAt hpos (by simp [htokens])
    simp only [htokens, getElem_cons_zero] at hstring
    have hhead : s.argv[0] ∈ s.argv.head? := by
      rw [head?_eq_getElem?, getElem?_eq_getElem hpos]
      rfl
    refine ⟨fuel, s.argv.length, s.argv, s.mem, ?_, s.argv[0], hhead, hstring⟩
    unfold mshExecCmd
    rw [hskip]
    simp only [Nat.add_sub_cancel_left, if_neg hsize, hread, hname]
    rw [mshSplit, hloop]
    show (if s.argv.length = 0 then _ else _) = _
    rw [if_neg (by omega)]

/-- The command `ps 1`. -/
theorem mshExecCmd_name_ps : LineAt 0 (holding [112, 115, 32, 49]) 0 [112, 115, 32, 49] ∧
    ∃ fuel argc argv m', mshExecCmd (fun name => if name = [112, 115] then some () else none) fuel
        (holding [112, 115, 32, 49]) 0 4 = .ok (some ((), argc, argv, m')) ∧
      ∃ a ∈ argv.head?, StringAt 0 m' a [112, 115] := by
  have hline : LineAt 0 (holding [112, 115, 32, 49]) 0 [112, 115, 32, 49] := ⟨⟨rfl, rfl⟩, by decide⟩
  exact ⟨hline, mshExecCmd_name hline rfl ⟨112, rfl, by decide⟩⟩

end RtThread.Finsh
