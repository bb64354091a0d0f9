import RtThread.Finsh.LineEdit
import RtThread.Finsh.Symbol

/-!
# Completing the name of a command

The model of `msh_auto_complete` and `str_common` in `components/finsh/msh.c`, on the buffer of the line
editor. The first entry of the table that begins with the text is kept with the number of characters
that all such entries have in common with it (`foldl_takeCommand`). These are copied to the buffer
without a check of their number, so there must be room for them and a zero.
-/

namespace RtThread.Finsh

open Lib List

/-! ## The source -/

/-- `str_common`: the number of first characters that two texts share. -/
def strCommon : List Char → List Char → ℕ
  | c :: s, d :: t => if c = d then strCommon s t + 1 else 0
  | _, _ => 0

/-- What the names of commands begin with in the table. -/
def cmdTag : List Char := "__cmd_".toList

/-- A command that begins with the text, in the loop. `name_ptr` is set whenever `min_length` is not
zero. -/
def takeCommand (s : Option (List Char) × ℕ) (cmd_name : List Char) : Option (List Char) × ℕ :=
  let (name_ptr, min_length) :=
    if s.2 = 0 then (cmd_name, cmd_name.length) else (s.1.getD [], s.2)
  (some name_ptr, min (strCommon name_ptr cmd_name) min_length)

/-- One entry of the table: only commands that begin with the text count. -/
def completePass (text : List Char) (s : Option (List Char) × ℕ) (e : Syscall) :
    Option (List Char) × ℕ :=
  if strncmp e.name.chars cmdTag 6 ≠ 0 then s
  else if strncmp text (e.name.chars.drop 6) text.length = 0 then takeCommand s (e.name.chars.drop 6)
  else s

/-- The text in the buffer, up to its zero. -/
def bufferText (line : ℕ → Char) : List Char :=
  ((range FINSH_CMD_SIZE).map line).takeWhile (· ≠ '\x00')

/-- `msh_auto_complete`. A path behind the last blank is completed by `completePath`. -/
def mshAutoComplete (completePath : ℕ → (ℕ → Char) → ℕ → Char) (table : List Syscall) (line : ℕ → Char) :
    ℕ → Char :=
  if bufferText line = [] then line
  else
    let blank := (range (bufferText line).length).reverse.find? fun i => 0 < i ∧ line i = ' '
    let line := (blank.map fun i => completePath (i + 1) line).getD line
    match table.foldl (completePass (bufferText line)) (none, 0) with
    | (none, _) => line
    -- `rt_strncpy`, with no more characters than the name has
    | (some name_ptr, min_length) => fun i => if i < min_length then name_ptr.getD i '\x00' else line i

/-! ## Commands that begin with a text -/

/-- The commands of a table that begin with a text. -/
def commands (table : List Syscall) (text : List Char) : List (List Char) :=
  (table.filterMap fun e => if cmdTag <+: e.name.chars then some (e.name.chars.drop 6) else none).filter
    (text <+: ·)

variable (L : List (List Char))

/-- A text that all of `L` begin with. -/
def Common (t : List Char) : Prop := ∀ s ∈ L, t <+: s

/-- The longest text that all of `L` begin with. -/
def LongestCommon (t : List Char) : Prop := Common L t ∧ ∀ u, Common L u → u <+: t

theorem common_iff {s t u : List Char} (hs : u <+: s) : u <+: t ↔ u.length ≤ strCommon s t := by
  induction u generalizing s t with
  | nil => simp
  | cons c u ih =>
    obtain ⟨s, rfl⟩ := hs
    cases t with
    | nil => simp [strCommon]
    | cons d t =>
      rw [cons_append, strCommon, cons_prefix_cons, ih (prefix_append u s)]
      split_ifs with hcd <;> simp [hcd]

theorem common_append {L : List (List Char)} {cmd u : List Char} :
    Common (L ++ [cmd]) u ↔ Common L u ∧ u <+: cmd := by
  simp [Common, or_imp, forall_and]

variable {text : List Char}

theorem foldl_takeCommand {L : List (List Char)} (hne : text ≠ []) (hall : Common L text) (hL : L ≠ []) :
    ∃ name n, L.foldl takeCommand (none, 0) = (some name, n) ∧ name ∈ L ∧ n ≤ name.length ∧
      ∀ u, Common L u ↔ u <+: name.take n := by
  induction L using reverseRecOn with
  | nil => exact absurd rfl hL
  | append_singleton L cmd ih =>
    obtain ⟨hall, -⟩ := common_append.mp hall
    rw [foldl_append, foldl_cons, foldl_nil]
    by_cases hL : L = []
    · subst hL
      have hself := (common_iff (prefix_refl cmd)).mp (prefix_refl cmd)
      refine ⟨cmd, cmd.length, by simp [takeCommand, hself], by simp, le_rfl, fun u => ?_⟩
      simp [Common]
    · obtain ⟨name, n, hs, hmem, hle, hcommon⟩ := ih hall hL
      -- The text is in front of the common characters, so their number is not zero.
      have hlen := (prefix_take_iff.mp ((hcommon text).mp hall)).2
      have hpos : 0 < text.length := length_pos_iff.mpr hne
      refine ⟨name, min (strCommon name cmd) n, ?_, by simp [hmem], by omega, fun u => ?_⟩
      · rw [hs, takeCommand, if_neg (show n ≠ 0 by omega)]
        rfl
      · rw [common_append, hcommon, prefix_take_iff, prefix_take_iff, le_min_iff, and_assoc,
          and_comm (b := u <+: cmd)]
        exact and_congr_right fun hu => and_congr_left fun _ => common_iff hu

theorem foldl_completePass (hzero : '\x00' ∉ text) (table : List Syscall) (s : Option (List Char) × ℕ) :
    table.foldl (completePass text) s = (commands table text).foldl takeCommand s := by
  induction table generalizing s with
  | nil => rfl
  | cons e table ih =>
    have htag : strncmp e.name.chars cmdTag 6 = 0 ↔ cmdTag <+: e.name.chars :=
      strncmp_length_eq_zero_iff e.name.zero_notMem (t := cmdTag) (by decide)
    have hcmp : strncmp text (e.name.chars.drop 6) text.length = 0 ↔ text <+: e.name.chars.drop 6 :=
      strncmp_length_left hzero fun hmem => e.name.zero_notMem (mem_of_mem_drop hmem)
    rw [foldl_cons, ih]
    by_cases hcmd : cmdTag <+: e.name.chars
    · by_cases htext : text <+: e.name.chars.drop 6
      · simp [commands, completePass, htag, hcmp, hcmd, htext]
      · simp [commands, completePass, htag, hcmp, hcmd, htext]
    · simp [commands, completePass, htag, hcmd]

/-- The buffer after a completion. -/
def Completed (line line' : ℕ → Char) : Prop :=
  if L = [] then line' = line else ∃ t, LongestCommon L t ∧ Fits t ∧ Row line' t

/-- A text without blanks is left as it is if no command begins with it, and is else replaced by what
all such commands have in common, exactly if that has room in the buffer. -/
theorem msh_completion_iff {line : ℕ → Char} (completePath : ℕ → (ℕ → Char) → ℕ → Char)
    (table : List Syscall) (hrow : Row line text) (hfits : Fits text) (hne : text ≠ [])
    (hblank : ' ' ∉ text) :
    Completed (commands table text) line (mshAutoComplete completePath table line) ↔
      ∀ t, commands table text ≠ [] → Common (commands table text) t → t.length < FINSH_CMD_SIZE := by
  have htext : bufferText line = text := by
    simpa [bufferText] using hrow.takeWhile_eq hfits []
  have hnone : (range text.length).reverse.find? (fun i => 0 < i ∧ line i = ' ') = none := by
    simp only [find?_eq_none, mem_reverse, mem_range, decide_eq_true_eq, not_and]
    intro i hi _ hspace
    rw [hrow i (hi.trans hfits.length_lt), getD_eq_getElem _ _ hi] at hspace
    exact hblank (hspace ▸ getElem_mem hi)
  have hall : Common (commands table text) text := fun _ hs => of_decide_eq_true (mem_filter.mp hs).2
  rw [mshAutoComplete, htext, if_neg hne, hnone]
  simp only [Option.map_none, Option.getD_none, htext, foldl_completePass hfits.zero_notMem]
  unfold Completed
  split_ifs with hL
  · simp [hL]
  obtain ⟨name, n, hs, hmem, hle, hcommon⟩ := foldl_takeCommand hne hall hL
  rw [hs]
  constructor
  · rintro ⟨t, ⟨-, hlongest⟩, hfits', -⟩ u - hu
    exact (hlongest u hu).length_le.trans_lt hfits'.length_lt
  · intro hroom
    have hcommon' := (hcommon (name.take n)).mpr (prefix_refl _)
    have hlen : (name.take n).length = n := by simp [hle]
    refine ⟨name.take n, ⟨hcommon', fun u hu => (hcommon u).mp hu⟩, ⟨hroom _ hL hcommon', ?_⟩, ?_⟩
    · intro hzero
      obtain ⟨e, -, hname⟩ := mem_filterMap.mp (mem_filter.mp hmem).1
      obtain ⟨-, hsome⟩ := Option.ite_none_right_eq_some.mp hname
      obtain rfl := Option.some.inj hsome
      exact e.name.zero_notMem (mem_of_mem_drop (mem_of_mem_take hzero))
    · intro i hi
      have htextle := (prefix_take_iff.mp ((hcommon text).mp hall)).2
      dsimp only
      rw [hrow i hi, getD_eq_getElem?_getD, getD_eq_getElem?_getD, getD_eq_getElem?_getD, getElem?_take]
      split_ifs with hlt
      · rfl
      · rw [getElem?_eq_none (by omega)]

/-- With the commands `list_thread` and `list_timer`, `li` is completed. -/
theorem msh_completion_list : ∃ (line : ℕ → Char) (table : List Syscall), Row line ['l', 'i'] ∧
    Completed (commands table ['l', 'i']) line (mshAutoComplete (fun _ => id) table line) := by
  let table : List Syscall :=
    [⟨⟨"__cmd_list_thread".toList, by decide⟩, 0⟩, ⟨⟨"__cmd_list_timer".toList, by decide⟩, 0⟩]
  have hrow : Row (['l', 'i'].getD · '\x00') ['l', 'i'] := fun _ _ => rfl
  refine ⟨_, table, hrow, ?_⟩
  refine (msh_completion_iff _ table hrow ⟨by decide, by decide⟩ (by simp) (by decide)).mpr fun t _ ht => ?_
  have hmem : "list_timer".toList ∈ commands table ['l', 'i'] := by decide
  exact lt_of_le_of_lt (ht _ hmem).length_le (by decide)

/-- A command of 80 letters has no room in the buffer. -/
theorem long_command_overflows : ∃ (line : ℕ → Char) (table : List Syscall), Row line ['a'] ∧
    ¬ Completed (commands table ['a']) line (mshAutoComplete (fun _ => id) table line) := by
  let table : List Syscall := [⟨⟨cmdTag ++ replicate 80 'a', by decide⟩, 0⟩]
  have hcommands : commands table ['a'] = [replicate 80 'a'] := by decide
  refine ⟨(['a'].getD · '\x00'), table, fun _ _ => rfl, ?_⟩
  rw [hcommands, Completed, if_neg (by simp)]
  rintro ⟨t, ⟨-, hlongest⟩, hfits, -⟩
  have hle := (hlongest (replicate 80 'a') (by simp [Common])).length_le
  exact absurd hfits.length_lt (not_lt.mpr hle)

end RtThread.Finsh
