import Mathlib.Data.List.Destutter
import Mathlib.Data.List.InsertIdx
import RtThread.Finsh.Shell
import RtThread.Lib.Run

/-!
# The line editor edits a line

`Editor` is what the keys of the shell are for: a text, a cursor and a list of earlier lines. `Shows`
relates it to the model of `Finsh/Shell.lean`. Every key keeps this relation, with one exception: a
line that reaches `FINSH_CMD_SIZE` characters is discarded by setting the positions to zero, but the
buffer keeps its characters. In the shell's own language Enter puts a semicolon behind the text, and if
that fills the buffer there is no zero left to end the string.
-/

namespace RtThread.Finsh

open Lib Function List

/-! ## What the keys are for -/

/-- A text with a cursor, the lines entered before, and the place in them that recalls go from. -/
structure Editor where
  text : List Char
  cursor : ℕ
  history : List (List Char)
  current : ℕ
  deriving DecidableEq

namespace Editor

variable (e : Editor)

/-- A line of the history in place of the text. -/
def recalled (k : ℕ) : Editor :=
  let text := e.history.getD k []
  { e with text := text, cursor := text.length, current := k }

/-- The lines kept after Enter: an empty line and a repetition of the last line are not added, and the
oldest line makes room. -/
def pushed : List (List Char) :=
  if e.text = [] ∨ e.history.getLast? = some e.text then e.history
  else if e.history.length < FINSH_HISTORY_LINES then e.history ++ [e.text]
  else e.history.tail ++ [e.text]

/-- The effect of a key. A line that reaches `FINSH_CMD_SIZE` characters is discarded. -/
def press : Key → Editor
  | .char c =>
    if e.text.length + 1 < FINSH_CMD_SIZE then
      { e with text := e.text.insertIdx e.cursor c, cursor := e.cursor + 1 }
    else { e with text := [], cursor := 0 }
  | .backspace _ =>
    if e.cursor = 0 then e
    else { e with text := e.text.eraseIdx (e.cursor - 1), cursor := e.cursor - 1 }
  | .left => { e with cursor := e.cursor - 1 }
  | .right => { e with cursor := min (e.cursor + 1) e.text.length }
  | .up => if e.current = 0 then e else e.recalled (e.current - 1)
  | .down => if e.history = [] then e else e.recalled (min (e.current + 1) (e.history.length - 1))
  | .enter _ => ⟨[], 0, e.pushed, e.pushed.length⟩

/-- What Enter executes: the text, and in the shell's own language a semicolon behind it. -/
def command (msh : Bool) : Option Command :=
  if msh then some (.mshExec e.text)
  else if e.text = [] then none
  else some (.finshRunLine (e.text ++ [';']))

end Editor

/-! ## The two levels -/

/-- A text that fits into a buffer with a zero behind it. -/
structure Fits (t : List Char) : Prop where
  length_lt : t.length < FINSH_CMD_SIZE
  zero_notMem : '\x00' ∉ t

/-- A buffer that has a text and zeros behind it. -/
def Row (row : ℕ → Char) (t : List Char) : Prop := ∀ i < FINSH_CMD_SIZE, row i = t.getD i '\x00'

/-- The shell has the text, the cursor and the history of the editor. -/
structure Shows (s : Shell) (e : Editor) : Prop where
  stat : s.stat = .waitNormal
  position : s.linePosition = e.text.length
  curpos : s.lineCurpos = e.cursor
  cursor_le : e.cursor ≤ e.text.length
  fits : Fits e.text
  line : Row s.line e.text
  current : s.currentHistory = e.current
  current_le : e.current ≤ e.history.length
  count : s.historyCount = e.history.length
  count_le : e.history.length ≤ FINSH_HISTORY_LINES
  rows : ∀ k < e.history.length, Row (s.cmdHistory k) (e.history.getD k [])
  lines : ∀ t ∈ e.history, Fits t ∧ t ≠ []

theorem getD_append_replicate (t : List Char) (n i : ℕ) :
    (t ++ replicate n '\x00').getD i '\x00' = t.getD i '\x00' := by
  simp only [getD_eq_getElem?_getD, getElem?_append, getElem?_replicate]
  split_ifs with hlt
  · rfl
  · rw [getElem?_eq_none (by omega)]
    rfl
  · rw [getElem?_eq_none (by omega)]

variable {row : ℕ → Char} {t : List Char}

theorem Row.map_range (h : Row row t) (hfits : Fits t) :
    (range FINSH_CMD_SIZE).map row = t ++ replicate (FINSH_CMD_SIZE - t.length) '\x00' := by
  have hlt := hfits.length_lt
  apply ext_getElem
  · rw [length_map, length_range, length_append, length_replicate]
    omega
  · intro i hi hi'
    rw [length_map, length_range] at hi
    rw [getElem_map, getElem_range, h i hi, ← getD_append_replicate t,
      getD_eq_getElem _ _ hi']

theorem Row.map_range_length (h : Row row t) (hfits : Fits t) : (range t.length).map row = t := by
  have hlt := hfits.length_lt
  apply ext_getElem
  · rw [length_map, length_range]
  · intro i hi hi'
    rw [getElem_map, getElem_range, h i (by omega), getD_eq_getElem _ _ hi']

theorem Row.takeWhile_eq (h : Row row t) (hfits : Fits t) (rest : List Char) :
    ((range FINSH_CMD_SIZE).map row ++ rest).takeWhile (· ≠ '\x00') = t := by
  obtain ⟨n, hn⟩ : ∃ n, FINSH_CMD_SIZE - t.length = n + 1 :=
    ⟨FINSH_CMD_SIZE - t.length - 1, by have := hfits.length_lt; omega⟩
  rw [h.map_range hfits, hn, replicate_succ, append_assoc, takeWhile_append_of_pos]
  · simp
  · intro c hc
    have hne : c ≠ '\x00' := fun hzero => hfits.zero_notMem (hzero ▸ hc)
    simpa using hne

variable {s : Shell}

theorem Row.lineString {env : Surroundings} (h : Row s.line t) (hfits : Fits t) :
    s.lineString env = t :=
  h.takeWhile_eq hfits _

theorem Row.unique {t' : List Char} (h : Row row t) (h' : Row row t')
    (hfits : Fits t) (hfits' : Fits t') : t = t' :=
  (h.takeWhile_eq hfits []).symm.trans (h'.takeWhile_eq hfits' [])

theorem Row.exists_ne_iff {row' : ℕ → Char} {t' : List Char} (h : Row row t) (h' : Row row' t')
    (hfits : Fits t) (hfits' : Fits t') : (∃ i < FINSH_CMD_SIZE, row i ≠ row' i) ↔ t ≠ t' := by
  constructor
  · rintro ⟨i, hi, hne⟩ rfl
    exact hne ((h i hi).trans (h' i hi).symm)
  · intro hne
    by_contra hsame
    push Not at hsame
    have hrow : Row row t' := fun i hi => (hsame i hi).trans (h' i hi)
    exact hne (h.unique hrow hfits hfits')

theorem Row.erase (h : Row row t) {k : ℕ} (hk : k < t.length) (hlt : t.length < FINSH_CMD_SIZE) :
    Row (update (if t.length - 1 > k then rtMemmove row k (k + 1) (t.length - 1 - k) else row)
      (t.length - 1) '\x00') (t.eraseIdx k) := by
  intro i hi
  have hend : ∀ j, t.length ≤ j → t[j]? = none := fun j hj => getElem?_eq_none hj
  rw [getD_eq_getElem?_getD, getElem?_eraseIdx]
  by_cases hlast : i = t.length - 1
  · rw [hlast, update_self, if_neg (by omega), hend _ (by omega)]
    rfl
  · rw [update_of_ne hlast]
    have hrow := h i hi
    rw [getD_eq_getElem?_getD] at hrow
    by_cases hmove : t.length - 1 > k
    · rw [if_pos hmove, rtMemmove_apply]
      by_cases hin : k ≤ i ∧ i < k + (t.length - 1 - k)
      · have hidx : i - k + (k + 1) = i + 1 := by omega
        rw [if_pos hin, if_neg (by omega), hidx, h _ (by omega), getD_eq_getElem?_getD]
      · rw [if_neg hin, hrow]
        by_cases hbefore : i < k
        · rw [if_pos hbefore]
        · rw [if_neg hbefore, hend _ (by omega), hend _ (by omega)]
    · rw [if_neg hmove, hrow]
      by_cases hbefore : i < k
      · rw [if_pos hbefore]
      · rw [if_neg hbefore, hend _ (by omega), hend _ (by omega)]

/-- Inserting a character moves the rest of the row. -/
theorem Row.insert (h : Row row t) {k : ℕ} (hk : k ≤ t.length) (c : Char) :
    Row (if k < t.length then update (rtMemmove row (k + 1) k (t.length - k)) k c
      else update row t.length c) (t.insertIdx k c) := by
  intro i hi
  have hrow := h i hi
  rw [getD_eq_getElem?_getD] at hrow ⊢
  rw [getElem?_insertIdx]
  by_cases hmove : k < t.length
  · rw [if_pos hmove]
    by_cases hat : i = k
    · rw [hat, update_self, if_neg (by omega), if_pos rfl, if_pos hk]
      rfl
    · rw [update_of_ne hat, rtMemmove_apply]
      by_cases hin : k + 1 ≤ i ∧ i < k + 1 + (t.length - k)
      · have hidx : i - (k + 1) + k = i - 1 := by omega
        rw [if_pos hin, if_neg (by omega), if_neg hat, hidx, h _ (by omega),
          getD_eq_getElem?_getD]
      · rw [if_neg hin, hrow]
        by_cases hbefore : i < k
        · rw [if_pos hbefore]
        · rw [if_neg hbefore, if_neg hat, getElem?_eq_none (by omega),
            getElem?_eq_none (by omega)]
  · have hkt : k = t.length := by omega
    rw [if_neg hmove]
    by_cases hat : i = k
    · rw [hat, ← hkt, update_self, if_neg (by omega), if_pos rfl, if_pos le_rfl]
      rfl
    · rw [← hkt, update_of_ne hat, hrow]
      by_cases hbefore : i < k
      · rw [if_pos hbefore]
      · rw [if_neg hbefore, if_neg hat, getElem?_eq_none (by omega),
          getElem?_eq_none (by omega)]

/-! ## One key -/

namespace Shell

variable {env : Surroundings} {s : Shell}

theorem press_control (env : Surroundings) (h : s.stat = .waitNormal) :
    s.press env .up = (s.upKey env, none) ∧ s.press env .down = (s.downKey env, none) ∧
      s.press env .left = (s.leftKey, none) ∧ s.press env .right = (s.rightKey, none) := by
  obtain ⟨stat, msh, current, count, history, line, position, curpos⟩ := s
  cases h
  exact ⟨rfl, rfl, rfl, rfl⟩

theorem press_backspace (h : s.stat = .waitNormal) (del : Bool) :
    s.press env (.backspace del) = (s.backspaceKey, none) := by
  cases del <;> simp [press, Key.chars, keys, finshThreadStep, h, handle]

theorem press_enter (h : s.stat = .waitNormal) (cr : Bool) :
    s.press env (.enter cr) = s.enterKey env := by
  cases cr <;> simp [press, Key.chars, keys, finshThreadStep, h, handle]

theorem press_char (h : s.stat = .waitNormal) {c : Char} (hlo : ' ' ≤ c) (hhi : c ≤ '~') :
    s.press env (.char c) = (s.normalKey c, none) := by
  have hne : ∀ d : Char, d < ' ' ∨ '~' < d → c ≠ d := by
    rintro d hd rfl
    exact hd.elim (Char.not_le.mpr · hlo) (Char.not_le.mpr · hhi)
  have hesc := hne '\x1b' (by decide)
  have hzero := hne '\x00' (by decide)
  have hff := hne '\xff' (by decide)
  have htab := hne '\t' (by decide)
  have hdel := hne '\x7f' (by decide)
  have hbs := hne '\x08' (by decide)
  have hcr := hne '\r' (by decide)
  have hlf := hne '\n' (by decide)
  simp [press, Key.chars, keys, finshThreadStep, h, handle, hesc, hzero, hff, htab, hdel, hbs, hcr,
    hlf]

end Shell

namespace Shows

variable {env : Surroundings} {s : Shell} {e : Editor}

section

variable (h : Shows s e)
include h

theorem recalled {k : ℕ} (hk : k < e.history.length) : Shows (s.recalled env k) (e.recalled k) := by
  obtain ⟨hfits, -⟩ := h.lines (e.history.getD k [])
    (by rw [getD_eq_getElem _ _ hk]; exact getElem_mem hk)
  have hrow : Row (fun i => if i < FINSH_CMD_SIZE then s.cmdHistory k i else s.line i)
      (e.history.getD k []) := by
    intro i hi
    dsimp only
    rw [if_pos hi]
    exact h.rows k hk i hi
  have hmod : (e.history.getD k []).length % 2 ^ 8 = (e.history.getD k []).length := by
    have hlt := hfits.length_lt
    unfold FINSH_CMD_SIZE at hlt
    omega
  unfold Shell.recalled Shell.toEnd
  rw [Row.lineString (t := e.history.getD k []) hrow hfits, hmod]
  exact { h with
    position := rfl, curpos := rfl, cursor_le := le_rfl, fits := hfits, line := hrow, current := rfl
    current_le := hk.le }

theorem upKey : Shows (s.upKey env) (e.press .up) := by
  have hle := h.current_le
  have hcurrent := h.current
  unfold Shell.upKey Editor.press
  by_cases hzero : e.current = 0
  · rw [if_neg (by omega), if_pos hzero]
    exact { h with current := hzero.symm }
  · rw [if_pos (by omega), if_neg hzero, hcurrent]
    exact h.recalled (by omega)

theorem downKey : Shows (s.downKey env) (e.press .down) := by
  have hcurrent := h.current
  have hcount := h.count
  unfold Shell.downKey Editor.press
  by_cases hnil : e.history = []
  · have hzero : e.history.length = 0 := by rw [hnil, length_nil]
    rw [if_neg (by omega), if_neg (by omega), if_pos hnil]
    exact h
  · have hpos : 0 < e.history.length := length_pos_iff.mpr hnil
    rw [if_neg hnil]
    by_cases hnext : (s.currentHistory : ℤ) < s.historyCount - 1
    · have hmin : min (e.current + 1) (e.history.length - 1) = s.currentHistory + 1 := by omega
      rw [if_pos hnext, hmin]
      exact h.recalled (by omega)
    · have hmin : min (e.current + 1) (e.history.length - 1) = s.historyCount - 1 := by omega
      rw [if_neg hnext, if_pos (by omega), hmin]
      exact h.recalled (by omega)

theorem leftKey : Shows s.leftKey (e.press .left) := by
  have hcurpos := h.curpos
  have hle := h.cursor_le
  unfold Shell.leftKey Editor.press
  by_cases hzero : s.lineCurpos = 0
  · have hsame : e.cursor - 1 = e.cursor := by omega
    rw [if_neg (by simpa using hzero), hsame]
    exact h
  · rw [if_pos hzero]
    exact { h with curpos := congrArg (· - 1) hcurpos, cursor_le := (Nat.sub_le _ _).trans hle }

theorem rightKey : Shows s.rightKey (e.press .right) := by
  have hcurpos := h.curpos
  have hposition := h.position
  have hle := h.cursor_le
  have hlt := h.fits.length_lt
  unfold FINSH_CMD_SIZE at hlt
  unfold Shell.rightKey Editor.press
  by_cases hend : s.lineCurpos < s.linePosition
  · have hmin : min (e.cursor + 1) e.text.length = (s.lineCurpos + 1) % 2 ^ 8 := by omega
    rw [if_pos hend, hmin]
    exact { h with curpos := rfl, cursor_le := hmin ▸ min_le_right _ _ }
  · have hmin : min (e.cursor + 1) e.text.length = e.cursor := by omega
    rw [if_neg hend, hmin]
    exact h

theorem backspaceKey (del : Bool) : Shows s.backspaceKey (e.press (.backspace del)) := by
  have hcurpos := h.curpos
  have hposition := h.position
  have hle := h.cursor_le
  have hlt := h.fits.length_lt
  have hsize : FINSH_CMD_SIZE < 2 ^ 8 := by decide
  unfold Shell.backspaceKey Editor.press
  by_cases hzero : e.cursor = 0
  · rw [if_pos (by omega), if_pos hzero]
    exact h
  · have hpos : (s.linePosition + (2 ^ 8 - 1)) % 2 ^ 8 = e.text.length - 1 := by omega
    have hcur : (s.lineCurpos + (2 ^ 8 - 1)) % 2 ^ 8 = e.cursor - 1 := by omega
    rw [if_neg (by omega), if_neg hzero, hpos, hcur]
    have hlen : (e.text.eraseIdx (e.cursor - 1)).length = e.text.length - 1 := by
      rw [length_eraseIdx, if_pos (by omega)]
    have hfits : Fits (e.text.eraseIdx (e.cursor - 1)) :=
      ⟨by omega, fun hmem => h.fits.zero_notMem (mem_of_mem_eraseIdx hmem)⟩
    have hcursor : e.cursor - 1 ≤ (e.text.eraseIdx (e.cursor - 1)).length := by omega
    exact { h with
      position := hlen.symm, curpos := rfl, cursor_le := hcursor, fits := hfits
      line := h.line.erase (by omega) hlt }

theorem normalKey {c : Char} (hc : c ≠ '\x00')
    (hroom : e.text.length + 1 < FINSH_CMD_SIZE) : Shows (s.normalKey c) (e.press (.char c)) := by
  have hcurpos := h.curpos
  have hposition := h.position
  have hle := h.cursor_le
  have hsize : FINSH_CMD_SIZE < 2 ^ 8 := by decide
  unfold Shell.normalKey Editor.press
  dsimp only
  have hpos : (e.text.length + 1) % 2 ^ 8 = e.text.length + 1 := by omega
  have hcur : (e.cursor + 1) % 2 ^ 8 = e.cursor + 1 := by omega
  rw [hposition, hcurpos, if_neg (by omega : ¬e.text.length ≥ FINSH_CMD_SIZE), hpos, hcur,
    if_neg (by omega), if_pos hroom]
  have hlen : (e.text.insertIdx e.cursor c).length = e.text.length + 1 := by
    rw [length_insertIdx, if_pos hle]
  have hfits : Fits (e.text.insertIdx e.cursor c) := by
    refine ⟨by omega, fun hmem => ?_⟩
    rw [mem_insertIdx hle] at hmem
    exact hmem.elim (Ne.symm hc) h.fits.zero_notMem
  have hcursor : e.cursor + 1 ≤ (e.text.insertIdx e.cursor c).length := by omega
  exact { h with
    position := hlen.symm, curpos := rfl, cursor_le := hcursor, fits := hfits
    line := h.line.insert hle c }

theorem position_eq_zero_iff : s.linePosition = 0 ↔ e.text = [] := by
  rw [h.position, length_eq_zero_iff]

theorem textRow : Row s.textRow e.text := by
  intro i hi
  unfold Shell.textRow
  rw [h.position]
  split_ifs with hlt
  · exact h.line i hi
  · rw [getD_eq_getElem?_getD, getElem?_eq_none (by omega)]
    rfl

theorem differs_iff (hpos : 0 < e.history.length) :
    s.differs (e.history.length - 1) ↔ e.history.getLast? ≠ some e.text := by
  have hlt : e.history.length - 1 < e.history.length := by omega
  have hlast : e.history.getLast? = some (e.history.getD (e.history.length - 1) []) := by
    rw [getLast?_eq_getElem?, getElem?_eq_getElem hlt, getD_eq_getElem _ _ hlt]
  have hfits := (h.lines _ (mem_of_getLast? hlast)).1
  rw [hlast, Ne, Option.some.injEq]
  exact (h.rows _ hlt).exists_ne_iff h.line hfits h.fits

end

theorem rows_append {rows : ℕ → ℕ → Char} {history : List (List Char)}
    (h : ∀ k < history.length, Row (rows k) (history.getD k [])) (hrow : Row row t) :
    ∀ k < (history ++ [t]).length,
      Row (update rows history.length row k) ((history ++ [t]).getD k []) := by
  intro k hk
  rw [length_append, length_singleton] at hk
  rw [getD_eq_getElem?_getD, getElem?_append]
  by_cases hlast : k = history.length
  · rw [hlast, update_self, if_neg (by omega), Nat.sub_self]
    exact hrow
  · rw [update_of_ne hlast, if_pos (by omega), ← getD_eq_getElem?_getD]
    exact h k (by omega)

theorem unpushed (h : Shows s e) :
    Shows { s with currentHistory := s.historyCount }
      { e with current := e.history.length } :=
  { h with current := h.count, current_le := le_rfl }

/-- The line goes to the history as the editor puts it there. -/
theorem pushHistory (h : Shows s e) :
    Shows s.shellPushHistory { e with history := e.pushed, current := e.pushed.length } := by
  have hcount := h.count
  have hcountle := h.count_le
  unfold Shell.shellPushHistory
  by_cases hnil : e.text = []
  · have hpushed : e.pushed = e.history := if_pos (.inl hnil)
    rw [if_neg (not_not.mpr (h.position_eq_zero_iff.mpr hnil)), hpushed]
    exact h.unpushed
  · rw [if_pos (h.position_eq_zero_iff.not.mpr hnil)]
    by_cases hlast : e.history.getLast? = some e.text
    · -- The line repeats the last one.
      have hpushed : e.pushed = e.history := if_pos (.inr hlast)
      have hpos := length_pos_of_mem (mem_of_getLast? hlast)
      have hsame : ¬s.differs (e.history.length - 1) := fun hd => (h.differs_iff hpos).mp hd hlast
      rw [hpushed, hcount]
      by_cases hfull : e.history.length ≥ FINSH_HISTORY_LINES
      · have hlen : FINSH_HISTORY_LINES = e.history.length := by omega
        rw [if_pos hfull, hlen, if_neg hsame]
        exact h.unpushed
      · rw [if_neg hfull, if_neg (not_or.mpr ⟨hpos.ne', hsame⟩)]
        exact h.unpushed
    · have hnew : ¬(e.text = [] ∨ e.history.getLast? = some e.text) := not_or.mpr ⟨hnil, hlast⟩
      have hlines : ∀ l : List (List Char), (∀ t ∈ l, t ∈ e.history) →
          ∀ t ∈ l ++ [e.text], Fits t ∧ t ≠ [] := by
        intro l hl t ht
        rcases mem_append.mp ht with hmem | hmem
        · exact h.lines t (hl t hmem)
        · rw [mem_singleton.mp hmem]
          exact ⟨h.fits, hnil⟩
      rw [hcount]
      by_cases hfull : e.history.length ≥ FINSH_HISTORY_LINES
      · -- The oldest line makes room for the new one.
        have hlen : e.history.length = FINSH_HISTORY_LINES := by omega
        have hpushed : e.pushed = e.history.tail ++ [e.text] := by
          rw [Editor.pushed, if_neg hnew, if_neg (by omega)]
        have htail : e.history.tail.length = FINSH_HISTORY_LINES - 1 := by
          rw [length_tail, hlen]
        have hdiff : s.differs (FINSH_HISTORY_LINES - 1) := by
          rw [← hlen]
          exact (h.differs_iff (hlen ▸ by decide)).mpr hlast
        have hrows : ∀ k < e.history.tail.length,
            Row ((fun k => if k < FINSH_HISTORY_LINES - 1 then s.cmdHistory (k + 1)
              else s.cmdHistory k) k) (e.history.tail.getD k []) := by
          intro k hk
          dsimp only
          rw [if_pos (by omega), getD_eq_getElem?_getD, getElem?_tail,
            ← getD_eq_getElem?_getD]
          exact h.rows (k + 1) (by omega)
        have happend := rows_append hrows h.textRow
        rw [htail] at happend
        have hnewlen : (e.history.tail ++ [e.text]).length = FINSH_HISTORY_LINES := by
          rw [length_append, htail]
          rfl
        rw [if_pos hfull, if_pos hdiff, hpushed]
        exact { h with
          current := hnewlen.symm, current_le := le_rfl, count := hnewlen.symm
          count_le := hnewlen.le, rows := happend
          lines := hlines _ fun t ht => mem_of_mem_tail ht }
      · have hpushed : e.pushed = e.history ++ [e.text] := by
          rw [Editor.pushed, if_neg hnew, if_pos (by omega)]
        have hdiff : e.history.length = 0 ∨ s.differs (e.history.length - 1) := by
          refine (Nat.eq_zero_or_pos _).imp_right fun hpos => ?_
          exact (h.differs_iff hpos).mpr hlast
        have hnewlen : (e.history ++ [e.text]).length = e.history.length + 1 := by
          rw [length_append, length_singleton]
        rw [if_neg hfull, if_pos hdiff, hpushed]
        exact { h with
          current := hnewlen.symm, current_le := le_rfl, count := hnewlen.symm
          count_le := by rw [hnewlen]; omega
          rows := rows_append h.rows h.textRow
          lines := hlines _ fun t ht => ht }

theorem enterKey (h : Shows s e) (cr : Bool) : Shows (s.enterKey env).1 (e.press (.enter cr)) := by
  have hclear : Row (fun i => if i < FINSH_CMD_SIZE then '\x00' else s.shellPushHistory.line i) [] := by
    intro i hi
    exact if_pos hi
  have hfits : Fits [] := ⟨by decide, not_mem_nil⟩
  exact { h.pushHistory with
    position := rfl, curpos := rfl, cursor_le := le_rfl, fits := hfits, line := hclear }

theorem command (h : Shows s e) (hroom : s.msh ∨ s.linePosition + 1 < FINSH_CMD_SIZE) :
    s.command env = e.command s.msh := by
  have hposition := h.position
  unfold Shell.command Editor.command
  by_cases hmsh : s.msh
  · rw [if_pos hmsh, if_pos hmsh, hposition, h.line.map_range_length h.fits]
  · rw [if_neg hmsh, if_neg hmsh]
    by_cases hnil : e.text = []
    · rw [if_neg (not_not.mpr (h.position_eq_zero_iff.mpr hnil)), if_pos hnil]
    · have hlt := hroom.resolve_left hmsh
      have hrow : Row (update s.line s.linePosition ';') (e.text ++ [';']) := by
        have hinsert := h.line.insert le_rfl ';'
        rwa [if_neg (lt_irrefl _), insertIdx_length_self, ← hposition] at hinsert
      have hfits : Fits (e.text ++ [';']) := by
        refine ⟨?_, fun hmem => ?_⟩
        · rw [length_append, length_singleton, ← hposition]
          exact hlt
        · rcases mem_append.mp hmem with hmem | hmem
          · exact h.fits.zero_notMem hmem
          · exact absurd (mem_singleton.mp hmem) (by decide)
      rw [if_pos (h.position_eq_zero_iff.not.mpr hnil), if_neg hnil]
      exact congrArg (fun l => some (Command.finshRunLine l)) (Row.lineString hrow hfits)

theorem enterKey_command (h : Shows s e) (hroom : s.msh ∨ s.linePosition + 1 < FINSH_CMD_SIZE) :
    (s.enterKey env).2 = e.command s.msh := by
  have hmsh : s.shellPushHistory.msh = s.msh := by
    unfold Shell.shellPushHistory
    split_ifs <;> rfl
  have hposition : s.shellPushHistory.linePosition = s.linePosition := by
    rw [h.pushHistory.position, h.position]
  rw [← hmsh, ← hposition] at hroom
  exact (h.pushHistory.command hroom).trans (by rw [hmsh]; rfl)

end Shows

/-! ## Runs -/

/-- The shell, with the editor that it should be. -/
structure Session where
  shell : Shell
  editor : Editor

/-- The keys of a run: printable characters and the control keys. -/
def Key.Typed : Key → Prop
  | .char c => ' ' ≤ c ∧ c ≤ '~'
  | _ => True

/-- A character leaves the line shorter than the buffer, and Enter in the shell's own language finds
room for the semicolon and a zero. -/
def Key.Short (s : Shell) : Key → Prop
  | .char _ => s.linePosition + 1 < FINSH_CMD_SIZE
  | .enter _ => s.msh ∨ s.linePosition + 1 < FINSH_CMD_SIZE
  | _ => True

/-- A character leaves the line shorter than the buffer. -/
def Key.Fits (s : Shell) : Key → Prop
  | .char _ => s.linePosition + 1 < FINSH_CMD_SIZE
  | _ => True

instance : DecidablePred Key.Typed := fun k => by
  cases k <;> unfold Key.Typed <;> infer_instance

instance (s : Shell) : DecidablePred (Key.Short s) := fun k => by
  cases k <;> unfold Key.Short <;> infer_instance

instance (s : Shell) : DecidablePred (Key.Fits s) := fun k => by
  cases k <;> unfold Key.Fits <;> infer_instance

/-- The record as `rt_calloc` returns it, in either mode. -/
def Shell.fresh (msh : Bool) : Shell :=
  ⟨.waitNormal, msh, 0, 0, fun _ _ => '\x00', fun _ => '\x00', 0, 0⟩

/-- A key goes to both. -/
def Session.press (s : Session) (a : Key × Surroundings) : Session :=
  ⟨(s.shell.press a.2 a.1).1, s.editor.press a.1⟩

/-- The runs of keys, from a shell that has been started. -/
def lineSystem : System Session (Key × Surroundings) where
  init s := ∃ msh, s = ⟨Shell.fresh msh, ⟨[], 0, [], 0⟩⟩
  step s a s' := a.1.Typed ∧ s' = s.press a

theorem shows_fresh (msh : Bool) : Shows (Shell.fresh msh) ⟨[], 0, [], 0⟩ where
  stat := rfl
  position := rfl
  curpos := rfl
  cursor_le := le_rfl
  fits := ⟨by decide, not_mem_nil⟩
  line := fun _ _ => rfl
  current := rfl
  current_le := le_rfl
  count := rfl
  count_le := by decide
  rows := fun _ hk => absurd hk (Nat.not_lt_zero _)
  lines := fun _ ht => absurd ht not_mem_nil

theorem Shows.press {s : Session} (h : Shows s.shell s.editor) {a : Key × Surroundings}
    (htyped : a.1.Typed) (hfits : a.1.Fits s.shell) :
    Shows (s.press a).shell (s.press a).editor := by
  obtain ⟨key, env⟩ := a
  obtain ⟨hup, hdown, hleft, hright⟩ := Shell.press_control env h.stat
  unfold Session.press
  cases key with
  | char c =>
    have hzero : c ≠ '\x00' := by
      rintro rfl
      exact absurd htyped.1 (by decide)
    rw [Shell.press_char h.stat htyped.1 htyped.2]
    exact h.normalKey hzero (h.position ▸ hfits)
  | backspace del =>
    rw [Shell.press_backspace h.stat]
    exact h.backspaceKey del
  | left => exact hleft ▸ h.leftKey
  | right => exact hright ▸ h.rightKey
  | up => exact hup ▸ h.upKey
  | down => exact hdown ▸ h.downKey
  | enter cr =>
    rw [Shell.press_enter h.stat]
    exact h.enterKey cr

theorem Key.Short.fits {key : Key} (h : key.Short s) : key.Fits s := by
  cases key <;> first | exact h | trivial

theorem shows_of_reachable {s : Session}
    (h : Reachable lineSystem (fun s a => a.1.Short s.shell) s) : Shows s.shell s.editor := by
  refine h.invariant ?_ ?_
  · rintro s ⟨msh, rfl⟩
    exact shows_fresh msh
  · rintro s a s' hshows hshort ⟨htyped, rfl⟩
    exact hshows.press htyped hshort.fits

/-- In every sequence of keys in which no line becomes as long as the buffer, the positions are in
order, the buffer has the text of the editor and zeros behind it, and Enter executes that text. -/
theorem shell_line_editing {s : Session}
    (h : Reachable lineSystem (fun s a => a.1.Short s.shell) s) :
    s.shell.lineCurpos ≤ s.shell.linePosition ∧ s.shell.linePosition < FINSH_CMD_SIZE ∧
      (range s.shell.linePosition).map s.shell.line = s.editor.text ∧
      (∀ i, s.shell.linePosition ≤ i → i < FINSH_CMD_SIZE → s.shell.line i = '\x00') ∧
      (∀ env cr, (Key.enter cr).Short s.shell →
        (s.shell.press env (.enter cr)).2 = s.editor.command s.shell.msh) := by
  have hshows := shows_of_reachable h
  have hposition := hshows.position
  refine ⟨?_, ?_, ?_, ?_, ?_⟩
  · rw [hposition, hshows.curpos]
    exact hshows.cursor_le
  · rw [hposition]
    exact hshows.fits.length_lt
  · rw [hposition]
    exact hshows.line.map_range_length hshows.fits
  · intro i hle hi
    rw [hshows.line i hi, getD_eq_getElem?_getD, getElem?_eq_none (by omega)]
    rfl
  · intro env cr hshort
    rw [Shell.press_enter hshows.stat]
    exact hshows.enterKey_command hshort

/-- Surroundings in which a command does nothing. -/
def quiet : Surroundings := ⟨id, [], false⟩

/-- A key that can be typed. -/
def Session.exec (s : Session) (a : Key × Surroundings) : Option Session :=
  if a.1.Typed then some (s.press a) else none

theorem Session.step_of_exec (s : Session) (a : Key × Surroundings) (s' : Session)
    (h : s.exec a = some s') : lineSystem.step s a s' := by
  unfold Session.exec at h
  split_ifs at h with htyped
  exact ⟨htyped, (Option.some.inj h).symm⟩

/-- The keys `ac`, left, `b` give the line `abc`. -/
theorem shell_line_editing_abc : ∃ s, Reachable lineSystem (fun s a => a.1.Short s.shell) s ∧
    s.editor.text = "abc".toList ∧ (range s.shell.linePosition).map s.shell.line = s.editor.text := by
  have hreach : ∃ s, Reachable lineSystem (fun s a => a.1.Short s.shell) s ∧
      s.editor.text = "abc".toList := by
    refine exists_reachable_of_run (f := Session.exec) (s := ⟨Shell.fresh false, ⟨[], 0, [], 0⟩⟩) ⟨_, rfl⟩
      [(.char 'a', quiet), (.char 'c', quiet), (.left, quiet), (.char 'b', quiet)] ?_ Session.step_of_exec
    decide
  obtain ⟨s, hs, htext⟩ := hreach
  exact ⟨s, hs, htext, (shell_line_editing hs).2.2.1⟩

/-- A line of 80 letters is discarded, and its letters are behind the end of the empty line; after one
more letter, Enter executes that letter and most of the discarded line. -/
theorem discarded_line_reappears :
    ∃ s : Session, Reachable lineSystem always s ∧ s.shell.linePosition = 1 ∧
      s.editor.text = ['b'] ∧ s.shell.line 79 = 'a' ∧ (s.shell.press quiet (.enter true)).2 =
        some (.finshRunLine ('b' :: ';' :: replicate 78 'a' ++ ['\x01', '\x01'])) := by
  refine exists_reachable_of_run (f := Session.exec) (s := ⟨Shell.fresh false, ⟨[], 0, [], 0⟩⟩) ⟨_, rfl⟩
    (replicate 80 (.char 'a', quiet) ++ [(.char 'b', quiet)]) ?_ Session.step_of_exec
  decide +kernel

/-! ## The history -/

/-- The line that a key enters, if it is Enter: the text that the keys before have given. -/
def Key.entered (e : Editor) : Key → List (List Char)
  | .enter _ => [e.text]
  | _ => []

/-- A session and the lines entered in it, the oldest first. -/
structure Logged extends Session where
  lines : List (List Char)

/-- A key, with the line that an Enter enters. -/
def Logged.press (s : Logged) (a : Key × Surroundings) : Logged :=
  ⟨s.toSession.press a, s.lines ++ a.1.entered s.editor⟩

/-- The runs of keys, with a log of the lines entered. -/
def historySystem : System Logged (Key × Surroundings) where
  init s := ∃ msh, s = ⟨⟨Shell.fresh msh, ⟨[], 0, [], 0⟩⟩, []⟩
  step s a s' := a.1.Typed ∧ s' = s.press a

variable (lines : List (List Char))

/-- The lines that are not empty and differ from the one before. -/
def distinct : List (List Char) :=
  (lines.filter (· ≠ [])).destutter (· ≠ ·)

/-- The last ones of them, which the history has. -/
def kept : List (List Char) :=
  (distinct lines).drop ((distinct lines).length - FINSH_HISTORY_LINES)

/-- The shell after up keys. -/
def Shell.ups (s : Shell) (envs : List Surroundings) : Shell :=
  envs.foldl (fun s env => (s.press env .up).1) s

theorem destutter'_concat {a : List Char} (l : List (List Char)) :
    (l ++ [t]).destutter' (· ≠ ·) a = if (l.destutter' (· ≠ ·) a).getLast? = some t
      then l.destutter' (· ≠ ·) a else l.destutter' (· ≠ ·) a ++ [t] := by
  induction l generalizing a with
  | nil =>
    by_cases h : a = t <;> simp [h]
  | cons b l ih =>
    rw [cons_append, destutter'_cons, destutter'_cons, ih, ih]
    have hlast := getLast?_eq_some_getLast (l.destutter'_ne_nil (R := (· ≠ ·)) (a := b))
    split_ifs <;> simp_all [getLast?_cons]

theorem distinct_concat : distinct (lines ++ [t]) =
    if t = [] ∨ (distinct lines).getLast? = some t then distinct lines else distinct lines ++ [t] := by
  unfold distinct
  rw [filter_append]
  by_cases hnil : t = []
  · simp [hnil]
  rw [show [t].filter (· ≠ []) = [t] by simp [hnil]]
  cases lines.filter (· ≠ []) with
  | nil => simp [hnil]
  | cons a l =>
    simp only [hnil, false_or]
    exact destutter'_concat l

theorem pushed_eq_kept {e : Editor} {lines : List (List Char)} (h : e.history = kept lines) :
    e.pushed = kept (lines ++ [e.text]) := by
  have hlines : 0 < FINSH_HISTORY_LINES := by decide
  have hlast : (kept lines).getLast? = (distinct lines).getLast? := by
    rw [kept, getLast?_drop]
    split
    · next hle =>
      rw [length_eq_zero_iff.mp (by omega : (distinct lines).length = 0), getLast?_nil]
    · rfl
  rw [Editor.pushed, h, hlast, kept, kept, distinct_concat, length_drop]
  split_ifs with hsame hroom
  · rfl
  · rw [length_append, length_singleton, Nat.sub_eq_zero_of_le (by omega),
      Nat.sub_eq_zero_of_le (by omega)]
    rfl
  · rw [length_append, length_singleton, tail_drop, drop_append_of_le_length (by omega),
      Nat.sub_add_comm (by omega)]

theorem history_press {e : Editor} {lines : List (List Char)} {key : Key}
    (hkept : e.history = kept lines) : (e.press key).history = kept (lines ++ key.entered e) := by
  cases key with
  | enter cr => exact pushed_eq_kept hkept
  | _ =>
    simp only [Key.entered, append_nil, ← hkept, Editor.press]
    try split_ifs <;> rfl

theorem Shows.ups {e : Editor} (h : Shows s e) {envs : List Surroundings}
    (hle : envs.length ≤ e.current) (htext : e.text = e.history.getD e.current []) : ∃ e',
      Shows (s.ups envs) e' ∧ e'.text = e.history.getD (e.current - envs.length) [] := by
  induction envs generalizing s e with
  | nil => exact ⟨e, h, htext⟩
  | cons env envs ih =>
    rw [length_cons] at hle ⊢
    have hup : Shows (s.upKey env) (e.press .up) := h.upKey
    rw [Editor.press, if_neg (by omega)] at hup
    rw [Shell.ups, foldl_cons, (Shell.press_control env h.stat).1, Nat.add_comm, ← Nat.sub_sub]
    exact ih hup (show _ ≤ e.current - 1 by omega) rfl

/-- In every sequence of keys in which no line becomes as long as the buffer, the buffer has the text
that the keys give, the history has the last lines entered that are not empty and differ from the one
before, the oldest first, and after Enter up keys show them from the last one on. -/
theorem shell_history {s : Logged} (h : Reachable historySystem (fun s a => a.1.Fits s.shell) s) :
    Row s.shell.line s.editor.text ∧ s.shell.historyCount = (kept s.lines).length ∧
    (∀ k < (kept s.lines).length, Row (s.shell.cmdHistory k) ((kept s.lines).getD k [])) ∧
    ∀ env cr s' envs, historySystem.step s (.enter cr, env) s' → envs.length ≤ (kept s'.lines).length →
      ∃ t, t = (kept s'.lines).getD ((kept s'.lines).length - envs.length) [] ∧
        Row (s'.shell.ups envs).line t ∧ (s'.shell.ups envs).linePosition = t.length := by
  have hinv : Shows s.shell s.editor ∧ s.editor.history = kept s.lines := by
    refine h.invariant ?_ ?_
    · rintro s ⟨msh, rfl⟩
      exact ⟨shows_fresh msh, rfl⟩
    · rintro s a s' ⟨hshows, hkept⟩ hfits ⟨htyped, rfl⟩
      exact ⟨hshows.press htyped hfits, history_press hkept⟩
  obtain ⟨hshows, hkept⟩ := hinv
  rw [← hkept]
  refine ⟨hshows.line, hshows.count, hshows.rows, ?_⟩
  rintro env cr _ envs ⟨htyped, rfl⟩ hle
  have hnext : (s.press (.enter cr, env)).editor.history = kept (s.press (.enter cr, env)).lines :=
    history_press hkept
  rw [← hnext] at hle ⊢
  have hentered := hshows.press (a := (.enter cr, env)) htyped trivial
  obtain ⟨e', hups, htext⟩ := hentered.ups hle (by simp [Session.press, Editor.press])
  exact ⟨_, htext, hups.line, hups.position⟩

/-- The lines `a` and `b`. -/
theorem shell_history_two : ∃ s, Reachable historySystem (fun s a => a.1.Fits s.shell) s ∧
    s.lines = [['a'], ['b']] ∧ s.shell.historyCount = 2 ∧ Row (s.shell.cmdHistory 1) ['b'] := by
  have hreach : ∃ s, Reachable historySystem (fun s a => a.1.Fits s.shell) s ∧ s.lines = [['a'], ['b']] := by
    refine exists_reachable_of_run (s := ⟨⟨Shell.fresh true, ⟨[], 0, [], 0⟩⟩, []⟩)
      (f := fun s a => if a.1.Typed then some (s.press a) else none)
      ⟨_, rfl⟩ [(.char 'a', quiet), (.enter true, quiet), (.char 'b', quiet), (.enter true, quiet)] ?_ ?_
    · decide
    · intro s a s' h
      split_ifs at h with htyped
      exact ⟨htyped, (Option.some.inj h).symm⟩
  obtain ⟨s, hs, hlines⟩ := hreach
  obtain ⟨-, hcount, hrows, -⟩ := shell_history hs
  rw [hlines] at hcount hrows
  exact ⟨s, hs, hlines, hcount, hrows 1 (by decide)⟩

end RtThread.Finsh
