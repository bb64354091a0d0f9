import RtThread.Kservice.Memory

/-!
# The line editor of the shell

The model of the loop of `finsh_thread_entry` (`components/finsh/shell.c`), one character at a time,
with `shell_push_history`. The console output is left out. A line is a buffer of `FINSH_CMD_SIZE`
characters with two positions, the end of the text and the cursor; the history is a table of such
buffers. Behind the buffer in the record are the two positions, which matters because `finsh_run_line`
reads a string that begins in the buffer.
-/

namespace RtThread.Finsh

open Lib Function

/-- The characters of a line. -/
def FINSH_CMD_SIZE : ℕ := 80
/-- The lines of the history. -/
def FINSH_HISTORY_LINES : ℕ := 5

/-- `enum input_stat`, for the keys of more than one character. -/
inductive InputStat
  | waitNormal
  | waitSpecKey
  | waitFuncKey
  deriving DecidableEq

/-- `struct finsh_shell`, as far as the editor uses it, and whether `msh` is in use. -/
structure Shell where
  stat : InputStat
  msh : Bool
  currentHistory : ℕ
  historyCount : ℕ
  cmdHistory : ℕ → ℕ → Char
  line : ℕ → Char
  linePosition : ℕ
  lineCurpos : ℕ

/-- What Enter executes: `msh_exec` with a text and its length, or `finsh_run_line` with a string. -/
inductive Command
  | mshExec (cmd : List Char)
  | finshRunLine (line : List Char)
  deriving DecidableEq

/-- What the editor does not determine. -/
structure Surroundings where
  /-- `shell_auto_complete`. -/
  complete : (ℕ → Char) → ℕ → Char
  /-- What is behind the two positions in the record. -/
  behind : List Char
  /-- Whether `msh` is in use after a command. -/
  msh : Bool

namespace Shell

variable (env : Surroundings) (s : Shell)

/-- The characters of the string that begins at `shell->line`. -/
def lineString : List Char :=
  ((List.range FINSH_CMD_SIZE).map s.line ++
    (Char.ofNat s.linePosition :: Char.ofNat s.lineCurpos :: env.behind)).takeWhile (· ≠ '\x00')

/-- Both positions go to the end of the string. -/
def toEnd : Shell :=
  let n := (s.lineString env).length % 2 ^ 8
  { s with linePosition := n, lineCurpos := n }

/-- A line of the history copied into the buffer. -/
def recalled (k : ℕ) : Shell :=
  toEnd env { s with
    currentHistory := k
    line := fun i => if i < FINSH_CMD_SIZE then s.cmdHistory k i else s.line i }

/-- The line before in the history. -/
def upKey : Shell :=
  if s.currentHistory > 0 then s.recalled env (s.currentHistory - 1) else { s with currentHistory := 0 }

/-- The down key. The difference is one of integers, so that an empty history has no next line. -/
def downKey : Shell :=
  if (s.currentHistory : ℤ) < s.historyCount - 1 then s.recalled env (s.currentHistory + 1)
  else if s.historyCount ≠ 0 then s.recalled env (s.historyCount - 1)
  else s

/-- The cursor goes back. -/
def leftKey : Shell := if s.lineCurpos ≠ 0 then { s with lineCurpos := s.lineCurpos - 1 } else s

/-- The cursor goes on. -/
def rightKey : Shell :=
  if s.lineCurpos < s.linePosition then { s with lineCurpos := (s.lineCurpos + 1) % 2 ^ 8 } else s

/-- The line is completed. -/
def tabKey : Shell := toEnd env { s with line := env.complete s.line }

/-- The character in front of the cursor is deleted. -/
def backspaceKey : Shell :=
  if s.lineCurpos = 0 then s
  else
    let position := (s.linePosition + (2 ^ 8 - 1)) % 2 ^ 8
    let curpos := (s.lineCurpos + (2 ^ 8 - 1)) % 2 ^ 8
    let line :=
      if position > curpos then rtMemmove s.line curpos (curpos + 1) (position - curpos) else s.line
    { s with
      line := update line position '\x00'
      linePosition := position
      lineCurpos := curpos }

/-- `memcmp` of a line of the history and the buffer finds a difference. -/
def differs (k : ℕ) : Prop := ∃ i < FINSH_CMD_SIZE, s.cmdHistory k i ≠ s.line i

instance (k : ℕ) : Decidable (s.differs k) := inferInstanceAs (Decidable (∃ i < _, _))

/-- The text of the buffer with zeros behind it, as a line of the history. -/
def textRow : ℕ → Char := fun i => if i < s.linePosition then s.line i else '\x00'

/-- `shell_push_history`: a line that is not the last one again is added. -/
def shellPushHistory : Shell :=
  let s' :=
    if s.linePosition ≠ 0 then
      if s.historyCount ≥ FINSH_HISTORY_LINES then
        if s.differs (FINSH_HISTORY_LINES - 1) then
          { s with
            cmdHistory := update
              (fun k => if k < FINSH_HISTORY_LINES - 1 then s.cmdHistory (k + 1) else s.cmdHistory k)
              (FINSH_HISTORY_LINES - 1) s.textRow
            historyCount := FINSH_HISTORY_LINES }
        else s
      else if s.historyCount = 0 ∨ s.differs (s.historyCount - 1) then
        { s with
          currentHistory := s.historyCount
          cmdHistory := update s.cmdHistory s.historyCount s.textRow
          historyCount := s.historyCount + 1 }
      else s
    else s
  { s' with currentHistory := s'.historyCount }

/-- What an Enter runs. -/
def command : Option Command :=
  if s.msh then some (.mshExec ((List.range s.linePosition).map s.line))
  else if s.linePosition ≠ 0 then
    some (.finshRunLine
      (lineString env { s with line := update s.line s.linePosition ';' }))
  else none

/-- The line goes to the history and is run, and the buffer is cleared. -/
def enterKey : Shell × Option Command :=
  let s := s.shellPushHistory
  ({ s with
      msh := env.msh
      line := fun i => if i < FINSH_CMD_SIZE then '\x00' else s.line i
      linePosition := 0
      lineCurpos := 0 }, s.command env)

/-- A character is inserted at the cursor; a full line is discarded. -/
def normalKey (ch : Char) : Shell :=
  let position := if s.linePosition ≥ FINSH_CMD_SIZE then 0 else s.linePosition
  let line :=
    if s.lineCurpos < position then
      update (rtMemmove s.line (s.lineCurpos + 1) s.lineCurpos (position - s.lineCurpos))
        s.lineCurpos ch
    else update s.line position ch
  let position := (position + 1) % 2 ^ 8
  let curpos := (s.lineCurpos + 1) % 2 ^ 8
  if position ≥ FINSH_CMD_SIZE then { s with line := line, linePosition := 0, lineCurpos := 0 }
  else { s with line := line, linePosition := position, lineCurpos := curpos }

/-- The rest of the loop, behind the control keys. -/
def handle (ch : Char) : Shell × Option Command :=
  if ch = '\x00' ∨ ch = '\xff' then (s, none)
  else if ch = '\t' then (s.tabKey env, none)
  else if ch = '\x7f' ∨ ch = '\x08' then (s.backspaceKey, none)
  else if ch = '\r' ∨ ch = '\n' then s.enterKey env
  else (s.normalKey ch, none)

/-- The loop of `finsh_thread_entry` for one character. -/
def finshThreadStep (ch : Char) : Shell × Option Command :=
  if ch = '\x1b' then ({ s with stat := .waitSpecKey }, none)
  else match s.stat with
    | .waitSpecKey =>
      if ch = '[' then ({ s with stat := .waitFuncKey }, none)
      else handle env { s with stat := .waitNormal } ch
    | .waitFuncKey =>
      let s := { s with stat := .waitNormal }
      if ch = 'A' then (s.upKey env, none)
      else if ch = 'B' then (s.downKey env, none)
      else if ch = 'D' then (s.leftKey, none)
      else if ch = 'C' then (s.rightKey, none)
      else s.handle env ch
    | .waitNormal => s.handle env ch

end Shell

/-! ## Keys -/

/-- The keys. Backspace and Enter have two characters each. -/
inductive Key
  | char (c : Char)
  | backspace (del : Bool)
  | left
  | right
  | up
  | down
  | enter (cr : Bool)

/-- The characters that a terminal sends for a key. -/
def Key.chars : Key → List Char
  | .char c => [c]
  | .backspace del => [if del then '\x7f' else '\x08']
  | .left => ['\x1b', '[', 'D']
  | .right => ['\x1b', '[', 'C']
  | .up => ['\x1b', '[', 'A']
  | .down => ['\x1b', '[', 'B']
  | .enter cr => [if cr then '\r' else '\n']

/-- The characters of a key, with the command of the last of them. -/
def Shell.keys (env : Surroundings) (s : Shell) : List Char → Shell × Option Command
  | [] => (s, none)
  | [c] => s.finshThreadStep env c
  | c :: cs => Shell.keys env (s.finshThreadStep env c).1 cs

/-- A key, character by character. -/
def Shell.press (env : Surroundings) (s : Shell) (key : Key) : Shell × Option Command :=
  s.keys env key.chars

end RtThread.Finsh
