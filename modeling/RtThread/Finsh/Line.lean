import RtThread.Finsh.Compiler
import RtThread.Lib.Run

/-!
# Lines of the shell

The model of `finsh_run_line` of `components/finsh/shell.c`, which parses a line, compiles it if there
was no error, runs the code if there still is none, and prints the bottom of the stack. What is kept
for the next line are the variables, the heap and the memory, and the slots of the stack.
-/

namespace RtThread.Finsh

open Lib

/-- A line that was parsed and compiled without an error: its trees, the shell after the parser, and
the code of each tree. -/
structure Compiled where
  root : Tree
  env : Env
  codes : List (List Instr)

/-- The first two steps of `finsh_run_line`, if no error is set. -/
def compileLine (fuel : ℕ) (env : Env) (line : Cstring) : Except Fault (Option Compiled) := do
  let (root, p) ← parseLine fuel env line
  if p.errno = .ok then
    let (codes, error) ← finshCompilerRun p.env root
    return if error = .ok then some ⟨root, p.env, codes⟩ else none
  else return none

theorem compileLine_eq_some {fuel : ℕ} {env : Env} {line : Cstring} {c : Compiled}
    (h : compileLine fuel env line = .ok (some c)) :
    ∃ p, parseLine fuel env line = .ok (c.root, p) ∧ p.errno = .ok ∧ p.env = c.env ∧
      finshCompilerRun c.env c.root = .ok (c.codes, .ok) := by
  obtain ⟨⟨root, p⟩, hparse, h⟩ := of_bind_ok h
  dsimp only at h
  split_ifs at h with herrno
  · obtain ⟨⟨codes, error⟩, hcompile, h⟩ := of_bind_ok h
    split_ifs at h with herror
    · cases h
      exact ⟨p, hparse, herrno, rfl, herror ▸ hcompile⟩
    · cases h
  · cases h

theorem exists_compileLine {fuel : ℕ} {env : Env} {line : Cstring} {P : Compiled → Prop}
    [DecidablePred P]
    (h : (match compileLine fuel env line with
      | .ok (some c) => decide (P c)
      | _ => false) = true) :
    ∃ c, compileLine fuel env line = .ok (some c) ∧ P c := by
  split at h
  · next c hc => exact ⟨c, hc, of_decide_eq_true h⟩
  · cases h

/-- The shell after `finsh_init`, without symbols, with its arrays at some addresses. -/
def freshEnv : Env where
  vars := finshVarInit
  varBase := 2048
  varBase_le := by decide
  sysvars := ⟨[], []⟩
  syscalls := ⟨[], []⟩
  sysvarAt := fun _ => 0
  syscallAt := fun _ => 0
  heap := Heap.finshHeapInit ⟨1024, by decide, by decide, 0, 0, fun _ => 0⟩

/-- What the shell keeps from one line to the next. -/
structure ShellState where
  env : Env
  /-- `finsh_vm_stack`. -/
  stack : ℤ → BitVec 32

/-- What a line leaves: the shell, the number printed if the code was run, the blocks of its string
literals, and the calls of `finsh_heap_allocate` that it made. -/
structure LineResult where
  state : ShellState
  printed : Option (BitVec 32)
  literals : List ℕ
  calls : List AllocCall

/-- `finsh_run_line`. The compiler clears the first slot of the stack, and only this one. -/
def finshRunLine (fuel : ℕ) (call : Call) (s : ShellState) (line : Cstring) :
    Except Fault LineResult := do
  let (root, p) ← parseLine fuel s.env line
  if p.errno = .ok then
    let (codes, error) ← finshCompilerRun p.env root
    let stack := Function.update s.stack 0 0
    if FINSH_TEXT_MAX < (encode (lineCode codes)).length then throw .wild
    else if error = .ok then
      let vm ← finshVmRun call (textSegment (lineCode codes)) p.env stack
      return ⟨⟨vm.env, vm.stack⟩, some (vm.stack 0), p.literals, p.calls⟩
    else return ⟨⟨p.env, stack⟩, none, p.literals, p.calls⟩
  else return ⟨⟨p.env, s.stack⟩, none, p.literals, p.calls⟩

end RtThread.Finsh
