import RtThread.Finsh.Line

/-!
# What the collector of the shell releases

A string literal of a line is copied to a block of the heap while the line is parsed
(`finsh_node_new_string`), and when no free block is long enough `finsh_heap_allocate` runs the
collector first. The collector looks at the variables only: a literal that stands further left in the
same line is in no variable yet, and its block is released although the code of the line will refer to
it. A run is a sequence of lines, and its state records the calls made so far.
-/

namespace RtThread.Finsh

open Lib

/-! ## One call -/

namespace Heap

variable {h h' : Heap} {vars released : List ℕ}

theorem gcLoop_released {fuel header : ℕ} (hloop : gcLoop vars fuel h header = .ok (h', released)) :
    ∀ data ∈ released, data ∉ vars := by
  induction fuel generalizing h header released with
  | zero => cases hloop
  | succ fuel ih =>
    unfold gcLoop at hloop
    split_ifs at hloop with hend hvar
    · cases hloop
      simp
    · exact ih hloop
    · obtain ⟨h₁, -, hloop⟩ := of_bind_ok hloop
      obtain ⟨⟨h₂, rest⟩, hrest, hloop⟩ := of_bind_ok hloop
      cases hloop
      intro data hdata
      rcases List.mem_cons.mp hdata with rfl | hdata
      · exact hvar
      · exact ih hrest data hdata

end Heap

namespace AllocCall

variable (c : AllocCall)

/-- The collector is run: the first search finds no block. -/
def Collects : Prop :=
  Heap.firstFit c.heap.mem (fun length => length ≤ add32 (heapAlignSize c.size) HEADER_SIZE)
    FINSH_HEAP_MAX c.heap.freeList = .ok 0

/-- Nothing that is released is the value of a variable or a literal of the line. -/
def Spares : Prop :=
  ∀ r, c.heap.finshHeapAllocate c.vars c.size = .ok r →
    ∀ data ∈ r.2.2, data ∉ c.vars ∧ data ∉ c.literals

/-- If the collector is run, the literals in front are in variables. In particular there may be
none. -/
def Safe : Prop := c.Collects → ∀ data ∈ c.literals, data ∈ c.vars

instance : Decidable c.Collects := inferInstanceAs (Decidable (_ = _))
instance : Decidable c.Spares := inferInstanceAs (Decidable (∀ _, _ → _))
instance : Decidable c.Safe := inferInstanceAs (Decidable (_ → _))

variable {c}

theorem released_notMem_vars {r : ℕ × Heap × List ℕ}
    (h : c.heap.finshHeapAllocate c.vars c.size = .ok r) :
    ∀ data ∈ r.2.2, c.Collects ∧ data ∉ c.vars := by
  obtain ⟨header, hfirst, h⟩ := of_bind_ok h
  split_ifs at h with hfound
  · obtain ⟨heap, -, h⟩ := of_bind_ok h
    cases h
    simp
  · obtain ⟨⟨h₁, released⟩, hgc, h⟩ := of_bind_ok h
    obtain ⟨second, -, h⟩ := of_bind_ok h
    have hcollects : c.Collects := by
      rw [not_not.mp hfound] at hfirst
      exact hfirst
    have hreleased : r.2.2 = released := by
      split_ifs at h
      · obtain ⟨heap, -, h⟩ := of_bind_ok h
        cases h
        rfl
      · cases h
        rfl
    rw [hreleased]
    exact fun data hdata => ⟨hcollects, Heap.gcLoop_released hgc data hdata⟩

theorem Safe.spares (h : c.Safe) : c.Spares := by
  intro r hr data hdata
  obtain ⟨hcollects, hvars⟩ := released_notMem_vars hr data hdata
  exact ⟨hvars, fun hliteral => hvars (h hcollects data hliteral)⟩

end AllocCall

/-! ## Lines -/

/-- The shell, and the calls of `finsh_heap_allocate` so far. -/
structure LineRun where
  shell : ShellState
  calls : List AllocCall

/-- A line, with what the functions called in it do. -/
structure Entered where
  line : Cstring
  call : Call
  fuel : ℕ

namespace LineRun

/-- A line is run, and its calls of the allocator are recorded. -/
def exec (s : LineRun) (e : Entered) : Except Fault LineRun := do
  let r ← finshRunLine e.fuel e.call s.shell e.line
  return ⟨r.state, s.calls ++ r.calls⟩

/-- No call of the line loses a literal of the line. -/
def Safe (s : LineRun) (e : Entered) : Prop :=
  ∀ r, finshRunLine e.fuel e.call s.shell e.line = .ok r → ∀ c ∈ r.calls, c.Safe

instance (s : LineRun) (e : Entered) : Decidable (s.Safe e) :=
  inferInstanceAs (Decidable (∀ _, _ → _))

end LineRun

/-- The shell from `finsh_init` on, with any tables of symbols. -/
def enteredSystem : System LineRun Entered where
  init := fun s => s.shell.env.vars = finshVarInit ∧
    (∃ heap : Heap, s.shell.env.heap = heap.finshHeapInit) ∧ s.calls = []
  step := fun s e s' => s.exec e = .ok s'

/-- In every run in which no call collects while a literal of its line is in no variable, no block
is released that a variable points to or that holds a literal of the line. -/
theorem finsh_gc_spares {s : LineRun} (hs : Reachable enteredSystem LineRun.Safe s) :
    ∀ c ∈ s.calls, c.Spares := by
  refine hs.invariant ?_ ?_
  · rintro s ⟨-, -, hcalls⟩
    simp [hcalls]
  · intro s e s' ih hsafe hstep
    obtain ⟨r, hr, hstep⟩ := of_bind_ok hstep
    cases hstep
    intro c hc
    rcases List.mem_append.mp hc with hc | hc
    · exact ih c hc
    · exact (hsafe r hr c hc).spares

/-- A line with one string literal of `n` characters. -/
def textLine (n : ℕ) (ch : Char) : List Char := '"' :: List.replicate n ch ++ ['"', ';']

/-- A line whose functions return 0 and change nothing. -/
def Entered.plain (line : List Char) (h : '\x00' ∉ line) : Entered :=
  ⟨⟨line, h⟩, fun _ _ env => (0, env), 60⟩

/-- The shell before its first line. -/
def freshLines : LineRun := ⟨⟨freshEnv, fun _ => 0⟩, []⟩

theorem freshLines_init : enteredSystem.init freshLines := ⟨rfl, ⟨_, rfl⟩, rfl⟩

/-- A literal of 61 characters after one of 39: the collector releases the block of the first line,
at the start of the heap, and the second literal is put there. -/
theorem finsh_gc_spares_garbage : ∃ s, Reachable enteredSystem LineRun.Safe s ∧
    (∃ c ∈ s.calls, c.Collects) ∧ ∀ c ∈ s.calls, c.Spares := by
  refine exists_reachable_and ?_ fun s hs _ => finsh_gc_spares hs
  exact exists_reachable_of_run (f := fun s e => (s.exec e).toOption) freshLines_init
    [.plain (textLine 39 'a') (by decide), .plain (textLine 61 'b') (by decide)] (by decide +kernel)
    fun _ _ _ => ok_of_toOption

/-- The line of a literal of 23 characters, and the line of two literals of 13 and 53 characters: for
the last one there is no free block that is long enough, and the collector releases the blocks of
the two others. -/
theorem literal_of_line_released : ∃ s, Reachable enteredSystem always s ∧
    ∃ c ∈ s.calls, c.literals = [1064] ∧
      (c.heap.finshHeapAllocate c.vars c.size).map (fun r => r.2.2) = .ok [1032, 1064] ∧ ¬c.Spares :=
  exists_reachable_of_run (f := fun s e => (s.exec e).toOption) freshLines_init
    [.plain (textLine 23 'a') (by decide), .plain (textLine 13 'b' ++ textLine 53 'c') (by decide)]
    (by decide +kernel) fun _ _ _ => ok_of_toOption

end RtThread.Finsh
