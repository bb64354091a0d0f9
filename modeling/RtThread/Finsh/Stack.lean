import RtThread.Finsh.Costs
import RtThread.Finsh.ParserFacts

/-!
# The stack and the text segment of the shell

Not every tree that passes the compiler keeps to the stack: identifiers of the type `void *` have no
code, assignments to other things than identifiers and contents of addresses have none, and operators
have none for types without a size. The text segment has 128 bytes, and the code of a line may need
more, as an increment takes up to 23 with its variable. The stack is never too small, since a line has
16 nodes at most.
-/

namespace RtThread.Finsh

open Lib List

theorem forall_iff_of_forall₂ {α β : Type} {P : β → Prop} {Q : α → Prop} {as : List α} {bs : List β}
    (h : List.Forall₂ (fun a b => P b ↔ Q a) as bs) : (∀ b ∈ bs, P b) ↔ ∀ a ∈ as, Q a := by
  induction h with
  | nil => simp
  | cons hab _ ih => rw [forall_mem_cons, forall_mem_cons, hab, ih]

/-! ## The discipline -/

/-- The code keeps above the height at which it starts, and leaves one value more. -/
def Disciplined (call : Call) (vm : Vm) (code : List Instr) : Prop :=
  let vm' := { vm with gauge := Gauge.level vm.sp }.run call code
  vm.sp ≤ vm'.gauge.low ∧ vm'.sp = vm.sp + 1

theorem disciplined_iff {call : Call} {vm : Vm} {code : List Instr} :
    Disciplined call vm code ↔ height (effects code) 0 = some 1 := by
  have hrun := Vm.gauge_run { vm with gauge := Gauge.level vm.sp } call code
  rw [Gauge.height_eq_some_iff vm.sp]
  dsimp only [Disciplined, Vm.sp] at hrun ⊢
  rw [hrun]
  exact and_comm

/-- The code of the trees of a line, with a `POP` behind each. -/
def codeBefore (codes : List (List Instr)) : List Instr := codes.flatMap (· ++ [instr .pop 0])

/-- In every run of every line that is parsed and compiled without an error, the code of each tree
keeps above the height at which it starts and leaves one value more, if and only if the effects of
the nodes of each tree, in order and from zero, always find the values that they take and leave
one. -/
theorem finsh_stack_discipline (fuel : ℕ) (env : Env) (line : Cstring) (c : Compiled) (call : Call)
    (stack : ℤ → BitVec 32) (h : compileLine fuel env line = .ok (some c)) :
    (∀ before code after, c.codes = before ++ code :: after →
        Disciplined call ((Vm.start c.env stack).run call (codeBefore before)) code) ↔
      ∀ tree ∈ c.root.forest, height ((tree.costs c.env false).map Cost.effect) 0 = some 1 := by
  obtain ⟨-, -, -, -, hcompile⟩ := compileLine_eq_some h
  have hcodes : List.Forall₂ (fun tree code => height (effects code) 0 = some 1 ↔
      height ((tree.costs c.env false).map Cost.effect) 0 = some 1) c.root.forest c.codes :=
    (hasCosts_finshCompilerRun hcompile).imp fun tree code hcosts => by rw [hcosts.effect]
  simp only [disciplined_iff]
  rw [← forall_iff_of_forall₂ hcodes]
  constructor
  · intro hall code hcode
    obtain ⟨before, after, hsplit⟩ := append_of_mem hcode
    exact hall before code after hsplit
  · intro hall before code after hsplit
    exact hall code (by simp [hsplit])

/-- A line with an increment. -/
def stepLine : Cstring := ⟨"int a=5; a++ + ~a;".toList, by decide⟩

/-- The code of `int a=5; a++ + ~a;` keeps the discipline. -/
theorem finsh_stack_discipline_stepLine : ∃ c, compileLine 60 freshEnv stepLine = .ok (some c) ∧
    ∀ call stack before code after, c.codes = before ++ code :: after →
      Disciplined call ((Vm.start c.env stack).run call (codeBefore before)) code := by
  obtain ⟨c, hc, hheight⟩ : ∃ c, compileLine 60 freshEnv stepLine = .ok (some c) ∧
      ∀ tree ∈ c.root.forest, height ((tree.costs c.env false).map Cost.effect) 0 = some 1 :=
    exists_compileLine (by decide +kernel)
  exact ⟨c, hc, fun call stack => (finsh_stack_discipline _ _ _ c call stack hc).mpr hheight⟩

/-- The line `1=2;`, an assignment to a literal. -/
def literalLine : Cstring := ⟨"1=2;".toList, by decide⟩

/-- The code of `1=2;` leaves two values. -/
theorem assignment_to_literal_leaves_two : ¬∀ (fuel : ℕ) (env : Env) (line : Cstring) (c : Compiled)
    (call : Call) (stack : ℤ → BitVec 32), compileLine fuel env line = .ok (some c) →
    ∀ before code after, c.codes = before ++ code :: after →
      Disciplined call ((Vm.start c.env stack).run call (codeBefore before)) code := by
  intro hall
  obtain ⟨c, hc, hcodes⟩ : ∃ c, compileLine 60 freshEnv literalLine = .ok (some c) ∧
      c.codes = [[instr (.ld .dword) 1, instr (.ld .dword) 2]] :=
    exists_compileLine (by decide +kernel)
  have hone := hall _ _ _ c (fun _ _ env => (0, env)) (fun _ => 0) hc [] _ [] hcodes
  rw [disciplined_iff] at hone
  revert hone
  decide

/-! ## The size of the code -/

variable (env : Env)

/-- A node changes the height at most once, but a call does so once for each parameter, and the
increment or decrement of an identifier up to six times. -/
theorem swing_nodeCost_le (isAddr : Bool) (n : Node) (child : Tree) :
    (nodeCost env isAddr n child).swing ≤ 1 ∨ n.nodeType ≠ .id ∧
      ((nodeCost env isAddr n child).swing + 1 ≤ child.siblings ∨
        stepSize env child ≠ none ∧ (nodeCost env isAddr n child).swing ≤ 6) := by
  unfold nodeCost
  cases hn : n.nodeType with
  | valueChar | valueInt | valueLong | valueString | valueNull => exact .inl le_rfl
  | sysNull | sysGetaddr | sysCast => exact .inl (Nat.zero_le _)
  | id | sysAdd | sysSub | sysMul | sysDiv | sysMod | sysAnd | sysOr | sysXor | sysShl | sysShr |
    sysBitwise | sysAssign | sysGetvalue =>
    left
    dsimp only
    split_ifs
    · simp
    · exact Nat.zero_le _
  | sysFunc =>
    cases child with
    | nil => exact .inl (Nat.zero_le _)
    | node c child' parameters =>
      exact .inr ⟨by simp, .inl (Nat.succ_le_succ (Nat.mod_le _ _))⟩
  | sysPreinc | sysPredec | sysInc | sysDec =>
    cases stepSize env child with
    | none => exact .inl (Nat.zero_le _)
    | some size => exact .inr ⟨by simp, .inr ⟨by simp, by simp⟩⟩

/-- The changes of the height by a tree, with one for each sibling, are at most four times its nodes.
An identifier leaves room for the two more that its increment needs. -/
theorem swing_add_siblings_le (isAddr : Bool) (tree : Tree) :
    ((tree.costs env isAddr).map Cost.swing).sum + tree.siblings ≤ 4 * tree.size ∧
      (stepSize env tree ≠ none →
        ((tree.costs env isAddr).map Cost.swing).sum + 3 ≤ 4 * tree.size) := by
  induction tree generalizing isAddr with
  | nil => exact ⟨le_rfl, fun h => absurd rfl h⟩
  | node n child sibling ihchild ihsibling =>
    obtain ⟨hchild, hstep⟩ := ihchild (childAddr n.nodeType isAddr)
    have hsibling := (ihsibling false).1
    simp only [Tree.costs, map_append, map_cons, sum_append, sum_cons,
      Tree.siblings, Tree.size]
    rcases swing_nodeCost_le env isAddr n child with hone | ⟨hid, hcall | ⟨hsome, hsix⟩⟩
    · exact ⟨by omega, fun _ => by omega⟩
    · exact ⟨by omega, fun hne => absurd (if_neg hid) hne⟩
    · have hthree := hstep hsome
      exact ⟨by omega, fun hne => absurd (if_neg hid) hne⟩

variable {env}

theorem sum_map_intercalate {α : Type} (f : α → ℕ) (a : α) (ls : List (List α)) :
    (([a].intercalate ls).map f).sum = (ls.flatten.map f).sum + (ls.length - 1) * f a := by
  induction ls with
  | nil => simp [intercalate]
  | cons l ls ih =>
    cases ls with
    | nil => simp [intercalate]
    | cons l' ls =>
      have hcons : [a].intercalate (l :: l' :: ls) = l ++ a :: [a].intercalate (l' :: ls) := by
        simp [intercalate]
      rw [hcons, map_append, sum_append, map_cons, sum_cons, ih]
      simp only [flatten_cons, map_append, sum_append, length_cons]
      rw [Nat.add_sub_cancel, Nat.add_sub_cancel, Nat.succ_mul]
      omega

theorem flatten_costs_forest (root : Tree) :
    (root.forest.map (Tree.costs env false)).flatten = root.costs env false := by
  induction root with
  | nil => rfl
  | node n child sibling _ ih =>
    rw [Tree.forest, map_cons, flatten_cons, ih]
    simp [Tree.costs]

theorem length_forest (root : Tree) : root.forest.length = root.siblings := by
  induction root with
  | nil => rfl
  | node n child sibling _ ih => rw [Tree.forest, length_cons, ih, Tree.siblings]

variable {root : Tree} {codes : List (List Instr)} {error : FinshError}

theorem hasCosts_flatten (h : finshCompilerRun env root = .ok (codes, error)) :
    HasCosts codes.flatten (root.costs env false) := by
  rw [← flatten_costs_forest]
  have hcodes := hasCosts_finshCompilerRun h
  clear h
  generalize root.forest = trees at hcodes ⊢
  induction hcodes with
  | nil => exact ⟨fun _ => rfl, rfl, rfl⟩
  | cons hcode _ ih =>
    rw [map_cons, flatten_cons, flatten_cons]
    exact hcode.append ih

theorem length_encode_eq_sum (code : List Instr) :
    (encode code).length = (code.map fun i => i.op.argBytes + 1).sum := by
  simp [encode, length_flatMap]

theorem length_lineCode (h : finshCompilerRun env root = .ok (codes, error)) :
    (encode (lineCode codes)).length =
      ((root.costs env false).map Cost.bytes).sum + (root.siblings - 1) := by
  have hcodes := (hasCosts_flatten h).bytes
  have hlength := (hasCosts_finshCompilerRun h).length_eq
  rw [length_forest] at hlength
  rw [length_encode_eq_sum] at hcodes ⊢
  rw [lineCode, sum_map_intercalate, hcodes, hlength]
  simp [instr, Op.argBytes]

theorem swing_lineCode (h : finshCompilerRun env root = .ok (codes, error)) :
    ((effects (lineCode codes)).map Effect.swing).sum =
      ((root.costs env false).map Cost.swing).sum + (root.siblings - 1) := by
  have hcodes := (hasCosts_flatten h).swing
  have hlength := (hasCosts_finshCompilerRun h).length_eq
  rw [length_forest] at hlength
  rw [effects, map_map] at hcodes ⊢
  rw [lineCode, sum_map_intercalate, hcodes, hlength]
  simp [instr, Instr.effect, Effect.swing]

theorem span_lineCode (call : Call) (stack : ℤ → BitVec 32) (hsize : root.size ≤ FINSH_NODE_MAX)
    (h : finshCompilerRun env root = .ok (codes, error)) :
    ((Vm.start env stack).run call (lineCode codes)).gauge.high ≤
      ((Vm.start env stack).run call (lineCode codes)).gauge.low + FINSH_STACK_MAX := by
  have hswing := swing_lineCode h
  have hbound := (swing_add_siblings_le env false root).1
  have hmax : FINSH_STACK_MAX = 4 * FINSH_NODE_MAX := rfl
  refine (Vm.span_run env stack call (lineCode codes)).trans ?_
  -- One `POP` less than trees, so the changes of the height and one are at most 64.
  have hline : ((effects (lineCode codes)).map Effect.swing).sum + 1 ≤ FINSH_STACK_MAX := by
    cases root with
    | nil =>
      rw [hswing]
      simp [Tree.costs, Tree.siblings, FINSH_STACK_MAX]
    | node n child sibling =>
      rw [hswing]
      rw [Tree.siblings] at hbound ⊢
      omega
  exact Int.add_le_add_left (Int.ofNat_le.mpr hline) _

/-- The code of every line that is parsed, with an error or without, fits into the text segment, and its run touches no
more slots than the stack has, if and only if the bytes of its nodes, with one for each tree but the
last, are no more than 128. -/
theorem finsh_code_size (fuel : ℕ) (env : Env) (line : Cstring) (root : Tree) (p : Parser)
    (codes : List (List Instr)) (error : FinshError) (call : Call) (stack : ℤ → BitVec 32)
    (hparse : parseLine fuel env line = .ok (root, p))
    (hcompile : finshCompilerRun p.env root = .ok (codes, error)) :
    ((encode (lineCode codes)).length ≤ FINSH_TEXT_MAX ∧
        ((Vm.start p.env stack).run call (lineCode codes)).gauge.high ≤
          ((Vm.start p.env stack).run call (lineCode codes)).gauge.low + FINSH_STACK_MAX) ↔
      ((root.costs p.env false).map Cost.bytes).sum + (root.siblings - 1) ≤ FINSH_TEXT_MAX := by
  rw [length_lineCode hcompile]
  exact and_iff_left (span_lineCode call stack (size_parseLine hparse) hcompile)

/-- The code of `int a=5; a++ + ~a;` fits. -/
theorem finsh_code_size_stepLine : ∃ root p codes, parseLine 60 freshEnv stepLine = .ok (root, p) ∧
    p.errno = .ok ∧ finshCompilerRun p.env root = .ok (codes, .ok) ∧
    (encode (lineCode codes)).length ≤ FINSH_TEXT_MAX := by
  obtain ⟨c, hc, hbytes⟩ : ∃ c, compileLine 60 freshEnv stepLine = .ok (some c) ∧
      ((c.root.costs c.env false).map Cost.bytes).sum + (c.root.siblings - 1) ≤ FINSH_TEXT_MAX :=
    exists_compileLine (by decide +kernel)
  obtain ⟨p, hparse, herrno, henv, hcompile⟩ := compileLine_eq_some hc
  rw [← henv] at hbytes hcompile
  have hfits := (finsh_code_size 60 freshEnv stepLine c.root p c.codes .ok (fun _ _ env => (0, env))
    (fun _ => 0) hparse hcompile).mpr hbytes
  exact ⟨c.root, p, c.codes, hparse, herrno, hcompile, hfits.1⟩

/-- The line `int a=1;a++;a++;a++;a++;a++;a++;`, of 15 nodes. -/
def incrementsLine : Cstring := ⟨"int a=1;a++;a++;a++;a++;a++;a++;".toList, by decide⟩

/-- Six increments of a variable take more bytes than the text segment has. -/
theorem increments_overflow_text : ¬∀ (fuel : ℕ) (env : Env) (line : Cstring) (root : Tree) (p : Parser)
    (codes : List (List Instr)) (error : FinshError) (call : Call) (stack : ℤ → BitVec 32),
    parseLine fuel env line = .ok (root, p) → p.errno = .ok →
    finshCompilerRun p.env root = .ok (codes, error) →
    (encode (lineCode codes)).length ≤ FINSH_TEXT_MAX ∧
      ((Vm.start p.env stack).run call (lineCode codes)).gauge.high ≤
        ((Vm.start p.env stack).run call (lineCode codes)).gauge.low + FINSH_STACK_MAX := by
  intro hall
  obtain ⟨c, hc, hlength⟩ : ∃ c, compileLine 60 freshEnv incrementsLine = .ok (some c) ∧
      (encode (lineCode c.codes)).length = 156 :=
    exists_compileLine (by decide +kernel)
  obtain ⟨p, hparse, herrno, henv, hcompile⟩ := compileLine_eq_some hc
  rw [← henv] at hcompile
  have hfits := (hall _ _ _ _ p _ _ (fun _ _ env => (0, env)) (fun _ => 0) hparse herrno hcompile).1
  rw [hlength] at hfits
  exact absurd hfits (by decide)

end RtThread.Finsh
