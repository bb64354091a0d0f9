import RtThread.Finsh.Line

/-!
# What the code of a tree costs

Every node has a cost, which depends on its type and on the type of its first leaf (`nodeCost`): an
effect on the height of the stack, a number of bytes, and the changes of the height in between. The
costs of the nodes follow each other in the order of the code (`Tree.costs`).
-/

namespace RtThread.Finsh

open Lib List

/-! ## Instructions -/

variable (i : Instr)

/-- The effect of an instruction on the height of the stack. -/
def Instr.effect : Effect :=
  match i.op with
  | .noop => ⟨0, 0⟩
  | .bin _ _ => ⟨2, 1⟩
  | .bitwise _ => ⟨1, 1⟩
  | .ld _ => ⟨0, 1⟩
  | .ldValue _ => ⟨0, 1⟩
  | .st _ => ⟨2, 1⟩
  | .pop => ⟨1, 0⟩
  | .syscall => ⟨i.arg + 1, 1⟩
  | .ldValueStack _ => ⟨1, 1⟩

/-- What the instructions do to the height of the stack. -/
def effects (code : List Instr) : List Effect := code.map Instr.effect

@[simp] theorem effects_nil : effects [] = [] := rfl

@[simp] theorem effects_cons (code : List Instr) :
    effects (i :: code) = i.effect :: effects code := rfl

@[simp] theorem effects_append (code code' : List Instr) :
    effects (code ++ code') = effects code ++ effects code' := map_append

theorem gives_effect_le : i.effect.gives ≤ 1 := by
  unfold Instr.effect
  split <;> simp

theorem Vm.gauge_exec (vm : Vm) (call : Call) (i : Instr) :
    (vm.exec call i).gauge = vm.gauge.apply i.effect := by
  obtain ⟨op, arg, harg⟩ := i
  cases op <;> simp [exec, Instr.effect, Gauge.apply, take, push]

theorem Vm.gauge_run (vm : Vm) (call : Call) (code : List Instr) :
    (vm.run call code).gauge = vm.gauge.run (effects code) := by
  induction code generalizing vm with
  | nil => rfl
  | cons i code ih =>
    rw [run_cons, ih, gauge_exec]
    rfl

theorem Vm.span_run (env : Env) (stack : ℤ → BitVec 32) (call : Call) (code : List Instr) :
    ((Vm.start env stack).run call code).gauge.high ≤ ((Vm.start env stack).run call code).gauge.low +
      (((effects code).map Effect.swing).sum + 1 : ℕ) := by
  have hgives : ∀ e ∈ effects code, e.gives ≤ 1 := by
    intro e he
    obtain ⟨i, -, rfl⟩ := mem_map.mp he
    exact gives_effect_le i
  rw [gauge_run]
  exact Gauge.span_run_le hgives

/-! ## Trees -/

variable (env : Env)

/-- The data type that the first pass gives to a tree, which is that of its first leaf. -/
def dataTypeOf : Tree → ℕ
  | .nil => 0
  | .node n child _ => if child = .nil then (leafType env n).1 else dataTypeOf child

/-- The type of the tree has a size. -/
def sized (tree : Tree) : Bool := (typeSize (dataTypeOf env tree)).isSome

/-- An identifier has code. -/
def loads : IdRef → Bool
  | .syscall _ => true
  | .sysvar s => (loadSize s.type).isSome
  | .var i => (loadSize (env.vars i).type).isSome
  | .none => false

/-- The identifier or the content of an address that an assignment is to, if it has a size. -/
def assignable : Tree → Bool
  | .node n child sibling =>
    if n.nodeType = .id then sized env (.node n child sibling)
    else if n.nodeType = .sysGetvalue then
      (typeSize (dataTypeOf env (.node n child sibling) % 16)).isSome
    else false
  | .nil => false

/-- The size of an identifier that is incremented or decremented. -/
def stepSize : Tree → Option Size
  | .node n child sibling =>
    if n.nodeType = .id then typeSize (dataTypeOf env (.node n child sibling)) else none
  | .nil => none

/-- The cost of code: its effect on the height of the stack, its bytes, and the sum of the changes of
the height by its instructions. -/
structure Cost where
  effect : Effect
  bytes : ℕ
  swing : ℕ
  deriving DecidableEq

/-- The cost of no code. -/
def noCost : Cost := ⟨⟨0, 0⟩, 0, 0⟩

/-- The cost of a node, behind its children. -/
def nodeCost (isAddr : Bool) (n : Node) (child : Tree) : Cost :=
  match n.nodeType with
  | .id => if loads env n.id then ⟨⟨0, 1⟩, 5, 1⟩ else noCost
  | .valueChar => ⟨⟨0, 1⟩, 2, 1⟩
  | .valueInt | .valueLong | .valueString | .valueNull => ⟨⟨0, 1⟩, 5, 1⟩
  | .sysAdd | .sysSub | .sysMul | .sysDiv | .sysMod | .sysAnd | .sysOr | .sysXor | .sysShl | .sysShr =>
    if sized env (.node n child .nil) then ⟨⟨2, 1⟩, 1, 1⟩ else noCost
  | .sysBitwise => if sized env (.node n child .nil) then ⟨⟨1, 1⟩, 1, 0⟩ else noCost
  | .sysFunc =>
    match child with
    | .node _ _ parameters =>
      ⟨⟨parameters.siblings % 256 + 1, 1⟩, 2, parameters.siblings % 256⟩
    | .nil => noCost
  | .sysAssign => if assignable env child then ⟨⟨2, 1⟩, 2, 1⟩ else noCost
  | .sysPreinc | .sysPredec =>
    match stepSize env child with
    | some size => ⟨⟨1, 1⟩, 9 + size.bytes, 4⟩
    | none => noCost
  | .sysInc | .sysDec =>
    match stepSize env child with
    | some size => ⟨⟨0, 0⟩, 14 + size.bytes, 6⟩
    | none => noCost
  | .sysGetvalue =>
    if !(n.mark isAddr).addr && sized env (.node n child .nil) then ⟨⟨1, 1⟩, 1, 0⟩ else noCost
  | .sysNull => ⟨⟨0, 0⟩, 4, 0⟩
  | .sysGetaddr | .sysCast => noCost

/-- The costs of the nodes of a tree, in the order of the code. -/
def Tree.costs : Bool → Tree → List Cost
  | _, .nil => []
  | isAddr, .node n child sibling =>
    Tree.costs (childAddr n.nodeType isAddr) child ++ nodeCost env isAddr n child ::
      Tree.costs false sibling

/-! ## The first pass -/

variable {env}

variable {n : Node} {child : Tree}

theorem dataTypeOf_node_of_ne {sibling : Tree} (h : child ≠ .nil) :
    dataTypeOf env (.node n child sibling) = dataTypeOf env child := by
  rw [dataTypeOf, if_neg h]

theorem finshTypeCheck_node (isAddr : Bool) (n : Node) (child sibling : Tree) :
    (finshTypeCheck env isAddr (.node n child sibling)).1 =
      .node { n.mark isAddr with dataType := dataTypeOf env (.node n child sibling) }
        (finshTypeCheck env (childAddr n.nodeType isAddr) child).1
        (finshTypeCheck env false sibling).1 := by
  induction child generalizing isAddr n sibling with
  | nil => rfl
  | node n' child' sibling' ih _ =>
    rw [dataTypeOf_node_of_ne (by simp)]
    rw [finshTypeCheck, ih]

theorem siblings_finshTypeCheck (isAddr : Bool) (tree : Tree) :
    (finshTypeCheck env isAddr tree).1.siblings = tree.siblings := by
  induction tree generalizing isAddr with
  | nil => rfl
  | node n child sibling _ ih => rw [finshTypeCheck_node, Tree.siblings, ih, Tree.siblings]

@[simp] theorem Node.mark_nodeType (n : Node) (isAddr : Bool) : (n.mark isAddr).nodeType = n.nodeType := by
  unfold Node.mark
  split <;> rfl

@[simp] theorem Node.mark_id (n : Node) (isAddr : Bool) : (n.mark isAddr).id = n.id := by
  unfold Node.mark
  split <;> rfl

/-! ## The cost of the code of a node -/

/-- The code has the cost: the effect, the bytes, and the changes of the height. -/
structure Costs (code : List Instr) (cost : Cost) : Prop where
  effect : ∀ k, height (effects code) k = cost.effect.on k
  bytes : (encode code).length = cost.bytes
  swing : ((effects code).map Effect.swing).sum = cost.swing

variable {isAddr : Bool} {code : List Instr} {error : FinshError}

namespace Costs

theorem nil : Costs [] noCost := ⟨fun _ => rfl, rfl, rfl⟩

theorem single : Costs [i] ⟨i.effect, i.op.argBytes + 1, i.effect.swing⟩ := by
  refine ⟨fun k => ?_, ?_, ?_⟩
  · rw [effects, map_singleton, height_cons]
    cases i.effect.on k <;> rfl
  · rw [encode_cons, encode_nil, append_nil, length_encode]
  · rw [effects, map_singleton, map_singleton, sum_singleton]

theorem typed {d : ℕ} {code : Size → List Instr} {cost : Cost} (h : ∀ size, Costs (code size) cost) :
    Costs (typed d code) (if (typeSize d).isSome then cost else noCost) := by
  unfold Finsh.typed
  cases typeSize d with
  | none => exact nil
  | some size => exact h size

theorem preCode (op : BinOp) (id : IdRef) (size : Size) :
    Costs (preCode env op id size) ⟨⟨1, 1⟩, 9 + size.bytes, 4⟩ := by
  refine ⟨?_, ?_, rfl⟩
  · rintro (_ | k)
    · rfl
    · simp [Finsh.preCode, effects, instr, Instr.effect, Effect.on]
  · simp [Finsh.preCode, instr, Op.argBytes]
    omega

theorem postCode (op : BinOp) (id : IdRef) (size : Size) :
    Costs (postCode env op id size) ⟨⟨0, 0⟩, 14 + size.bytes, 6⟩ := by
  refine ⟨fun k => ?_, ?_, rfl⟩
  · simp [Finsh.postCode, effects, instr, Instr.effect, Effect.on]
  · simp [Finsh.postCode, instr, Op.argBytes, Size.bytes]
    omega

theorem storeCode (d : ℕ) :
    Costs (storeCode d).1 (if (typeSize d).isSome then ⟨⟨2, 1⟩, 2, 1⟩ else noCost) := by
  unfold Finsh.storeCode
  cases typeSize d with
  | none => exact nil
  | some size =>
    refine ⟨?_, rfl, rfl⟩
    rintro (_ | _ | k)
    · rfl
    · rfl
    · simp [effects, instr, Instr.effect, Effect.on]

theorem loadCode (type : FinshType) (isAddr : Bool) (address : ℕ) :
    Costs (loadCode type isAddr address)
      (if (loadSize type).isSome then ⟨⟨0, 1⟩, 5, 1⟩ else noCost) := by
  unfold Finsh.loadCode
  cases loadSize type with
  | none => exact nil
  | some size => cases isAddr <;> exact single _

theorem idCode (n : Node) :
    Costs (idCode env n) (if loads env n.id then ⟨⟨0, 1⟩, 5, 1⟩ else noCost) := by
  unfold Finsh.idCode loads
  cases n.id with
  | none => exact nil
  | var i => exact loadCode _ _ _
  | sysvar s => exact loadCode _ _ _
  | syscall c => exact single _

theorem syscall (n : ℕ) : Costs [instr .syscall n] ⟨⟨n % 256 + 1, 1⟩, 2, n % 256⟩ := by
  have h := single (instr .syscall n)
  simpa [instr, Instr.effect, Op.argBytes, Effect.swing] using h

theorem assignCode (h : assignCode (finshTypeCheck env isAddr child).1 = .ok (code, error)) :
    Costs code (if assignable env child then ⟨⟨2, 1⟩, 2, 1⟩ else noCost) := by
  cases child with
  | nil => cases h
  | node c child' rest =>
    rw [finshTypeCheck_node] at h
    dsimp only [Finsh.assignCode] at h
    rw [Node.mark_nodeType] at h
    rw [assignable]
    split_ifs at h with hid hvalue
    · rw [if_pos hid]
      obtain rfl : _ = code := congrArg Prod.fst (Except.ok.inj h)
      exact storeCode _
    · rw [if_neg hid, if_pos hvalue]
      obtain rfl : _ = code := congrArg Prod.fst (Except.ok.inj h)
      exact storeCode _
    · rw [if_neg hid, if_neg hvalue]
      cases h
      exact nil

theorem stepCode (isAddr : Bool) {m : Node} {code : IdRef → Size → List Instr}
    {cost : Size → Cost} (hcode : ∀ id size, Costs (code id size) (cost size))
    (hn : n.dataType = dataTypeOf env (.node m child .nil)) :
    Costs (stepCode code n (finshTypeCheck env isAddr child).1)
      (match stepSize env child with
      | some size => cost size
      | none => noCost) := by
  cases child with
  | nil => exact nil
  | node c child' rest =>
    rw [dataTypeOf_node_of_ne (by simp)] at hn
    rw [finshTypeCheck_node]
    dsimp only [Finsh.stepCode]
    rw [Node.mark_nodeType, Node.mark_id, hn, stepSize]
    by_cases hid : c.nodeType = .id
    · rw [if_pos hid, if_pos hid, Finsh.typed]
      cases typeSize (dataTypeOf env (.node c child' rest)) with
      | none => exact nil
      | some size => exact hcode c.id size
    · rw [if_neg hid, if_neg hid]
      exact nil

/-- The code of a node has the cost of the node. -/
theorem nodeCode {sibling : Tree}
    (h : nodeCode env { n.mark isAddr with dataType := dataTypeOf env (.node n child sibling) }
      (finshTypeCheck env (childAddr n.nodeType isAddr) child).1 = .ok (code, error)) :
    Costs code (nodeCost env isAddr n child) := by
  unfold nodeCost
  dsimp only at h
  rw [Node.mark_nodeType] at h
  cases hn : n.nodeType with
  | id =>
    rw [hn] at h
    cases h
    rw [← Node.mark_id n isAddr]
    exact idCode _
  | valueChar | valueInt | valueLong | valueString | valueNull =>
    rw [hn] at h
    cases h
    exact single _
  | sysAdd | sysSub | sysMul | sysDiv | sysMod | sysAnd | sysOr | sysXor | sysShl | sysShr |
    sysBitwise =>
    rw [hn] at h
    cases h
    exact typed fun _ => single _
  -- A call: one value for each parameter is taken off.
  | sysFunc =>
    rw [hn] at h
    cases h
    cases child with
    | nil => exact nil
    | node c child' parameters =>
      rw [finshTypeCheck_node]
      dsimp only [funcCode]
      rw [siblings_finshTypeCheck]
      exact syscall _
  | sysAssign =>
    rw [hn] at h
    exact assignCode h
  | sysPreinc | sysPredec =>
    rw [hn] at h
    cases h
    exact stepCode _ (preCode _) rfl
  | sysInc | sysDec =>
    rw [hn] at h
    cases h
    exact stepCode _ (postCode _) rfl
  | sysGetvalue =>
    rw [hn] at h
    cases h
    cases (n.mark isAddr).addr with
    | true => exact nil
    | false => exact typed fun _ => single _
  | sysGetaddr | sysCast =>
    rw [hn] at h
    cases h
    exact nil
  | sysNull =>
    rw [hn] at h
    cases h
    exact ⟨fun _ => rfl, rfl, rfl⟩

end Costs

/-! ## The costs of the code of trees -/

/-- The code has the costs, one after the other. -/
structure HasCosts (code : List Instr) (costs : List Cost) : Prop where
  effect : ∀ k, height (effects code) k = height (costs.map Cost.effect) k
  bytes : (encode code).length = (costs.map Cost.bytes).sum
  swing : ((effects code).map Effect.swing).sum = (costs.map Cost.swing).sum

theorem Costs.hasCosts {cost : Cost} (h : Costs code cost) : HasCosts code [cost] := by
  refine ⟨fun k => ?_, ?_, ?_⟩
  · rw [h.effect, map_singleton, height_cons]
    cases cost.effect.on k <;> rfl
  · rw [h.bytes, map_singleton, sum_singleton]
  · rw [h.swing, map_singleton, sum_singleton]

theorem HasCosts.append {code' : List Instr} {costs costs' : List Cost} (h : HasCosts code costs)
    (h' : HasCosts code' costs') : HasCosts (code ++ code') (costs ++ costs') := by
  refine ⟨fun k => ?_, ?_, ?_⟩
  · rw [effects_append, height_append, map_append, height_append, h.effect]
    congr 1
    funext k
    exact h'.effect k
  · rw [encode_append, length_append, map_append, sum_append, h.bytes, h'.bytes]
  · rw [effects_append, map_append, sum_append, map_append, sum_append, h.swing,
      h'.swing]

theorem HasCosts.finshCompile {tree : Tree}
    (h : finshCompile env (finshTypeCheck env isAddr tree).1 = .ok (code, error)) :
    HasCosts code (tree.costs env isAddr) := by
  induction tree generalizing isAddr code error with
  | nil =>
    cases h
    exact ⟨fun _ => rfl, rfl, rfl⟩
  | node n child sibling ihchild ihsibling =>
    rw [finshTypeCheck_node, Finsh.finshCompile] at h
    obtain ⟨⟨code₁, error₁⟩, hchild, h⟩ := of_bind_ok h
    obtain ⟨⟨code₂, error₂⟩, hnode, h⟩ := of_bind_ok h
    obtain ⟨⟨code₃, error₃⟩, hsibling, h⟩ := of_bind_ok h
    cases h
    rw [Tree.costs, append_assoc]
    exact (ihchild hchild).append ((Costs.nodeCode hnode).hasCosts.append (ihsibling hsibling))

theorem forest_finshTypeCheck (root : Tree) : (finshTypeCheck env false root).1.forest =
      root.forest.map fun tree => (finshTypeCheck env false tree).1 := by
  induction root with
  | nil => rfl
  | node n child sibling _ ih =>
    rw [finshTypeCheck_node, Tree.forest, ih, Tree.forest, map_cons, finshTypeCheck_node]
    rfl

theorem compileTrees_eq {trees : List Tree} {codes : List (List Instr)}
    (h : compileTrees env trees = .ok (codes, error)) :
    List.Forall₂ (fun tree code => ∃ error, finshCompile env tree = .ok (code, error)) trees codes := by
  induction trees generalizing codes error with
  | nil =>
    cases h
    exact .nil
  | cons tree trees ih =>
    obtain ⟨⟨code, error₁⟩, htree, h⟩ := of_bind_ok h
    obtain ⟨⟨rest, error₂⟩, htrees, h⟩ := of_bind_ok h
    cases h
    exact .cons ⟨error₁, htree⟩ (ih htrees)

theorem hasCosts_finshCompilerRun {root : Tree} {codes : List (List Instr)}
    (h : finshCompilerRun env root = .ok (codes, error)) :
    List.Forall₂ (fun tree code => HasCosts code (tree.costs env false)) root.forest codes := by
  obtain ⟨⟨codes', error'⟩, htrees, h⟩ := of_bind_ok h
  cases h
  rw [forest_finshTypeCheck] at htrees
  refine (forall₂_map_left_iff.mp (compileTrees_eq htrees)).imp ?_
  rintro tree code ⟨error, htree⟩
  exact HasCosts.finshCompile htree

end RtThread.Finsh
