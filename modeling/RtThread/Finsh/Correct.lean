import RtThread.Finsh.Costs

/-!
# The compiler of the shell is correct

Expressions over literals and over variables of 32 bits have a meaning of their own (`Expr.eval`): the
left operand is evaluated first, with integers that are then cut off to 32 bits, and there is no value
if something is divided by zero or shifted by less than 0 or more than 31. The compiler emits the code
that one expects for the tree of an expression, and the machine computes the meaning.
-/

namespace RtThread.Finsh

open Lib Function List Option

/-! ## Expressions and their meaning -/

/-- The values of the variables. -/
abbrev Valuation := Fin FINSH_VARIABLE_MAX → BitVec 32

/-- An increment or a decrement. -/
inductive Step
  | inc
  | dec
  deriving DecidableEq

/-- The expressions over literals and variables of 32 bits. -/
inductive Expr
  | int (v : BitVec 32)
  | long (v : BitVec 32)
  | var (i : Fin FINSH_VARIABLE_MAX)
  | bin (op : BinOp) (a b : Expr)
  | not (a : Expr)
  | neg (a : Expr)
  | assign (i : Fin FINSH_VARIABLE_MAX) (a : Expr)
  | pre (step : Step) (i : Fin FINSH_VARIABLE_MAX)
  | post (step : Step) (i : Fin FINSH_VARIABLE_MAX)
  deriving DecidableEq

/-- The value of an operator, over the integers and cut off to 32 bits. -/
def BinOp.eval : BinOp → BitVec 32 → BitVec 32 → Option (BitVec 32)
  | .add, a, b => some (BitVec.ofInt 32 (a.toInt + b.toInt))
  | .sub, a, b => some (BitVec.ofInt 32 (a.toInt - b.toInt))
  | .mul, a, b => some (BitVec.ofInt 32 (a.toInt * b.toInt))
  | .div, a, b => if b = 0 then none else some (BitVec.ofInt 32 (a.toInt.tdiv b.toInt))
  | .mod, a, b => if b = 0 then none else some (BitVec.ofInt 32 (a.toInt.tmod b.toInt))
  | .and, a, b => some (a &&& b)
  | .or, a, b => some (a ||| b)
  | .xor, a, b => some (a ^^^ b)
  | .shl, a, b => if b.toNat < 32 then some (BitVec.ofInt 32 (a.toInt * 2 ^ b.toNat)) else none
  | .shr, a, b => if b.toNat < 32 then some (BitVec.ofInt 32 (a.toInt / 2 ^ b.toNat)) else none

/-- The meaning of an increment or a decrement. -/
def Step.eval : Step → BitVec 32 → BitVec 32
  | .inc, a => BitVec.ofInt 32 (a.toInt + 1)
  | .dec, a => BitVec.ofInt 32 (a.toInt - 1)

/-- The meaning of an expression: its value, and the variables after it. -/
def Expr.eval : Expr → Valuation → Option (BitVec 32 × Valuation)
  | .int v, ρ | .long v, ρ => some (v, ρ)
  | .var i, ρ => some (ρ i, ρ)
  | .bin op a b, ρ => do
    let (x, ρ) ← a.eval ρ
    let (y, ρ) ← b.eval ρ
    let v ← op.eval x y
    return (v, ρ)
  | .not a, ρ => do
    let (x, ρ) ← a.eval ρ
    return (BitVec.ofInt 32 (-x.toInt - 1), ρ)
  | .neg a, ρ => do
    let (x, ρ) ← a.eval ρ
    return (BitVec.ofInt 32 (-x.toInt), ρ)
  | .assign i a, ρ => do
    let (x, ρ) ← a.eval ρ
    return (x, update ρ i x)
  | .pre step i, ρ => some (step.eval (ρ i), update ρ i (step.eval (ρ i)))
  | .post step i, ρ => some (ρ i, update ρ i (step.eval (ρ i)))

/-! ## The trees of expressions -/

/-- The node of an operator. -/
def BinOp.nodeType : BinOp → NodeType
  | .add => .sysAdd
  | .sub => .sysSub
  | .mul => .sysMul
  | .div => .sysDiv
  | .mod => .sysMod
  | .and => .sysAnd
  | .or => .sysOr
  | .xor => .sysXor
  | .shl => .sysShl
  | .shr => .sysShr

/-- The operator of an increment or a decrement. -/
def Step.op : Step → BinOp
  | .inc => .add
  | .dec => .sub

/-- The node of a step in front of its variable. -/
def Step.preType : Step → NodeType
  | .inc => .sysPreinc
  | .dec => .sysPredec

/-- The node of a step behind its variable. -/
def Step.postType : Step → NodeType
  | .inc => .sysInc
  | .dec => .sysDec

/-- The tree of a literal. -/
def literalTree (type : NodeType) (v : BitVec 32) (sibling : Tree) : Tree :=
  .node { Node.new type with value := v } .nil sibling

/-- The tree of a variable. -/
def varTree (i : Fin FINSH_VARIABLE_MAX) (sibling : Tree) : Tree :=
  .node { Node.new .id with id := .var i } .nil sibling

/-- The tree that the parser builds for an expression, with a sibling. A negation is a subtraction
from zero. -/
def Expr.treeWith : Expr → Tree → Tree
  | .int v, sibling => literalTree .valueInt v sibling
  | .long v, sibling => literalTree .valueLong v sibling
  | .var i, sibling => varTree i sibling
  | .bin op a b, sibling => .node (Node.new op.nodeType) (a.treeWith (b.treeWith .nil)) sibling
  | .not a, sibling => .node (Node.new .sysBitwise) (a.treeWith .nil) sibling
  | .neg a, sibling =>
    .node (Node.new .sysSub) (literalTree .valueLong 0 (a.treeWith .nil)) sibling
  | .assign i a, sibling => .node (Node.new .sysAssign) (varTree i (a.treeWith .nil)) sibling
  | .pre step i, sibling => .node (Node.new step.preType) (varTree i .nil) sibling
  | .post step i, sibling => .node (Node.new step.postType) (varTree i .nil) sibling

/-- The tree that the parser builds for an expression. -/
def Expr.tree (e : Expr) : Tree := e.treeWith .nil

/-- The variables of an expression. -/
def Expr.vars : Expr → List (Fin FINSH_VARIABLE_MAX)
  | .int _ | .long _ => []
  | .var i | .pre _ i | .post _ i => [i]
  | .bin _ a b => a.vars ++ b.vars
  | .not a | .neg a => a.vars
  | .assign i a => i :: a.vars

/-- The types `int`, `unsigned int`, `long` and `unsigned long`. -/
def FinshType.isWord : FinshType → Bool
  | .int | .uint | .long | .ulong => true
  | _ => false

variable (env : Env)

/-- The variables of the expression are declared with one of these types. -/
def Expr.Declared (e : Expr) : Prop := ∀ i ∈ e.vars, (env.vars i).type.isWord = true

instance (env : Env) (e : Expr) : Decidable (e.Declared env) :=
  inferInstanceAs (Decidable (∀ i ∈ e.vars, (env.vars i).type.isWord = true))

/-! ## The code of expressions -/

/-- The code that one expects for an expression. -/
def Expr.code (env : Env) : Expr → List Instr
  | .int v | .long v => [instr (.ld .dword) v.toNat]
  | .var i => [instr (.ldValue .dword) (env.valueAt i)]
  | .bin op a b => a.code env ++ b.code env ++ [instr (.bin op .dword) 0]
  | .not a => a.code env ++ [instr (.bitwise .dword) 0]
  | .neg a => instr (.ld .dword) 0 :: (a.code env ++ [instr (.bin .sub .dword) 0])
  | .assign i a =>
    instr (.ld .dword) (env.valueAt i) ::
      (a.code env ++ [instr (.st .dword) 0, instr (.ldValueStack .dword) 0])
  | .pre step i => instr (.ld .dword) (env.valueAt i) :: preCode env step.op (.var i) .dword
  | .post step i => instr (.ldValue .dword) (env.valueAt i) :: postCode env step.op (.var i) .dword

/-- The compiler makes of a tree the code, in front of that of the siblings, and finds no error. -/
structure CompilesTo (env : Env) (isAddr : Bool) (tree sibling : Tree) (code : List Instr) : Prop where
  dataType : dataTypeOf env tree = 3
  checked : (finshTypeCheck env isAddr tree).2 = (finshTypeCheck env false sibling).2
  compiled : ∀ rest error, finshCompile env (finshTypeCheck env false sibling).1 = .ok (rest, error) →
    finshCompile env (finshTypeCheck env isAddr tree).1 = .ok (code ++ rest, error)

section Compile

variable {env : Env}

@[simp] theorem FinshError.next_ok (e : FinshError) : e.next .ok = e := rfl

@[simp] theorem FinshError.ok_next (e : FinshError) : FinshError.ok.next e = e := by
  unfold FinshError.next
  split_ifs with h
  · exact h.symm
  · rfl

variable {isAddr : Bool} {n : Node} {child sibling : Tree}

theorem finshTypeCheck_snd_of_ne (h : child ≠ .nil) :
    (finshTypeCheck env isAddr (.node n child sibling)).2 =
      (finshTypeCheck env (childAddr n.nodeType isAddr) child).2.next
        (finshTypeCheck env false sibling).2 := by
  cases child with
  | nil => exact absurd rfl h
  | node c child' rest =>
    rw [finshTypeCheck, finshTypeCheck_node]

variable {code : List Instr}

theorem finshCompile_node {code' rest : List Instr}
    {error : FinshError} (hchild : finshCompile env child = .ok (code, .ok))
    (hnode : nodeCode env n child = .ok (code', .ok))
    (hsibling : finshCompile env sibling = .ok (rest, error)) :
    finshCompile env (.node n child sibling) = .ok (code ++ code' ++ rest, error) := by
  rw [finshCompile, hchild, hnode, hsibling]
  show Except.ok (code ++ code' ++ rest, FinshError.ok.next error) = _
  rw [FinshError.ok_next]

theorem CompilesTo.leaf
    (htype : leafType env n = (3, .ok))
    (hnode : nodeCode env { n.mark isAddr with dataType := 3 } .nil = .ok (code, .ok)) :
    CompilesTo env isAddr (.node n .nil sibling) sibling code := by
  have hdata : dataTypeOf env (.node n .nil sibling) = 3 := by
    rw [dataTypeOf, if_pos rfl, htype]
  refine ⟨hdata, ?_, ?_⟩
  · rw [finshTypeCheck, finshTypeCheck]
    dsimp only
    rw [htype, FinshError.next_ok, FinshError.ok_next]
  · intro rest error hrest
    rw [finshTypeCheck_node, hdata, finshTypeCheck]
    exact finshCompile_node rfl hnode hrest

theorem CompilesTo.node (type : NodeType) (isAddr : Bool)
    (code' : List Instr)
    (hchild : CompilesTo env (childAddr type isAddr) child .nil code)
    (hnode : nodeCode env { (Node.new type).mark isAddr with dataType := 3 }
      (finshTypeCheck env (childAddr type isAddr) child).1 = .ok (code', .ok)) :
    CompilesTo env isAddr (.node (Node.new type) child sibling) sibling (code ++ code') := by
  have hne : child ≠ .nil := by
    rintro rfl
    exact absurd hchild.dataType (by simp [dataTypeOf])
  have hdata : dataTypeOf env (.node (Node.new type) child sibling) = 3 := by
    rw [dataTypeOf_node_of_ne hne, hchild.dataType]
  refine ⟨hdata, ?_, ?_⟩
  · rw [finshTypeCheck_snd_of_ne hne, Node.new, hchild.checked, finshTypeCheck, FinshError.ok_next]
  · intro rest error hrest
    have hcode := hchild.compiled [] .ok rfl
    rw [append_nil] at hcode
    rw [finshTypeCheck_node, hdata]
    exact finshCompile_node hcode hnode hrest

theorem CompilesTo.literal {type : NodeType} {v : BitVec 32}
    (htype : type = .valueInt ∨ type = .valueLong) :
    CompilesTo env isAddr (literalTree type v sibling) sibling [instr (.ld .dword) v.toNat] := by
  rcases htype with rfl | rfl
  · exact leaf rfl rfl
  · exact leaf rfl rfl

theorem typeData_of_isWord {type : FinshType} (h : type.isWord = true) : typeData type = some 3 := by
  cases type <;> first | rfl | cases h

theorem loadSize_of_isWord {type : FinshType} (h : type.isWord = true) :
    loadSize type = some .dword := by
  cases type <;> first | rfl | cases h

theorem CompilesTo.var {i : Fin FINSH_VARIABLE_MAX} (h : (env.vars i).type.isWord = true) :
    CompilesTo env isAddr (varTree i sibling) sibling
      [instr (if isAddr then .ld .dword else .ldValue .dword) (env.valueAt i)] := by
  apply leaf
  · simp [leafType, Node.new, Env.idType, typeData_of_isWord h]
  · simp [nodeCode, Node.new, Node.mark, idCode, loadCode, loadSize_of_isWord h]

theorem childAddr_bin (op : BinOp) (isAddr : Bool) : childAddr op.nodeType isAddr = isAddr := by
  cases op <;> rfl

theorem childAddr_pre (step : Step) (isAddr : Bool) : childAddr step.preType isAddr = true := by
  cases step <;> rfl

theorem childAddr_post (step : Step) (isAddr : Bool) : childAddr step.postType isAddr = isAddr := by
  cases step <;> rfl

theorem CompilesTo.append {tree sibling' : Tree} {code' : List Instr}
    (h : CompilesTo env isAddr tree sibling code)
    (h' : CompilesTo env false sibling sibling' code') :
    CompilesTo env isAddr tree sibling' (code ++ code') := by
  refine ⟨h.dataType, h.checked.trans h'.checked, ?_⟩
  intro rest error hrest
  rw [append_assoc]
  exact h.compiled _ _ (h'.compiled _ _ hrest)

/-- The tree of an expression compiles to its code. -/
theorem CompilesTo.treeWith {e : Expr} (sibling : Tree) (h : e.Declared env) :
    CompilesTo env false (e.treeWith sibling) sibling (e.code env) := by
  induction e generalizing sibling with
  | int v => exact literal (.inl rfl)
  | long v => exact literal (.inr rfl)
  | var i => exact var (h i (by simp [Expr.vars]))
  | bin op a b iha ihb =>
    have ha := iha (b.treeWith .nil) fun i hi => h i (by simp [Expr.vars, hi])
    have hb := ihb .nil fun i hi => h i (by simp [Expr.vars, hi])
    have hchild := ha.append hb
    rw [← childAddr_bin op false] at hchild
    exact node op.nodeType false _ hchild (by cases op <;> rfl)
  | not a iha => exact node .sysBitwise false [instr (.bitwise .dword) 0] (iha .nil h) rfl
  | neg a iha =>
    have hzero : CompilesTo env false (literalTree .valueLong 0 (a.treeWith .nil)) (a.treeWith .nil)
        [instr (.ld .dword) 0] := literal (.inr rfl)
    exact node .sysSub false [instr (.bin .sub .dword) 0] (hzero.append (iha .nil h)) rfl
  | assign i a iha =>
    have hvar : CompilesTo env true (varTree i (a.treeWith .nil)) (a.treeWith .nil)
        [instr (.ld .dword) (env.valueAt i)] := var (h i (by simp [Expr.vars]))
    have ha := iha .nil fun j hj => h j (by simp [Expr.vars, hj])
    refine node .sysAssign false [instr (.st .dword) 0, instr (.ldValueStack .dword) 0]
      (hvar.append ha) ?_
    rw [varTree, finshTypeCheck_node, ← varTree, hvar.dataType]
    rfl
  | pre step i =>
    have hvar : CompilesTo env true (varTree i .nil) .nil [instr (.ld .dword) (env.valueAt i)] :=
      var (h i (by simp [Expr.vars]))
    rw [← childAddr_pre step false] at hvar
    exact node step.preType false (preCode env step.op (.var i) .dword) hvar (by cases step <;> rfl)
  | post step i =>
    have hvar : CompilesTo env false (varTree i .nil) .nil
        [instr (.ldValue .dword) (env.valueAt i)] := var (h i (by simp [Expr.vars]))
    rw [← childAddr_post step false] at hvar
    exact node step.postType false (postCode env step.op (.var i) .dword) hvar (by cases step <;> rfl)

theorem forest_tree (e : Expr) : e.tree.forest = [e.tree] := by
  cases e <;> rfl

theorem finshCompilerRun_tree {e : Expr} (h : e.Declared env) :
    finshCompilerRun env e.tree = .ok ([e.code env], .ok) := by
  have hcompiles := CompilesTo.treeWith .nil h
  have hcode := hcompiles.compiled [] .ok rfl
  rw [append_nil] at hcode
  rw [finshCompilerRun, forest_finshTypeCheck, forest_tree, map_singleton, compileTrees, Expr.tree,
    hcode, hcompiles.checked]
  rfl

end Compile

/-! ## Words -/

theorem ofInt_sub (a b : ℤ) : BitVec.ofInt 32 (a - b) = BitVec.ofInt 32 a - BitVec.ofInt 32 b := by
  rw [sub_eq_add_neg, BitVec.ofInt_add, BitVec.ofInt_neg, BitVec.sub_eq_add_neg]

theorem ofInt_two_pow (n : ℕ) : BitVec.ofInt 32 (2 ^ n) = BitVec.twoPow 32 n := by
  have hcast : (2 : ℤ) ^ n = ((2 ^ n : ℕ) : ℤ) := by push_cast; rfl
  rw [hcast, BitVec.ofInt_natCast]
  apply BitVec.eq_of_toNat_eq
  rw [BitVec.toNat_ofNat, BitVec.toNat_twoPow]

/-- On 32 bits an operator has the value of its meaning, where there is one. -/
theorem BinOp.apply_of_eval {op : BinOp} {a b v : BitVec 32} (h : op.eval a b = some v) :
    op.apply a b = v := by
  cases op with
  | add =>
    obtain rfl := some.inj h
    rw [BitVec.ofInt_add, BitVec.ofInt_toInt, BitVec.ofInt_toInt]
    rfl
  | sub =>
    obtain rfl := some.inj h
    rw [ofInt_sub, BitVec.ofInt_toInt, BitVec.ofInt_toInt]
    rfl
  | mul =>
    obtain rfl := some.inj h
    rw [BitVec.ofInt_mul, BitVec.ofInt_toInt, BitVec.ofInt_toInt]
    rfl
  | and | or | xor => exact some.inj h
  | div =>
    rw [eval] at h
    split_ifs at h
    obtain rfl := some.inj h
    apply BitVec.eq_of_toInt_eq
    rw [BitVec.toInt_ofInt, BinOp.apply, BitVec.toInt_sdiv]
  | mod =>
    rw [eval] at h
    split_ifs at h
    obtain rfl := some.inj h
    rw [← BitVec.toInt_srem, BitVec.ofInt_toInt]
    rfl
  | shl =>
    rw [eval] at h
    split_ifs at h
    obtain rfl := some.inj h
    rw [BitVec.ofInt_mul, BitVec.ofInt_toInt, ofInt_two_pow, ← BitVec.shiftLeft_eq_mul_twoPow]
    rfl
  | shr =>
    rw [eval] at h
    split_ifs at h
    obtain rfl := some.inj h
    have hdiv : a.toInt / 2 ^ b.toNat = (a.sshiftRight b.toNat).toInt := by
      rw [BitVec.toInt_sshiftRight, Int.shiftRight_eq_div_pow]
      push_cast
      rfl
    rw [hdiv, BitVec.ofInt_toInt]
    rfl

theorem Step.apply_op (step : Step) (a : BitVec 32) : step.op.apply a 1 = step.eval a := by
  cases step with
  | inc =>
    rw [eval, BitVec.ofInt_add, BitVec.ofInt_toInt]
    rfl
  | dec =>
    rw [eval, ofInt_sub, BitVec.ofInt_toInt]
    rfl

theorem not_eq_ofInt (a : BitVec 32) : ~~~a = BitVec.ofInt 32 (-a.toInt - 1) := by
  rw [ofInt_sub, BitVec.ofInt_neg, BitVec.ofInt_toInt, BitVec.not_eq_neg_add]
  rfl

theorem zero_sub_eq_ofInt (a : BitVec 32) : BinOp.sub.apply 0 a = BitVec.ofInt 32 (-a.toInt) := by
  rw [BitVec.ofInt_neg, BitVec.ofInt_toInt]
  exact BitVec.zero_sub a

/-! ## Variables in the memory -/

/-- The address of the value of a variable, as a word. -/
def Env.valueAddr (i : Fin FINSH_VARIABLE_MAX) : BitVec 32 := BitVec.ofNat 32 (env.valueAt i)

/-- The values that the memory holds for the variables. -/
def Env.valuation : Valuation := fun i => BitVec.ofNat 32 (env.value i)

/-- The shell with another memory. -/
def Env.withMem (m : Bytes) : Env := { env with heap := { env.heap with mem := m } }

/-- The addresses of the values of the variables. -/
def Env.valueAddrs : List ℕ := (finRange FINSH_VARIABLE_MAX).map env.valueAt

theorem Env.toNat_valueAddr (i : Fin FINSH_VARIABLE_MAX) :
    (env.valueAddr i).toNat = env.valueAt i := by
  have hbase := env.varBase_le
  rw [valueAddr, BitVec.toNat_ofNat, Nat.mod_eq_of_lt]
  unfold valueAt varAt VALUE_OFFSET
  unfold VAR_SIZE FINSH_VARIABLE_MAX at *
  omega

/-- What the shell keeps differs only in the values of the variables, and these are known. -/
structure Keeps (env env' : Env) (ρ : Valuation) : Prop where
  mem : env' = env.withMem env'.heap.mem
  value : ∀ i, env'.load .dword (env.valueAddr i) = ρ i
  frame : Bytes.SameOff 4 env.valueAddrs env.heap.mem env'.heap.mem

theorem Keeps.refl : Keeps env env env.valuation where
  mem := rfl
  value i := by
    rw [Env.load, Env.toNat_valueAddr]
    rfl
  frame := Bytes.SameOff.refl _ _ _

theorem Keeps.valuation {env env' : Env} {ρ : Valuation} (h : Keeps env env' ρ) : env'.valuation = ρ := by
  funext i
  have haddr : env'.valueAt i = env.valueAt i := by
    rw [h.mem]
    rfl
  rw [← h.value i, Env.load, Env.toNat_valueAddr, ← haddr]
  rfl

/-- A store to a variable changes its value and nothing else. -/
theorem Keeps.store {env env' : Env} {ρ : Valuation} (h : Keeps env env' ρ)
    (i : Fin FINSH_VARIABLE_MAX) (v : BitVec 32) :
    Keeps env (env'.store .dword (env.valueAddr i) v) (update ρ i v) where
  mem := by
    rw [h.mem]
    rfl
  value j := by
    rw [Env.load, Env.store, Env.toNat_valueAddr, Env.toNat_valueAddr]
    by_cases hij : j = i
    · subst hij
      have hv : v.toNat % 256 ^ 4 = v.toNat := Nat.mod_eq_of_lt v.isLt
      rw [update_self]
      show BitVec.ofNat 32 ((env'.heap.mem.store (env.valueAt j) 4 v.toNat).load (env.valueAt j) 4) = v
      rw [Bytes.load_store_same, hv, BitVec.ofNat_toNat, BitVec.setWidth_eq]
    · rw [update_of_ne hij, ← h.value j, Env.load, Env.toNat_valueAddr]
      congr 1
      apply Bytes.load_store_of_disjoint
      -- The values are four bytes in structures of 24.
      unfold Env.valueAt Env.varAt VAR_SIZE Size.bytes
      dsimp only
      omega
  frame := by
    have hstore : Bytes.SameOff 4 [env.valueAt i] env'.heap.mem
        (env'.store .dword (env.valueAddr i) v).heap.mem := by
      intro a ha
      have hout := ha (env.valueAt i) mem_cons_self
      exact Bytes.store_apply_of_out (by rwa [Env.toNat_valueAddr])
    refine (h.frame.trans hstore).mono ?_
    intro a ha
    rcases mem_append.mp ha with ha | ha
    · exact ha
    · obtain rfl := mem_singleton.mp ha
      exact mem_map_of_mem (mem_finRange i)

/-! ## Runs of the code -/

/-- The machine has put a value on its stack and left what is below. -/
structure Pushed (vm vm' : Vm) (v : BitVec 32) : Prop where
  sp : vm'.sp = vm.sp + 1
  top : vm'.stack vm.sp = v
  below : ∀ j < vm.sp, vm'.stack j = vm.stack j

namespace Pushed

variable {vm vm₁ vm₂ : Vm} {x y : BitVec 32}

theorem push (vm : Vm) (v : BitVec 32) : Pushed vm (vm.push v) v where
  sp := rfl
  top := update_self ..
  below _ hj := update_of_ne hj.ne ..

theorem cell_one (h : Pushed vm vm₁ x) : vm₁.cell 1 = x := by
  rw [Vm.cell, h.sp, ← h.top]
  congr 1
  push_cast
  omega

theorem cell_two (h : Pushed vm vm₁ x) (h' : Pushed vm₁ vm₂ y) : vm₂.cell 2 = x := by
  have hsp : vm₂.sp - (2 : ℕ) = vm.sp := by
    rw [h'.sp, h.sp]
    push_cast
    omega
  rw [Vm.cell, hsp, h'.below _ (by rw [h.sp]; omega), h.top]

theorem of_take {k : ℕ} (hsp : vm₁.sp - k = vm.sp) (hbelow : ∀ j < vm.sp, vm₁.stack j = vm.stack j)
    (v : BitVec 32) : Pushed vm ((vm₁.take k).push v) v := by
  refine ⟨congrArg (· + 1) hsp, ?_, ?_⟩
  · rw [← hsp]
    exact update_self ..
  · intro j hj
    rw [← hbelow j hj]
    rw [← hsp] at hj
    exact update_of_ne hj.ne ..

section

variable (h : Pushed vm vm₁ x)
include h

theorem replace (v : BitVec 32) : Pushed vm ((vm₁.take 1).push v) v := by
  refine of_take ?_ h.below v
  rw [h.sp]
  push_cast
  omega

theorem sp_lt : vm.sp < vm₁.sp := by
  rw [h.sp]
  omega

theorem below_two (h' : Pushed vm₁ vm₂ y) : ∀ j < vm.sp, vm₂.stack j = vm.stack j :=
  fun j hj => (h'.below j (hj.trans h.sp_lt)).trans (h.below j hj)

theorem replace_two (h' : Pushed vm₁ vm₂ y) (v : BitVec 32) :
    Pushed vm ((vm₂.take 2).push v) v := by
  refine of_take ?_ (h.below_two h') v
  rw [h'.sp, h.sp]
  push_cast
  omega

theorem pop (h' : Pushed vm₁ vm₂ y) : Pushed vm (vm₂.take 1) x := by
  refine ⟨?_, (h'.below _ h.sp_lt).trans h.top, fun j hj => h.below_two h' j hj⟩
  show vm₂.sp - (1 : ℕ) = vm.sp + 1
  rw [h'.sp, h.sp]
  push_cast
  omega

end

end Pushed

/-- The machine has put a value on its stack, and the variables have the values. -/
structure Gives (env : Env) (vm vm' : Vm) (v : BitVec 32) (ρ : Valuation) : Prop where
  pushed : Pushed vm vm' v
  keeps : Keeps env vm'.env ρ

namespace Gives

variable (call : Call) {env : Env} {vm vm₁ vm₂ : Vm} {x y v : BitVec 32} {ρ ρ' : Valuation}
  {i : Fin FINSH_VARIABLE_MAX}

/-! One rule for each instruction of the code. -/

theorem ld (h : Keeps env vm.env ρ) (v : BitVec 32) :
    Gives env vm (vm.exec call (instr (.ld .dword) v.toNat)) v ρ := by
  have hv : v.toNat % 256 ^ 4 = v.toNat := Nat.mod_eq_of_lt v.isLt
  have hexec : vm.exec call (instr (.ld .dword) v.toNat) = vm.push v := by
    show vm.push (BitVec.ofNat 32 (v.toNat % 256 ^ 4)) = vm.push v
    rw [hv, BitVec.ofNat_toNat, BitVec.setWidth_eq]
  rw [hexec]
  exact ⟨Pushed.push vm v, h⟩

theorem ldAddr (h : Keeps env vm.env ρ) (i : Fin FINSH_VARIABLE_MAX) :
    Gives env vm (vm.exec call (instr (.ld .dword) (env.valueAt i))) (env.valueAddr i) ρ := by
  rw [← Env.toNat_valueAddr]
  exact ld call h _

theorem ldValue (h : Keeps env vm.env ρ) (i : Fin FINSH_VARIABLE_MAX) :
    Gives env vm (vm.exec call (instr (.ldValue .dword) (env.valueAt i))) (ρ i) ρ := by
  have haddr : (env.valueAddr i).toNat % 256 ^ 4 = (env.valueAddr i).toNat :=
    Nat.mod_eq_of_lt (env.valueAddr i).isLt
  have hexec : vm.exec call (instr (.ldValue .dword) (env.valueAt i)) = vm.push (ρ i) := by
    rw [← Env.toNat_valueAddr, ← h.value i]
    show vm.push (vm.env.load .dword (BitVec.ofNat 32 ((env.valueAddr i).toNat % 256 ^ 4))) = _
    rw [haddr, BitVec.ofNat_toNat, BitVec.setWidth_eq]
  rw [hexec]
  exact ⟨Pushed.push vm _, h⟩

theorem bin {op : BinOp} (h : Gives env vm vm₁ x ρ) (h' : Gives env vm₁ vm₂ y ρ')
    (hop : op.apply x y = v) : Gives env vm (vm₂.exec call (instr (.bin op .dword) 0)) v ρ' := by
  have hexec : vm₂.exec call (instr (.bin op .dword) 0) = (vm₂.take 2).push v := by
    rw [← hop, ← h.pushed.cell_two h'.pushed, ← h'.pushed.cell_one]
    rfl
  rw [hexec]
  exact ⟨h.pushed.replace_two h'.pushed v, h'.keeps⟩

theorem bitwise (h : Gives env vm vm₁ x ρ) :
    Gives env vm (vm₁.exec call (instr (.bitwise .dword) 0)) (~~~x) ρ := by
  have hexec : vm₁.exec call (instr (.bitwise .dword) 0) = (vm₁.take 1).push (~~~x) := by
    rw [← h.pushed.cell_one]
    rfl
  rw [hexec]
  exact ⟨h.pushed.replace _, h.keeps⟩

theorem st (h : Gives env vm vm₁ (env.valueAddr i) ρ) (h' : Gives env vm₁ vm₂ y ρ') :
    Gives env vm (vm₂.exec call (instr (.st .dword) 0)) (env.valueAddr i) (update ρ' i y) := by
  have hexec : vm₂.exec call (instr (.st .dword) 0) =
      { (vm₂.take 2).push (env.valueAddr i) with env := vm₂.env.store .dword (env.valueAddr i) y } := by
    rw [← h.pushed.cell_two h'.pushed, ← h'.pushed.cell_one]
    rfl
  rw [hexec]
  have hpushed := h.pushed.replace_two h'.pushed (env.valueAddr i)
  exact ⟨⟨hpushed.sp, hpushed.top, hpushed.below⟩, h'.keeps.store i y⟩

theorem ldValueStack (h : Gives env vm vm₁ (env.valueAddr i) ρ) :
    Gives env vm (vm₁.exec call (instr (.ldValueStack .dword) 0)) (ρ i) ρ := by
  have hexec : vm₁.exec call (instr (.ldValueStack .dword) 0) = (vm₁.take 1).push (ρ i) := by
    rw [← h.keeps.value i, ← h.pushed.cell_one]
    rfl
  rw [hexec]
  exact ⟨h.pushed.replace _, h.keeps⟩

theorem pop (h : Gives env vm vm₁ x ρ) (h' : Gives env vm₁ vm₂ y ρ') :
    Gives env vm (vm₂.exec call (instr .pop 0)) x ρ' :=
  ⟨h.pushed.pop h'.pushed, h'.keeps⟩

/-- The code of an expression gives its value and the new values of the variables. -/
theorem code {e : Expr} (h : Keeps env vm.env ρ) (heval : e.eval ρ = some (v, ρ')) :
    Gives env vm (vm.run call (e.code env)) v ρ' := by
  induction e generalizing vm ρ v ρ' with
  | int v | long v =>
    cases heval
    exact ld call h v
  | var i =>
    cases heval
    exact ldValue call h i
  | bin op a b iha ihb =>
    obtain ⟨⟨x, ρ₁⟩, ha, heval⟩ := bind_eq_some_iff.mp heval
    obtain ⟨⟨y, ρ₂⟩, hb, heval⟩ := bind_eq_some_iff.mp heval
    obtain ⟨z, hop, heval⟩ := bind_eq_some_iff.mp heval
    cases heval
    rw [Expr.code, Vm.run_append, Vm.run_append]
    have hleft := iha h ha
    exact hleft.bin call (ihb hleft.keeps hb) (BinOp.apply_of_eval hop)
  | not a iha =>
    obtain ⟨⟨x, ρ₁⟩, ha, heval⟩ := bind_eq_some_iff.mp heval
    cases heval
    rw [Expr.code, Vm.run_append, ← not_eq_ofInt]
    exact (iha h ha).bitwise call
  -- The sign is a subtraction from zero.
  | neg a iha =>
    obtain ⟨⟨x, ρ₁⟩, ha, heval⟩ := bind_eq_some_iff.mp heval
    cases heval
    rw [Expr.code, Vm.run_cons, Vm.run_append]
    have hzero : Gives env vm (vm.exec call (instr (.ld .dword) 0)) 0 ρ := ld call h 0
    exact hzero.bin call (iha hzero.keeps ha) (zero_sub_eq_ofInt x)
  | assign i a iha =>
    obtain ⟨⟨x, ρ₁⟩, ha, heval⟩ := bind_eq_some_iff.mp heval
    cases heval
    rw [Expr.code, Vm.run_cons, Vm.run_append]
    have haddr := ldAddr call h i
    have hstored := haddr.st call (iha haddr.keeps ha)
    have hloaded := hstored.ldValueStack call
    rw [update_self] at hloaded
    exact hloaded
  | pre step i =>
    cases heval
    have haddr := ldAddr call h i
    have hvalue := ldValue call haddr.keeps i
    have hone := ld call hvalue.keeps 1
    have hstored := haddr.st call (hvalue.bin call hone (step.apply_op (ρ i)))
    have hloaded := hstored.ldValueStack call
    rw [update_self] at hloaded
    exact hloaded
  -- The old value stays below the step, whose value is popped.
  | post step i =>
    cases heval
    have hold := ldValue call h i
    have haddr := ldAddr call hold.keeps i
    have hvalue := ldValue call haddr.keeps i
    have hone := ld call hvalue.keeps 1
    have hstored := haddr.st call (hvalue.bin call hone (step.apply_op (ρ i)))
    exact hold.pop call hstored

end Gives

/-! ## The size of the stack -/

theorem height_code (e : Expr) (k : ℕ) : height (effects (e.code env)) k = some (k + 1) := by
  induction e generalizing k with
  | int v | long v => rfl
  | var i => rfl
  | bin op a b iha ihb =>
    simp [Expr.code, height_append, iha, ihb, instr, Instr.effect, Effect.on]
  | not a iha | neg a iha | assign i a iha =>
    simp [Expr.code, height_append, iha, instr, Instr.effect, Effect.on]
  | pre step i => simp [Expr.code, preCode, instr, Instr.effect, Effect.on]
  | post step i => simp [Expr.code, postCode, instr, Instr.effect, Effect.on]

theorem swing_code_le (e : Expr) :
    2 * (((effects (e.code env)).map Effect.swing).sum + 1) ≤ (encode (e.code env)).length := by
  induction e with
  | int v | long v => simp [Expr.code, instr, Instr.effect, Effect.swing, Op.argBytes, Size.bytes]
  | var i => simp [Expr.code, instr, Instr.effect, Effect.swing, Op.argBytes]
  | bin op a b iha ihb | not a iha =>
    simp [Expr.code, encode_append, instr, Instr.effect, Effect.swing, Op.argBytes]
    omega
  | neg a iha | assign i a iha =>
    simp [Expr.code, encode_append, instr, Instr.effect, Effect.swing, Op.argBytes, Size.bytes]
    omega
  | pre step i =>
    simp [Expr.code, preCode, instr, Instr.effect, Effect.swing, Op.argBytes, Size.bytes]
  | post step i =>
    simp [Expr.code, postCode, instr, Instr.effect, Effect.swing, Op.argBytes, Size.bytes]

theorem span_code (e : Expr) (call : Call) (stack : ℤ → BitVec 32)
    (h : (encode (e.code env)).length ≤ FINSH_TEXT_MAX) :
    0 ≤ ((Vm.start env stack).run call (e.code env)).gauge.low ∧
      ((Vm.start env stack).run call (e.code env)).gauge.high ≤ FINSH_STACK_MAX := by
  have hspan := Vm.span_run env stack call (e.code env)
  have hswing := swing_code_le env e
  have hmax : FINSH_TEXT_MAX = 2 * FINSH_STACK_MAX := rfl
  have hfits : ((effects (e.code env)).map Effect.swing).sum + 1 ≤ FINSH_STACK_MAX := by omega
  rw [Vm.gauge_run] at hspan ⊢
  have hlow := ((Gauge.height_eq_some_iff 0).mp (height_code env e 0)).2
  have hstart : ((Gauge.level 0).run (effects (e.code env))).low ≤ 0 := Gauge.low_run_le _ _
  refine ⟨hlow, ?_⟩
  calc ((Gauge.level 0).run (effects (e.code env))).high
    _ ≤ _ := hspan
    _ ≤ 0 + (FINSH_STACK_MAX : ℤ) := Int.add_le_add hstart (Int.ofNat_le.mpr hfits)
    _ = FINSH_STACK_MAX := zero_add _

/-- For every expression over literals and over variables of the types `int`, `unsigned int`, `long`
and `unsigned long`, the compiler emits code without an error. If the code fits into the text segment
and the expression has a value, then the machine runs the code and stops with the value alone on its
stack and with the variables of the evaluation. It has changed no other byte of the memory, taken no
value from below the stack and needed no more slots than there are. -/
theorem finsh_compiler_correct (e : Expr) (call : Call) (stack : ℤ → BitVec 32)
    (hdeclared : e.Declared env) : ∃ codes, finshCompilerRun env e.tree = .ok (codes, .ok) ∧
      ∀ v ρ, (encode (lineCode codes)).length ≤ FINSH_TEXT_MAX → e.eval env.valuation = some (v, ρ) →
        ∃ vm, finshVmRun call (textSegment (lineCode codes)) env stack = .ok vm ∧
          vm.sp = 1 ∧ vm.stack 0 = v ∧ vm.env.valuation = ρ ∧ vm.env = env.withMem vm.env.heap.mem ∧
          Bytes.SameOff 4 env.valueAddrs env.heap.mem vm.env.heap.mem ∧
          0 ≤ vm.gauge.low ∧ vm.gauge.high ≤ FINSH_STACK_MAX := by
  refine ⟨[e.code env], finshCompilerRun_tree hdeclared, ?_⟩
  intro v ρ hlength heval
  have hline : lineCode [e.code env] = e.code env := by simp [lineCode, intercalate]
  rw [hline] at hlength ⊢
  have hgives : Gives env (Vm.start env stack) _ v ρ := Gives.code call (Keeps.refl env) heval
  obtain ⟨hlow, hhigh⟩ := span_code env e call stack hlength
  exact ⟨_, finshVmRun_eq hlength env stack, hgives.pushed.sp, hgives.pushed.top,
    hgives.keeps.valuation, hgives.keeps.mem, hgives.keeps.frame, hlow, hhigh⟩

/-- The shell with eight variables of the type `int`. -/
def wordEnv : Env := { freshEnv with vars := fun _ => ⟨[], .int⟩ }

/-- The first variable. -/
def firstVar : Fin FINSH_VARIABLE_MAX := ⟨0, by decide⟩

/-- The expression `a++ + ~a` over the first variable. -/
def stepExpr : Expr := .bin .add (.post .inc firstVar) (.not (.var firstVar))

/-- The code of `a++ + ~a` leaves -2 for zero, and `a` is one. -/
theorem finsh_compiler_correct_stepExpr : ∃ codes vm,
    finshCompilerRun wordEnv stepExpr.tree = .ok (codes, .ok) ∧
    finshVmRun (fun _ _ env => (0, env)) (textSegment (lineCode codes)) wordEnv (fun _ => 0) = .ok vm ∧
    vm.sp = 1 ∧ vm.stack 0 = -2 ∧ vm.env.valuation = update wordEnv.valuation firstVar 1 := by
  have hdeclared : stepExpr.Declared wordEnv := by decide
  have hcode := finshCompilerRun_tree hdeclared
  obtain ⟨codes, hcodes, hrun⟩ :=
    finsh_compiler_correct wordEnv stepExpr (fun _ _ env => (0, env)) (fun _ => 0) hdeclared
  have hlength : (encode (lineCode codes)).length ≤ FINSH_TEXT_MAX := by
    cases hcodes.symm.trans hcode
    decide
  have hzero : wordEnv.valuation firstVar = 0 := by decide
  have heval : stepExpr.eval wordEnv.valuation =
      some (-2, update wordEnv.valuation firstVar 1) := by
    have hone : Step.inc.eval 0 = 1 := by decide
    have hsum : BinOp.add.eval 0 (BitVec.ofInt 32 (-(1 : BitVec 32).toInt - 1)) = some (-2) := by decide
    simp only [stepExpr, Expr.eval, hzero, hone, hsum, Option.bind_eq_bind, Option.bind_some,
      Option.pure_def, update_self]
  obtain ⟨vm, hvm, hsp, htop, hvalues, -⟩ := hrun _ _ hlength heval
  exact ⟨codes, vm, hcodes, hvm, hsp, htop, hvalues⟩

end RtThread.Finsh
