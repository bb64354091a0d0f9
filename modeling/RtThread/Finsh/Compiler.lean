import RtThread.Finsh.Parser
import RtThread.Finsh.Vm

/-!
# The compiler of the shell

The model of `components/finsh/finsh_compiler.c`. A first pass over the tree decides for every node
whether its address or its value is meant and which fields of the stack it works on
(`finsh_type_check`), a second one emits the code, a node behind its children (`finsh_compile`). The
trees of a line are compiled one after the other with a `POP` between them.

The code is a list of instructions, which the text segment holds as bytes (`textSegment`). It is
written to the text segment without a check of its length, so a longer one is the fault `wild` of
`finsh_run_line`.
-/

namespace RtThread.Finsh

open Lib

/-! ## Types -/

/-- The fields that a data type stands for: `FINSH_DATA_TYPE_BYTE`, `FINSH_DATA_TYPE_WORD` and
`FINSH_DATA_TYPE_DWORD`. -/
def typeSize : ℕ → Option Size
  | 1 => some .byte
  | 2 => some .word
  | 3 => some .dword
  | _ => none

/-- The data type of a variable in `finsh_type_check`, unless its type is unknown. -/
def typeData : FinshType → Option ℕ
  | .void => some 0
  | .char | .uchar => some 1
  | .short | .ushort => some 2
  | .int | .uint | .long | .ulong => some 3
  | .charp | .voidp | .shortp | .intp | .longp => some 3
  | .unknown => none

/-- The fields that the code for an identifier of a type loads. There is no code for `void *`. -/
def loadSize : FinshType → Option Size
  | .char | .uchar => some .byte
  | .short | .ushort => some .word
  | .int | .uint | .long | .ulong | .charp | .shortp | .intp | .longp => some .dword
  | .unknown | .void | .voidp => none

/-- The later of two errors. -/
def FinshError.next (first second : FinshError) : FinshError := if second = .ok then first else second

/-- Whether the address of the first child is meant. -/
def childAddr (type : NodeType) (isAddr : Bool) : Bool :=
  match type with
  | .sysAssign | .sysPreinc | .sysPredec | .sysGetaddr => true
  | .sysGetvalue => false
  | _ => isAddr

/-- The bit for an address is set, but not for a system call. -/
def Node.mark (n : Node) (isAddr : Bool) : Node :=
  match n.id with
  | .syscall _ => n
  | _ => { n with addr := n.addr || isAddr }

variable (env : Env)

/-- The type of a shell variable or a system variable. -/
def Env.idType : IdRef → Option FinshType
  | .var i => some (env.vars i).type
  | .sysvar s => some s.type
  | _ => none

/-- The data type of a node without a child, and the error. -/
def leafType (n : Node) : ℕ × FinshError :=
  match n.nodeType with
  | .id =>
    match env.idType n.id with
    | some type =>
      match typeData type with
      | some d => (d, .ok)
      | none => (n.dataType, .unknownType)
    | none => (n.dataType, .ok)
  | .valueChar => (1, .ok)
  | .valueInt | .valueLong | .valueString | .valueNull => (3, .ok)
  | _ => (n.dataType, .ok)

/-- `finsh_type_check`: the tree, and the error. -/
def finshTypeCheck (env : Env) : Bool → Tree → Tree × FinshError
  | _, .nil => (.nil, .ok)
  | isAddr, .node n child sibling =>
    let checked := finshTypeCheck env (childAddr n.nodeType isAddr) child
    let rest := finshTypeCheck env false sibling
    match checked.1 with
    | .node c _ _ =>
      (.node { n.mark isAddr with dataType := c.dataType } checked.1 rest.1, checked.2.next rest.2)
    | .nil =>
      let leaf := leafType env n
      (.node { n.mark isAddr with dataType := leaf.1 } .nil rest.1,
        (checked.2.next rest.2).next leaf.2)

/-! ## Code -/

/-- Code for the fields that a data type stands for; there is none for other data types. -/
def typed (dataType : ℕ) (code : Size → List Instr) : List Instr :=
  match typeSize dataType with
  | some size => code size
  | none => []

/-- The address or the value of a variable is loaded. -/
def loadCode (type : FinshType) (isAddr : Bool) (address : ℕ) : List Instr :=
  match loadSize type with
  | some size => [instr (if isAddr then .ld .dword else .ldValue size) address]
  | none => []

/-- The code of an identifier: its address or its value. -/
def idCode (n : Node) : List Instr :=
  match n.id with
  | .syscall c => [instr (.ld .dword) c.func]
  | .sysvar s => loadCode s.type n.addr s.var
  | .var i => loadCode (env.vars i).type n.addr (env.valueAt i)
  | .none => []

/-- `&(var->value)` for the union `id` of a node, whatever it points to. -/
def Env.idValueAt : IdRef → ℕ
  | .none => VALUE_OFFSET
  | .var i => env.valueAt i
  | .sysvar s => env.sysvarAt s + VALUE_OFFSET
  | .syscall c => env.syscallAt c + VALUE_OFFSET

/-- The code of an increment or a decrement that gives the new value. -/
def preCode (op : BinOp) (id : IdRef) (size : Size) : List Instr :=
  [instr (.ldValue size) (env.idValueAt id), instr (.ld size) 1, instr (.bin op size) 0,
    instr (.st size) 0, instr (.ldValueStack .dword) 0]

/-- The code of an increment or a decrement that gives the old value. -/
def postCode (op : BinOp) (id : IdRef) (size : Size) : List Instr :=
  [instr (.ld .dword) (env.idValueAt id), instr (.ldValue size) (env.idValueAt id),
    instr (.ld size) 1, instr (.bin op size) 0, instr (.st size) 0, instr .pop 0]

/-- The code of an increment or a decrement, of an identifier only. -/
def stepCode (code : IdRef → Size → List Instr) (n : Node) : Tree → List Instr
  | .node c _ _ => if c.nodeType = .id then typed n.dataType (code c.id) else []
  | .nil => []

/-- The code of an assignment to a field: it is stored and loaded again. -/
def storeCode (dataType : ℕ) : List Instr × FinshError :=
  match typeSize dataType with
  | some size => ([instr (.st size) 0, instr (.ldValueStack size) 0], .ok)
  | none => ([], .unknownType)

/-- The code of an assignment, by the node assigned to. There is no code for other nodes than
identifiers and contents of addresses. -/
def assignCode : Tree → Except Fault (List Instr × FinshError)
  | .node c _ _ =>
    if c.nodeType = .id then .ok (storeCode c.dataType)
    else if c.nodeType = .sysGetvalue then .ok (storeCode (c.dataType % 16))
    else .ok ([], .ok)
  | .nil => .error .wild

/-- The code of a call with the parameters behind the function. -/
def funcCode : Tree → List Instr
  | .node _ _ parameters => [instr .syscall parameters.siblings]
  | .nil => []

/-- The code of a node with its child, behind the code of the child. -/
def nodeCode (n : Node) (child : Tree) : Except Fault (List Instr × FinshError) :=
  match n.nodeType with
  | .id => .ok (idCode env n, .ok)
  | .valueChar => .ok ([instr (.ld .byte) n.value.toNat], .ok)
  | .valueInt | .valueLong | .valueNull | .valueString =>
    .ok ([instr (.ld .dword) n.value.toNat], .ok)
  | .sysAdd => .ok (typed n.dataType fun size => [instr (.bin .add size) 0], .ok)
  | .sysSub => .ok (typed n.dataType fun size => [instr (.bin .sub size) 0], .ok)
  | .sysMul => .ok (typed n.dataType fun size => [instr (.bin .mul size) 0], .ok)
  | .sysDiv => .ok (typed n.dataType fun size => [instr (.bin .div size) 0], .ok)
  | .sysMod => .ok (typed n.dataType fun size => [instr (.bin .mod size) 0], .ok)
  | .sysAnd => .ok (typed n.dataType fun size => [instr (.bin .and size) 0], .ok)
  | .sysOr => .ok (typed n.dataType fun size => [instr (.bin .or size) 0], .ok)
  | .sysXor => .ok (typed n.dataType fun size => [instr (.bin .xor size) 0], .ok)
  | .sysBitwise => .ok (typed n.dataType fun size => [instr (.bitwise size) 0], .ok)
  | .sysShl => .ok (typed n.dataType fun size => [instr (.bin .shl size) 0], .ok)
  | .sysShr => .ok (typed n.dataType fun size => [instr (.bin .shr size) 0], .ok)
  | .sysFunc => .ok (funcCode child, .ok)
  | .sysAssign => assignCode child
  | .sysPreinc => .ok (stepCode (preCode env .add) n child, .ok)
  | .sysPredec => .ok (stepCode (preCode env .sub) n child, .ok)
  | .sysInc => .ok (stepCode (postCode env .add) n child, .ok)
  | .sysDec => .ok (stepCode (postCode env .sub) n child, .ok)
  -- Four zero bytes.
  | .sysNull => .ok (List.replicate 4 (instr .noop 0), .ok)
  | .sysGetvalue =>
    .ok (if n.addr then [] else typed n.dataType fun size => [instr (.ldValueStack size) 0], .ok)
  | .sysGetaddr => .ok ([], .ok)
  | .sysCast => .ok ([], .unknownNode)

/-- `finsh_compile`: the code of the child, of the node, and of the sibling. -/
def finshCompile (env : Env) : Tree → Except Fault (List Instr × FinshError)
  | .nil => .ok ([], .ok)
  | .node n child sibling => do
    let (code, error) ← finshCompile env child
    let (code', error') ← nodeCode env n child
    let (code'', error'') ← finshCompile env sibling
    return (code ++ code' ++ code'', (error.next error').next error'')

/-- The loop of `finsh_compiler_run`: the code of each tree, and the error. -/
def compileTrees (env : Env) : List Tree → Except Fault (List (List Instr) × FinshError)
  | [] => .ok ([], .ok)
  | tree :: trees => do
    let (code, error) ← finshCompile env tree
    let (codes, error') ← compileTrees env trees
    return (code :: codes, error.next error')

/-- `finsh_compiler_run`: the code of each tree, and the error. -/
def finshCompilerRun (env : Env) (root : Tree) : Except Fault (List (List Instr) × FinshError) := do
  let checked := finshTypeCheck env false root
  let (codes, error) ← compileTrees env checked.1.forest
  return (codes, checked.2.next error)

/-- The code of a line, with a `POP` between the codes of its trees. -/
def lineCode (codes : List (List Instr)) : List Instr := [instr .pop 0].intercalate codes

end RtThread.Finsh
