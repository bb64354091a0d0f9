import RtThread.Finsh.Heap
import RtThread.Finsh.Symbol
import RtThread.Finsh.Token
import RtThread.Lib.Exec

/-!
# Variables and syntax trees of the shell

The model of `components/finsh/finsh_var.c` and `components/finsh/finsh_node.c`, with the state in
which the parser works. A syntax tree has nodes with a first child and a next sibling. The nodes are
entries of a table of 16 that is cleared after every line, so the table is the number of its entries in
use. The values of the variables are words of the memory. The parser keeps a record of the calls of
`finsh_heap_allocate` and of the blocks that the line has got for its string literals.
-/

namespace RtThread.Finsh

open Lib

/-- The entries of the table of nodes. -/
def FINSH_NODE_MAX : ℕ := 16
/-- The entries of the table of variables. -/
def FINSH_VARIABLE_MAX : ℕ := 8

/-! ## Variables -/

/-- `struct finsh_var` without the value, which is in the memory. -/
structure Var where
  /-- At most `FINSH_NAME_MAX` characters. -/
  name : List Char
  type : FinshType
  deriving DecidableEq

/-- `global_variable`. -/
abbrev Vars := Fin FINSH_VARIABLE_MAX → Var

/-- `finsh_var_init`. -/
def finshVarInit : Vars := fun _ => ⟨[], .unknown⟩

/-- The names are the same as far as `strncmp` compares them. -/
def sameName (v : Var) (name : List Char) : Bool := strncmp v.name name FINSH_NAME_MAX = 0

/-- `finsh_var_insert`: the variables, unless it returns -1. -/
def finshVarInsert (vars : Vars) (name : List Char) (type : FinshType) : Option Vars :=
  if (List.finRange FINSH_VARIABLE_MAX).any fun i => sameName (vars i) name then none
  else
    match (List.finRange FINSH_VARIABLE_MAX).find? fun i => (vars i).type = .unknown with
    | none => none
    | some empty => some (Function.update vars empty ⟨name.take FINSH_NAME_MAX, type⟩)

/-- `finsh_var_lookup`: the first variable of the name. -/
def finshVarLookup (vars : Vars) (name : List Char) : Option (Fin FINSH_VARIABLE_MAX) :=
  (List.finRange FINSH_VARIABLE_MAX).find? fun i => sameName (vars i) name

/-- The size of a `struct finsh_var`. -/
def VAR_SIZE : ℕ := 24

/-- The offset of `value` in `struct finsh_var`. -/
def VALUE_OFFSET : ℕ := 20

/-- What the shell keeps from one line to the next. The array of the variables does not wrap around
the end of memory. -/
structure Env where
  vars : Vars
  /-- The address of `global_variable`. -/
  varBase : ℕ
  varBase_le : varBase + VAR_SIZE * FINSH_VARIABLE_MAX ≤ 2 ^ 32
  sysvars : Symbols Sysvar
  syscalls : Symbols Syscall
  /-- Where the entries of the two tables are. -/
  sysvarAt : Sysvar → ℕ
  syscallAt : Syscall → ℕ
  /-- The heap, with the whole memory. -/
  heap : Heap

/-- What an identifier stands for: `id` with `idtype`. -/
inductive IdRef
  | none
  | var (i : Fin FINSH_VARIABLE_MAX)
  | sysvar (s : Sysvar)
  | syscall (c : Syscall)
  deriving DecidableEq

namespace Env

variable (env : Env) (i : Fin FINSH_VARIABLE_MAX)

/-- The address of an entry of `global_variable`. -/
def varAt : ℕ := env.varBase + VAR_SIZE * i

/-- The address of the value of a variable. -/
def valueAt : ℕ := env.varAt i + VALUE_OFFSET

/-- The value of a variable, a word of the memory. -/
def value : ℕ := env.heap.mem.load (env.valueAt i) 4

/-- The values of the variables whose type is not `finsh_type_unknown`. -/
def varValues : List ℕ :=
  ((List.finRange FINSH_VARIABLE_MAX).filter fun i => (env.vars i).type ≠ .unknown).map env.value

/-- The look-ups of `finsh_node_new_id`. A name of 16 characters is copied without its end, which
only `finsh_var_lookup` does not read. -/
def symbol (id : List Char) : Except Fault IdRef :=
  match finshVarLookup env.vars id with
  | some i => .ok (.var i)
  | none =>
    if FINSH_NAME_MAX ≤ id.length then .error .wild
    else
      match finshSysvarLookup env.sysvars id with
      | some s => .ok (.sysvar s)
      | none =>
        match finshSyscallLookup env.syscalls id with
        | some c => .ok (.syscall c)
        | none => .ok .none

end Env

/-! ## Syntax trees -/

/-- The types of nodes, `FINSH_NODE_ID` to `FINSH_NODE_SYS_NULL`. An entry that is not in use has
none. -/
inductive NodeType
  | id
  | valueChar
  | valueInt
  | valueLong
  | valueString
  | valueNull
  | sysAdd
  | sysSub
  | sysMul
  | sysDiv
  | sysMod
  | sysAnd
  | sysOr
  | sysXor
  | sysBitwise
  | sysShl
  | sysShr
  | sysFunc
  | sysAssign
  | sysCast
  | sysPreinc
  | sysPredec
  | sysInc
  | sysDec
  | sysGetvalue
  | sysGetaddr
  | sysNull
  deriving DecidableEq

/-- `struct finsh_node` without the links. -/
structure Node where
  nodeType : NodeType
  dataType : ℕ
  /-- The bit `FINSH_IDTYPE_ADDRESS` of `idtype`. -/
  addr : Bool
  id : IdRef
  value : BitVec 32
  deriving DecidableEq

/-- A node as `finsh_node_allocate` leaves it. -/
def Node.new (type : NodeType) : Node :=
  { nodeType := type, dataType := 0, addr := false, id := .none, value := 0 }

/-- A pointer to a node with its child and its sibling. -/
inductive Tree
  | nil
  | node (n : Node) (child sibling : Tree)
  deriving DecidableEq

namespace Tree

/-- A tree behind the last sibling. -/
def append : Tree → Tree → Tree
  | nil, t => t
  | node n child sibling, t => node n child (sibling.append t)

/-- The assignment `finsh_node_sibling(node) = t` at the sibling with index `k`. -/
def setSiblingAt : Tree → ℕ → Tree → Tree
  | nil, _, _ => nil
  | node n child _, 0, t => node n child t
  | node n child sibling, k + 1, t => node n child (sibling.setSiblingAt k t)

/-- The trees of the siblings, each without siblings of its own. -/
def forest : Tree → List Tree
  | nil => []
  | node n child sibling => node n child nil :: sibling.forest

/-- The number of siblings, with the node itself. -/
def siblings : Tree → ℕ
  | nil => 0
  | node _ _ sibling => sibling.siblings + 1

/-- The number of nodes. -/
def size : Tree → ℕ
  | nil => 0
  | node _ child sibling => child.size + sibling.size + 1

/-- The root gets a type. -/
def setDataType (type : ℕ) : Tree → Tree
  | nil => nil
  | node n child sibling => node { n with dataType := type } child sibling

end Tree

/-! ## The state of the parser -/

/-- A call of `finsh_heap_allocate`, by what it is called with, and with the blocks of the string
literals of the line. -/
structure AllocCall where
  heap : Heap
  /-- The values of the variables in use. -/
  vars : List ℕ
  size : ℕ
  literals : List ℕ

/-- `struct finsh_parser` without the root, the global state, and the record. -/
structure Parser where
  token : Token
  env : Env
  /-- The entries of `global_node_table` in use. -/
  nodes : ℕ
  /-- `global_errno`. -/
  errno : FinshError
  literals : List ℕ
  calls : List AllocCall

/-- A function of the parser. -/
abbrev Parse := Exec Fault Parser

/-- `finsh_error_set`. -/
def finshErrorSet (e : FinshError) : Parse PUnit := modify fun p => { p with errno := e }

/-- `finsh_node_allocate`, which finds an entry or returns `NULL`. -/
def finshNodeAllocate : Parse Bool := fun p =>
  if p.nodes < FINSH_NODE_MAX then .ok (true, { p with nodes := p.nodes + 1 }) else .ok (false, p)

/-- A new node with a value, or an error if the table is full. -/
def finshNodeNewValue (type : NodeType) (value : BitVec 32) : Parse Tree := do
  if ← finshNodeAllocate then return .node { Node.new type with value := value } .nil .nil
  else
    finshErrorSet .memoryFull
    return .nil

/-- `finsh_node_new_char`, which writes the low byte of the union. -/
def finshNodeNewChar (c : BitVec 32) : Parse Tree := finshNodeNewValue .valueChar (c &&& 0xff)

/-- `finsh_node_new_int`. -/
def finshNodeNewInt (i : BitVec 32) : Parse Tree := finshNodeNewValue .valueInt i

/-- `finsh_node_new_long`. -/
def finshNodeNewLong (l : BitVec 32) : Parse Tree := finshNodeNewValue .valueLong l

/-- `finsh_node_new_ptr`. -/
def finshNodeNewPtr (ptr : BitVec 32) : Parse Tree := finshNodeNewValue .valueNull ptr

/-- The memory with a string and its end at an address. -/
def writeText (m : Bytes) (ptr : ℕ) (s : List Char) : Bytes := fun a =>
  if ptr ≤ a ∧ a < ptr + s.length then UInt8.ofNat (s.getD (a - ptr) '\x00').toNat
  else if a = ptr + s.length then 0
  else m a

/-- The call of `finsh_heap_allocate` in `finsh_node_new_string`, and the copy of the string. There
is no check for a block: without one the string is copied to `NULL`. -/
def newText (s : List Char) : Parse ℕ := fun p =>
  let call : AllocCall := ⟨p.env.heap, p.env.varValues, s.length + 1, p.literals⟩
  match call.heap.finshHeapAllocate call.vars call.size with
  | .error e => .error e
  | .ok (ptr, heap, _) =>
    if ptr = 0 then .error .wild
    else
      .ok (ptr, { p with
        env := { p.env with heap := { heap with mem := writeText heap.mem ptr s } }
        literals := p.literals ++ [ptr]
        calls := p.calls ++ [call] })

/-- `finsh_node_new_string` of the array `string` of the lexer, which has no end if it is full. -/
def finshNodeNewString (string : List Char) : Parse Tree := do
  if ← finshNodeAllocate then
    if FINSH_STRING_MAX ≤ (textOf string).length then throw .wild
    else
      let ptr ← newText (textOf string)
      return .node { Node.new .valueString with value := BitVec.ofNat 32 ptr } .nil .nil
  else
    finshErrorSet .memoryFull
    return .nil

/-- What an identifier names. -/
def findSymbol (id : List Char) : Parse IdRef := fun p =>
  match p.env.symbol id with
  | .error e => .error e
  | .ok ref => .ok (ref, p)

/-- `finsh_node_new_id`: an unknown symbol is an error. -/
def finshNodeNewId (id : List Char) : Parse Tree := do
  let ref ← findSymbol id
  if ref = .none then
    finshErrorSet .unknownSymbol
    return .nil
  else if ← finshNodeAllocate then return .node { Node.new .id with id := ref } .nil .nil
  else
    finshErrorSet .memoryFull
    return .nil

end RtThread.Finsh
