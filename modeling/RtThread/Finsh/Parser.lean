import RtThread.Finsh.Node

/-!
# The parser of the shell

The model of `components/finsh/finsh_parser.c`, a parser by recursive descent with one token of
replay. An error is stored in `global_errno` and the parser goes on. The functions for expressions call
each other. Each is a definition with a parameter for these calls, and `parse` ties them together, with
calls nested up to a depth; a parser that has to go deeper does not return, which is the fault `fuel`.
The six functions for the binary operators are one definition for a level of precedence.
-/

namespace RtThread.Finsh

open Lib

/-! ## Tokens -/

/-- `next_token`. -/
def nextToken : Parse TokenType := fun p =>
  match p.token.finshTokenToken with
  | .error e => .error e
  | .ok (t, error) => .ok (t.currentToken, { p with token := t, errno := error.getD p.errno })

/-- `finsh_token_replay`: the token is read again. -/
def finshTokenReplay : Parse PUnit := modify fun p => { p with token := { p.token with replay := true } }

/-- `check_token`. -/
def checkToken (token type : TokenType) : Parse PUnit :=
  if token ≠ type then do
    finshErrorSet .invalidToken
    finshTokenReplay
  else return ()

/-- `match_token`. -/
def matchToken (type : TokenType) : Parse PUnit := do
  let token ← nextToken
  checkToken token type

/-- The fields of the lexer that the parser reads. -/
def getToken : Parse Token := fun p => .ok (p.token, p)

/-! ## Types and identifiers -/

/-- The types that one token names. -/
def baseType : TokenType → Option FinshType
  | .void => some .void
  | .char => some .char
  | .short => some .short
  | .int => some .int
  | .long => some .long
  | _ => none

/-- The types behind `unsigned`. -/
def unsignedType : TokenType → Option FinshType
  | .char => some .uchar
  | .short => some .ushort
  | .int => some .uint
  | .long => some .ulong
  | _ => none

/-- The type of a pointer to a type. -/
def pointerType : FinshType → FinshType
  | .char | .uchar => .charp
  | .short | .ushort => .shortp
  | .int | .uint => .intp
  | .long | .ulong => .longp
  | _ => .voidp

/-- The end of `proc_type`: a `*` makes the type a pointer. -/
def procPointer (type : FinshType) : Parse FinshType := do
  let token ← nextToken
  if token = .mul then return pointerType type
  else
    finshTokenReplay
    return type

/-- The label `__return` of `proc_type`. -/
def noType : Parse FinshType := do
  finshTokenReplay
  finshErrorSet .unknownType
  return .unknown

/-- `proc_type`. -/
def procType : Parse FinshType := do
  let token ← nextToken
  match baseType token with
  | some type => procPointer type
  | none =>
    if token = .unsigned then
      let token ← nextToken
      if (baseType token).isSome then
        match unsignedType token with
        | some type => procPointer type
        | none => noType
      else
        finshTokenReplay
        finshErrorSet .expectType
        procPointer .unknown
    else noType

/-- `proc_identifier`, which copies the text of the token whatever it is. -/
def procIdentifier : Parse (List Char) := do
  matchToken .identifier
  let token ← getToken
  return (textOf token.string).take FINSH_NAME_MAX

/-- The number of a type, as the nodes hold it. -/
def FinshType.toNat : FinshType → ℕ
  | .unknown => 0
  | .void => 1
  | .voidp => 2
  | .char => 3
  | .uchar => 4
  | .charp => 5
  | .short => 6
  | .ushort => 7
  | .shortp => 8
  | .int => 9
  | .uint => 10
  | .intp => 11
  | .long => 12
  | .ulong => 13
  | .longp => 14

/-- `make_sys_node`: an operator with its operands. -/
def makeSysNode (type : NodeType) (node1 node2 : Tree) : Parse Tree := do
  if ← finshNodeAllocate then
    match node1 with
    | .node n child _ => return .node (Node.new type) (.node n child node2) .nil
    | .nil =>
      finshErrorSet .nullNode
      return .node (Node.new type) .nil .nil
  else
    finshErrorSet .nullNode
    return .nil

/-! ## Expressions -/

/-- The levels of precedence of the binary operators. -/
inductive Level
  | inclusiveOr
  | exclusiveOr
  | and
  | shift
  | additive
  | multiplicative
  deriving DecidableEq

/-- The functions for expressions and their loops. -/
inductive Nt
  | assignExpr
  | binaryExpr (l : Level)
  | binaryRest (l : Level) (left : Tree)
  | castExpr
  | unaryExpr
  | postfixExpr
  | postfixRest (tree : Tree)
  | primaryExpr
  | paramList
  | paramRest (params : Tree)

/-- The operators of a level, each with the type of its node. -/
def Level.operator : Level → TokenType → Option NodeType
  | .inclusiveOr, .or => some .sysOr
  | .exclusiveOr, .xor => some .sysXor
  | .and, .and => some .sysAnd
  | .shift, .shl => some .sysShl
  | .shift, .shr => some .sysShr
  | .additive, .sub => some .sysSub
  | .additive, .add => some .sysAdd
  | .multiplicative, .mul => some .sysMul
  | .multiplicative, .div => some .sysDiv
  | .multiplicative, .mod => some .sysMod
  | _, _ => none

/-- The function for the operands of a level. -/
def Level.operand : Level → Nt
  | .inclusiveOr => .binaryExpr .exclusiveOr
  | .exclusiveOr => .binaryExpr .and
  | .and => .binaryExpr .shift
  | .shift => .binaryExpr .additive
  | .additive => .binaryExpr .multiplicative
  | .multiplicative => .castExpr

section Calls

variable (call : Nt → Parse Tree)

/-- `proc_assign_expr`. -/
def procAssignExpr : Parse Tree := do
  let or ← call (.binaryExpr .inclusiveOr)
  let token ← nextToken
  if token = .assign then
    let assign ← call .assignExpr
    makeSysNode .sysAssign or assign
  else
    finshTokenReplay
    return or

/-- The functions for the binary operators up to their loop. -/
def procBinaryExpr (l : Level) : Parse Tree := do
  let left ← call l.operand
  call (.binaryRest l left)

/-- The loop of the functions for the binary operators. -/
def procBinaryRest (l : Level) (left : Tree) : Parse Tree := do
  let token ← nextToken
  match l.operator token with
  | some type =>
    let right ← call l.operand
    if right = .nil then
      finshErrorSet .expectOperator
      call (.binaryRest l left)
    else
      let tree ← makeSysNode type left right
      call (.binaryRest l tree)
  | none =>
    finshTokenReplay
    return left

/-- `proc_inclusive_or_expr`. -/
def procInclusiveOrExpr : Parse Tree := procBinaryExpr call .inclusiveOr

/-- `proc_exclusive_or_expr`. -/
def procExclusiveOrExpr : Parse Tree := procBinaryExpr call .exclusiveOr

/-- `proc_and_expr`. -/
def procAndExpr : Parse Tree := procBinaryExpr call .and

/-- `proc_shift_expr`. -/
def procShiftExpr : Parse Tree := procBinaryExpr call .shift

/-- `proc_additive_expr`. -/
def procAdditiveExpr : Parse Tree := procBinaryExpr call .additive

/-- `proc_multiplicative_expr`. -/
def procMultiplicativeExpr : Parse Tree := procBinaryExpr call .multiplicative

/-- `proc_cast_expr`. Every parenthesis is taken for the beginning of a cast. -/
def procCastExpr : Parse Tree := do
  let token ← nextToken
  if token = .leftParen then
    let type ← procType
    matchToken .rightParen
    let cast ← call .castExpr
    if cast ≠ .nil then return cast.setDataType type.toNat
    else
      finshTokenReplay
      call .unaryExpr
  else
    finshTokenReplay
    call .unaryExpr

/-- The prefix operators that make a node with one child. -/
def unaryOperator : TokenType → Option NodeType
  | .inc => some .sysPreinc
  | .dec => some .sysPredec
  | .bitwise => some .sysBitwise
  | .mul => some .sysGetvalue
  | .and => some .sysGetaddr
  | _ => none

/-- `proc_unary_expr`. -/
def procUnaryExpr : Parse Tree := do
  let token ← nextToken
  match unaryOperator token with
  | some type =>
    let cast ← call .castExpr
    makeSysNode type cast .nil
  | none =>
    if token = .add then call .castExpr
    else if token = .sub then
      let cast ← call .castExpr
      let zero ← finshNodeNewLong 0
      makeSysNode .sysSub zero cast
    else
      finshTokenReplay
      call .postfixExpr

/-- The postfix operators that make a node with one child. -/
def postfixOperator : TokenType → Option NodeType
  | .inc => some .sysInc
  | .dec => some .sysDec
  | _ => none

/-- The parameters of a call, behind the parenthesis. -/
def procParams : Parse Tree := do
  let token ← nextToken
  if token ≠ .rightParen then
    finshTokenReplay
    let params ← call .paramList
    matchToken .rightParen
    return params
  else return .nil

/-- `proc_postfix_expr` up to its loop. -/
def procPostfixExpr : Parse Tree := do
  let tree ← call .primaryExpr
  call (.postfixRest tree)

/-- The loop of `proc_postfix_expr`. -/
def procPostfixRest (tree : Tree) : Parse Tree := do
  let token ← nextToken
  match postfixOperator token with
  | some type =>
    let tree ← makeSysNode type tree .nil
    call (.postfixRest tree)
  | none =>
    if token = .leftParen then
      let params ← procParams call
      let tree ← makeSysNode .sysFunc tree params
      call (.postfixRest tree)
    else
      finshTokenReplay
      return tree

/-- `proc_primary_expr`. -/
def procPrimaryExpr : Parse Tree := do
  let type ← nextToken
  let token ← getToken
  match type with
  | .identifier =>
    finshTokenReplay
    let id ← procIdentifier
    finshNodeNewId id
  | .leftParen =>
    let expr ← call .assignExpr
    matchToken .rightParen
    return expr
  | .valueInt => finshNodeNewInt token.value
  | .valueLong => finshNodeNewLong token.value
  | .valueChar => finshNodeNewChar token.value
  | .valueString => finshNodeNewString token.string
  | .valueNull => finshNodeNewPtr 0
  | _ =>
    finshErrorSet .invalidToken
    return .nil

/-- `proc_param_list` up to its loop. -/
def procParamList : Parse Tree := do
  let assign ← call .assignExpr
  if assign = .nil then return .nil else call (.paramRest assign)

/-- The loop of `proc_param_list`. -/
def procParamRest (params : Tree) : Parse Tree := do
  let token ← nextToken
  if token = .comma then
    let assign ← call .assignExpr
    if assign ≠ .nil then call (.paramRest (params.append assign))
    else
      finshErrorSet .expectOperator
      call (.paramRest params)
  else
    finshTokenReplay
    return params

/-- Each function and each loop, with the calls it makes. -/
def procExpr : Nt → Parse Tree
  | .assignExpr => procAssignExpr call
  | .binaryExpr .inclusiveOr => procInclusiveOrExpr call
  | .binaryExpr .exclusiveOr => procExclusiveOrExpr call
  | .binaryExpr .and => procAndExpr call
  | .binaryExpr .shift => procShiftExpr call
  | .binaryExpr .additive => procAdditiveExpr call
  | .binaryExpr .multiplicative => procMultiplicativeExpr call
  | .binaryRest l left => procBinaryRest call l left
  | .castExpr => procCastExpr call
  | .unaryExpr => procUnaryExpr call
  | .postfixExpr => procPostfixExpr call
  | .postfixRest tree => procPostfixRest call tree
  | .primaryExpr => procPrimaryExpr call
  | .paramList => procParamList call
  | .paramRest params => procParamRest call params

end Calls

/-- The functions for expressions, with calls nested up to a depth. -/
def parse : ℕ → Nt → Parse Tree := unroll Fault.fuel procExpr

/-! ## Statements -/

section Statements

variable (fuel : ℕ)

/-- `proc_expr_statement`. -/
def procExprStatement : Parse Tree := do
  let token ← nextToken
  if token ≠ .semicolon then
    finshTokenReplay
    let expr ← parse fuel .assignExpr
    matchToken .semicolon
    return expr
  else return .nil

/-- The call of `finsh_var_insert`, and the error. -/
def insertVar (id : List Char) (type : FinshType) : Parse PUnit := fun p =>
  match finshVarInsert p.env.vars id type with
  | some vars => .ok (⟨⟩, { p with env := { p.env with vars := vars } })
  | none => .ok (⟨⟩, { p with errno := .variableExist })

/-- A variable of a declaration. -/
def declare (type : FinshType) : Parse (List Char) := do
  let id ← procIdentifier
  insertVar id type
  return id

/-- The local variables `node` and `end` of `proc_variable_decl`: the list from `node` on, and whether
`end` is a pointer to its last element, or `NULL`. -/
structure DeclList where
  node : Tree
  endNull : Bool

/-- The tree of an initialiser is put at the end of the list. -/
def DeclList.push (l : DeclList) (tree : Tree) : Parse DeclList :=
  if l.node ≠ .nil then
    if l.endNull then throw .wild else return ⟨l.node.append tree, tree = .nil⟩
  else return ⟨tree, false⟩

/-- The right side of an initialiser: the list, and the token behind it. -/
def initialiser (id : List Char) (l : DeclList) : Parse (DeclList × TokenType) := do
  let assign ← parse fuel .assignExpr
  if assign ≠ .nil then
    let idnode ← finshNodeNewId id
    let tree ← makeSysNode .sysAssign idnode assign
    let l ← l.push tree
    let token ← nextToken
    return (l, token)
  else return (l, .assign)

/-- The loop over the declarators, as long as there are commas: the list, and the token behind. -/
def declarators (type : FinshType) : ℕ → DeclList × TokenType → Parse (DeclList × TokenType)
  | 0, _ => throw .fuel
  | n + 1, (l, token) =>
    if token = .comma then do
      let id ← declare type
      let token ← nextToken
      if token = .assign then
        let next ← initialiser fuel id l
        declarators type n next
      else declarators type n (l, token)
    else return (l, token)

/-- The declarators from the one behind the first on, and the semicolon. -/
def declEnd (type : FinshType) (first : DeclList × TokenType) : Parse Tree := do
  let (l, token) ← declarators fuel type fuel first
  checkToken token .semicolon
  return l.node

/-- `proc_variable_decl`. The case of a comma begins with a round of the loop. -/
def procVariableDecl : Parse Tree := do
  let type ← procType
  let id ← declare type
  let token ← nextToken
  match token with
  | .comma => declEnd fuel type (⟨.nil, false⟩, .comma)
  | .assign =>
    let first ← initialiser fuel id ⟨.nil, false⟩
    declEnd fuel type first
  | .semicolon => return .nil
  | _ =>
    finshErrorSet .expectType
    return .nil

/-- The local variables of `finsh_parser_run`: the root, and `node` as an index into its siblings. -/
structure Roots where
  root : Tree
  node : ℕ

/-- What `finsh_parser_run` does with the tree of a statement. -/
def Roots.attach (r : Roots) (tree : Tree) : Roots :=
  if r.root ≠ .nil then
    ⟨r.root.setSiblingAt r.node tree, if tree ≠ .nil then r.node + 1 else r.node⟩
  else ⟨tree, 0⟩

/-- A statement of `finsh_parser_run` that starts with this token. Behind an empty statement, unless
it is the first one, another token is read. -/
def statement (token : TokenType) (r : Roots) : Parse Roots :=
  if token = .identifier then do
    let tree ← procExprStatement fuel
    return r.attach tree
  else if (baseType token).isSome ∨ token = .unsigned then do
    let tree ← procVariableDecl fuel
    return r.attach tree
  else do
    let tree ← procExprStatement fuel
    if r.root ≠ .nil ∧ tree = .nil then
      let _ ← nextToken
      return r.attach tree
    else return r.attach tree

/-- The loop of `finsh_parser_run` over the statements of a line. -/
def statements : ℕ → TokenType → Roots → Parse Tree
  | 0, _, _ => throw .fuel
  | n + 1, token, r =>
    if token = .eof ∨ token = .bad then return r.root
    else do
      finshTokenReplay
      let r ← statement fuel token r
      if r.root = .nil then return .nil
      else
        let token ← nextToken
        statements n token r

/-- `finsh_parser_run` with a parser whose root is `NULL`: the root. -/
def finshParserRun (line : Cstring) : Parse Tree := do
  modify fun p => { p with token := finshTokenInit line }
  let token ← nextToken
  statements fuel fuel token ⟨.nil, 0⟩

end Statements

/-- The state of the parser at the start of a line. -/
def Parser.flushed (env : Env) (token : Token) : Parser :=
  { token := token, env := env, nodes := 0, errno := .ok, literals := [], calls := [] }

/-- The root, and the parser behind, that `finsh_parser_run` leaves of a line. -/
def parseLine (fuel : ℕ) (env : Env) (line : Cstring) : Except Fault (Tree × Parser) :=
  finshParserRun fuel line (Parser.flushed env (finshTokenInit line))

end RtThread.Finsh
