import RtThread.Finsh.Parser
import RtThread.Lib.Run

/-!
# What every function of the parser keeps

Two facts hold of all functions of the parser. An error that is set stays set, if perhaps as another
one. The table of nodes does not overflow, and the nodes of a tree that is returned have been taken
from it, except for those of the trees that the function was given (`Tidy`).
-/

namespace RtThread.Finsh

open Lib Nat

/-! ## Errors of the lexer -/

namespace Token

theorem closingQuote_error (ch : Char) (t : Token) : (t.closingQuote ch).2.2 ≠ some .ok := by
  unfold closingQuote
  dsimp only
  split_ifs <;> simp

variable {t t' : Token} {error : Option FinshError}

theorem tokenProcChar_error {ch : Char}
    (h : t.tokenProcChar = .ok (ch, t', error)) : error ≠ some .ok := by
  unfold tokenProcChar at h
  dsimp only at h
  split_ifs at h
  · obtain ⟨⟨ch', t''⟩, -, h⟩ := of_bind_ok h
    have herror := closingQuote_error ch' t''
    rwa [Except.ok.inj h] at herror
  · have herror := closingQuote_error t.tokenNextChar.1 t.tokenNextChar.2
    rwa [Except.ok.inj h] at herror

theorem procStringLoop_error (n : ℕ) (stored : List Char) (t : Token) :
    (t.procStringLoop n stored).2 ≠ some .ok := by
  induction n generalizing stored t with
  | zero => simp [procStringLoop]
  | succ n ih =>
    rw [procStringLoop]
    dsimp only
    split_ifs
    · simp
    · exact ih _ _
    · simp
    · exact ih _ _

theorem single_error {type : TokenType}
    (h : t.single type = .ok (t', error)) : error ≠ some .ok := by
  cases h
  simp

theorem double_error {second : Char} {both one : TokenType}
    (h : t.double second both one = .ok (t', error)) : error ≠ some .ok := by
  unfold double at h
  dsimp only at h
  split_ifs at h
  · exact single_error h
  · exact single_error h

theorem tokenOperator_error (h : t.tokenOperator = .ok (t', error)) : error ≠ some .ok := by
  unfold tokenOperator at h
  dsimp only at h
  split at h
  case h_17 =>
    obtain ⟨⟨ch, t'', error'⟩, hchar, h⟩ := of_bind_ok h
    cases h
    exact tokenProcChar_error hchar
  case h_18 =>
    cases h
    exact procStringLoop_error _ _ _
  case h_19 =>
    split_ifs at h
    · obtain ⟨t'', -, h⟩ := of_bind_ok h
      cases h
      simp
    · cases h
      simp
  all_goals first
    | exact single_error h
    | exact double_error h

theorem finshTokenToken_error (h : t.finshTokenToken = .ok (t', error)) : error ≠ some .ok := by
  unfold finshTokenToken at h
  split_ifs at h
  · cases h
    simp
  · obtain ⟨t'', -, h⟩ := of_bind_ok h
    split_ifs at h
    · cases h
      simp
    · cases h
      simp
    · exact tokenOperator_error h

end Token

/-! ## Errors and nodes -/

/-- An error stays set, and the table of nodes does not overflow. -/
structure Parser.Grows (p p' : Parser) : Prop where
  errno : p.errno ≠ .ok → p'.errno ≠ .ok
  nodes : p.nodes ≤ FINSH_NODE_MAX → p'.nodes ≤ FINSH_NODE_MAX

theorem Parser.Grows.refl (p : Parser) : p.Grows p := ⟨id, id⟩

theorem Parser.Grows.trans (p p' p'' : Parser) (h : p.Grows p') (h' : p'.Grows p'') : p.Grows p'' :=
  ⟨h'.errno ∘ h.errno, h'.nodes ∘ h.nodes⟩

/-- An error stays set, and the weight of the result is paid with nodes that are taken from the table
and with the credit. -/
def Tidy {α : Type} (credit : ℕ) (w : α → ℕ) (x : Parse α) : Prop :=
  Accounted Parser.Grows Parser.nodes credit w x

/-- The nodes of the trees that a function is given. -/
def Nt.credit : Nt → ℕ
  | .binaryRest _ left => left.size
  | .postfixRest tree => tree.size
  | .paramRest params => params.size
  | _ => 0

theorem Tree.size_append (tree tree' : Tree) : (tree.append tree').size = tree.size + tree'.size := by
  induction tree with
  | nil => simp [append, size]
  | node n child sibling _ ih =>
    rw [append, size, ih, size]
    omega

theorem Tree.size_setSiblingAt (tree : Tree) (k : ℕ) (tree' : Tree) :
    (tree.setSiblingAt k tree').size ≤ tree.size + tree'.size := by
  induction tree generalizing k with
  | nil => exact zero_le _
  | node n child sibling _ ih =>
    cases k with
    | zero =>
      simp only [setSiblingAt, size]
      omega
    | succ k =>
      have hle := ih k
      simp only [setSiblingAt, size]
      omega

theorem Roots.size_attach (r : Roots) (tree : Tree) :
    (r.attach tree).root.size ≤ r.root.size + tree.size := by
  unfold attach
  split_ifs
  · exact Tree.size_setSiblingAt _ _ _
  · exact Tree.size_setSiblingAt _ _ _
  · exact le_add_left _ _

/-- A result that takes no node. -/
def free {α : Type} : α → ℕ := fun _ => 0

namespace Tidy

variable {α β : Type} {c c' : ℕ} {w : α → ℕ} {w' : β → ℕ} {x : Parse α} {f : α → Parse β}

theorem pure {a : α} (ha : w a ≤ c) : Tidy c w (Pure.pure a) :=
  Accounted.pure Parser.Grows.refl ha

theorem bind (hx : Tidy 0 w x) (hf : ∀ a, Tidy (c + w a) w' (f a)) : Tidy c w' (x >>= f) :=
  Accounted.bind Parser.Grows.trans hx hf

theorem chainWith (d : ℕ) (hx : Tidy c w x) (hf : ∀ a, Tidy (d + w a) w' (f a)) :
    Tidy (d + c) w' (x >>= f) :=
  Accounted.bind Parser.Grows.trans hx hf

theorem chain (hx : Tidy c w x) (hf : ∀ a, Tidy (w a) w' (f a)) : Tidy c w' (x >>= f) :=
  (chainWith 0 hx fun a => (hf a).mono (zero_add _).ge).mono (zero_add _).le

theorem seq (hx : Tidy 0 free x) (hf : ∀ a, Tidy c w' (f a)) : Tidy c w' (x >>= f) := hx.bind hf

theorem mono (h : Tidy c w x) (hle : c ≤ c') : Tidy c' w x := Accounted.mono h hle

theorem throw (e : Fault) : Tidy c w (throw e : Parse α) := Accounted.throw e

theorem modify {g : Parser → Parser} (herrno : ∀ p, (g p).errno = p.errno)
    (hnodes : ∀ p, (g p).nodes = p.nodes) : Tidy 0 free (modify g : Parse PUnit) :=
  Accounted.modify fun p => ⟨⟨fun h => by rwa [herrno], fun h => by rwa [hnodes]⟩, by simp [hnodes, free]⟩

theorem finshErrorSet {e : FinshError} (he : e ≠ .ok) : Tidy 0 free (finshErrorSet e) :=
  Accounted.modify fun _ => ⟨⟨fun _ => he, id⟩, le_rfl⟩

theorem nextToken : Tidy 0 free nextToken := by
  intro p token p' h
  unfold Finsh.nextToken at h
  split at h
  · cases h
  · next t error ht =>
    cases h
    refine ⟨⟨fun herrno => ?_, id⟩, le_rfl⟩
    have herror := Token.finshTokenToken_error ht
    cases error with
    | none => exact herrno
    | some e => exact fun he => herror (congrArg some he)

theorem finshTokenReplay : Tidy 0 free finshTokenReplay := modify (fun _ => rfl) fun _ => rfl

theorem getToken : Tidy 0 free getToken := by
  intro p token p' h
  cases h
  exact ⟨Parser.Grows.refl p, le_rfl⟩

theorem checkToken (token type : TokenType) : Tidy 0 free (checkToken token type) := by
  unfold Finsh.checkToken
  split_ifs
  · exact (finshErrorSet (by simp)).seq fun _ => finshTokenReplay
  · exact pure le_rfl

theorem matchToken (type : TokenType) : Tidy 0 free (matchToken type) :=
  nextToken.seq fun token => checkToken token type

/-! ### Types and identifiers -/

theorem procPointer (type : FinshType) : Tidy 0 free (procPointer type) := by
  refine nextToken.seq fun token => ?_
  split_ifs
  · exact pure le_rfl
  · exact finshTokenReplay.seq fun _ => pure le_rfl

theorem noType : Tidy 0 free noType :=
  finshTokenReplay.seq fun _ => (finshErrorSet (by simp)).seq fun _ => pure le_rfl

theorem procType : Tidy 0 free procType := by
  refine nextToken.seq fun token => ?_
  split
  · exact procPointer _
  · split_ifs
    · refine nextToken.seq fun token => ?_
      split_ifs
      · split
        · exact procPointer _
        · exact noType
      · exact finshTokenReplay.seq fun _ => (finshErrorSet (by simp)).seq fun _ => procPointer _
    · exact noType

theorem procIdentifier : Tidy 0 free procIdentifier :=
  (matchToken _).seq fun _ => getToken.seq fun _ => pure le_rfl

/-! ### Nodes -/

theorem finshNodeAllocate {f : Bool → Parse β} (htrue : Tidy (c + 1) w' (f true))
    (hfalse : Tidy c w' (f false)) : Tidy c w' (finshNodeAllocate >>= f) := by
  intro p a p' h
  obtain ⟨found, p₁, hfound, h⟩ := bind_ok_iff.mp h
  unfold Finsh.finshNodeAllocate at hfound
  split_ifs at hfound with hlt
  · cases hfound
    obtain ⟨hgrows, hle⟩ := htrue h
    refine ⟨⟨hgrows.errno, fun _ => hgrows.nodes hlt⟩, ?_⟩
    dsimp only at hle
    omega
  · cases hfound
    exact hfalse h

theorem noNode {e : FinshError} (he : e ≠ .ok) :
    Tidy c Tree.size (do Finsh.finshErrorSet e; return Tree.nil) :=
  (finshErrorSet he).seq fun _ => pure (zero_le _)

theorem finshNodeNewValue (type : NodeType) (value : BitVec 32) :
    Tidy 0 Tree.size (finshNodeNewValue type value) :=
  finshNodeAllocate (pure (by simp [Tree.size])) (noNode (by simp))

theorem newText (s : List Char) : Tidy 0 free (newText s) := by
  intro p ptr p' h
  unfold Finsh.newText at h
  dsimp only at h
  split at h
  · cases h
  · split_ifs at h
    cases h
    exact ⟨⟨id, id⟩, le_rfl⟩

theorem finshNodeNewString (string : List Char) : Tidy 0 Tree.size (finshNodeNewString string) := by
  refine finshNodeAllocate ?_ (noNode (by simp))
  rw [if_pos rfl]
  split_ifs
  · exact throw _
  · exact (newText _).seq fun ptr => pure (by simp [Tree.size])

theorem findSymbol (id : List Char) : Tidy 0 free (findSymbol id) := by
  intro p ref p' h
  unfold Finsh.findSymbol at h
  split at h
  · cases h
  · cases h
    exact ⟨Parser.Grows.refl p, le_rfl⟩

theorem finshNodeNewId (id : List Char) : Tidy 0 Tree.size (finshNodeNewId id) := by
  refine (findSymbol id).seq fun ref => ?_
  split_ifs
  · exact noNode (by simp)
  · exact finshNodeAllocate (pure (by simp [Tree.size])) (noNode (by simp))

theorem makeSysNode (type : NodeType) (node1 node2 : Tree) :
    Tidy (node1.size + node2.size) Tree.size (makeSysNode type node1 node2) := by
  refine finshNodeAllocate ?_ (noNode (by simp))
  rw [if_pos rfl]
  cases node1 with
  | nil => exact (finshErrorSet (by simp)).seq fun _ => pure (by simp [Tree.size])
  | node n child sibling =>
    refine pure ?_
    simp only [Tree.size]
    omega

/-! ### Expressions -/

section Calls

variable {call : Nt → Parse Tree} (hcall : ∀ nt, Tidy nt.credit Tree.size (call nt))
include hcall

theorem procAssignExpr : Tidy 0 Tree.size (procAssignExpr call) := by
  refine (hcall (.binaryExpr .inclusiveOr)).bind fun or => nextToken.seq fun token => ?_
  split_ifs
  · refine (hcall .assignExpr).bind fun assign => (makeSysNode _ _ _).mono ?_
    omega
  · exact finshTokenReplay.seq fun _ => pure (by omega)

theorem operand (l : Level) : Tidy 0 Tree.size (call l.operand) := by
  cases l <;> exact hcall _

theorem procBinaryExpr (l : Level) : Tidy 0 Tree.size (procBinaryExpr call l) :=
  (operand hcall l).chain fun left => hcall (.binaryRest l left)

theorem procBinaryRest (l : Level) (left : Tree) :
    Tidy left.size Tree.size (procBinaryRest call l left) := by
  refine nextToken.seq fun token => ?_
  split
  · refine (operand hcall l).bind fun right => ?_
    split_ifs
    · exact (finshErrorSet (by simp)).seq fun _ =>
        (hcall (.binaryRest l left)).mono (le_add_right _ _)
    · exact (makeSysNode _ _ _).chain fun tree => hcall (.binaryRest l tree)
  · exact finshTokenReplay.seq fun _ => pure le_rfl

theorem procCastExpr : Tidy 0 Tree.size (procCastExpr call) := by
  have hunary : Tidy 0 Tree.size (do Finsh.finshTokenReplay; call .unaryExpr) :=
    finshTokenReplay.seq fun _ => hcall .unaryExpr
  refine nextToken.seq fun token => ?_
  split_ifs
  · refine procType.seq fun type => (matchToken _).seq fun _ => (hcall .castExpr).bind fun cast => ?_
    split_ifs
    · refine pure ?_
      cases cast <;> simp [Tree.setDataType, Tree.size]
    · exact hunary.mono (zero_le _)
  · exact hunary

theorem procUnaryExpr : Tidy 0 Tree.size (procUnaryExpr call) := by
  refine nextToken.seq fun token => ?_
  split
  · exact (hcall .castExpr).chain fun cast => (makeSysNode _ _ _).mono (add_zero _).le
  · split_ifs
    · exact hcall .castExpr
    · refine (hcall .castExpr).chain fun cast => (finshNodeNewValue _ _).bind fun zero => ?_
      exact (makeSysNode _ _ _).mono (add_comm _ _).le
    · exact finshTokenReplay.seq fun _ => hcall .postfixExpr

theorem procParams : Tidy 0 Tree.size (procParams call) := by
  refine nextToken.seq fun token => ?_
  split_ifs
  · exact finshTokenReplay.seq fun _ => (hcall .paramList).chain fun params =>
      (matchToken _).seq fun _ => pure le_rfl
  · exact pure le_rfl

theorem procPostfixExpr : Tidy 0 Tree.size (procPostfixExpr call) :=
  (hcall .primaryExpr).chain fun tree => hcall (.postfixRest tree)

theorem procPostfixRest (tree : Tree) : Tidy tree.size Tree.size (procPostfixRest call tree) := by
  refine nextToken.seq fun token => ?_
  split
  · exact (makeSysNode _ _ _).chain fun tree => hcall (.postfixRest tree)
  · split_ifs
    · exact (procParams hcall).bind fun params =>
        (makeSysNode _ _ _).chain fun tree => hcall (.postfixRest tree)
    · exact finshTokenReplay.seq fun _ => pure le_rfl

theorem procPrimaryExpr : Tidy 0 Tree.size (procPrimaryExpr call) := by
  refine nextToken.seq fun type => getToken.seq fun token => ?_
  split
  · exact finshTokenReplay.seq fun _ => procIdentifier.seq fun id => finshNodeNewId id
  · exact (hcall .assignExpr).chain fun expr => (matchToken _).seq fun _ => pure le_rfl
  · exact finshNodeNewValue _ _
  · exact finshNodeNewValue _ _
  · exact finshNodeNewValue _ _
  · exact finshNodeNewString _
  · exact finshNodeNewValue _ _
  · exact (finshErrorSet (by simp)).seq fun _ => pure le_rfl

theorem procParamList : Tidy 0 Tree.size (procParamList call) := by
  refine (hcall .assignExpr).chain fun assign => ?_
  split_ifs
  · exact pure (zero_le _)
  · exact hcall (.paramRest assign)

theorem procParamRest (params : Tree) : Tidy params.size Tree.size (procParamRest call params) := by
  refine nextToken.seq fun token => ?_
  split_ifs
  · refine (hcall .assignExpr).bind fun assign => ?_
    split_ifs
    · refine (hcall (.paramRest (params.append assign))).mono ?_
      exact (Tree.size_append params assign).le
    · exact (finshErrorSet (by simp)).seq fun _ =>
        (hcall (.paramRest params)).mono (le_add_right _ _)
  · exact finshTokenReplay.seq fun _ => pure le_rfl

theorem procExpr (nt : Nt) : Tidy nt.credit Tree.size (procExpr call nt) := by
  cases nt with
  | assignExpr => exact procAssignExpr hcall
  | binaryExpr l => cases l <;> exact procBinaryExpr hcall _
  | binaryRest l left => exact procBinaryRest hcall l left
  | castExpr => exact procCastExpr hcall
  | unaryExpr => exact procUnaryExpr hcall
  | postfixExpr => exact procPostfixExpr hcall
  | postfixRest tree => exact procPostfixRest hcall tree
  | primaryExpr => exact procPrimaryExpr hcall
  | paramList => exact procParamList hcall
  | paramRest params => exact procParamRest hcall params

end Calls

theorem parse (n : ℕ) (nt : Nt) : Tidy nt.credit Tree.size (parse n nt) :=
  Accounted.unroll (fun _ hcall => procExpr hcall) n nt

/-! ### Statements -/

section Statements

variable (fuel : ℕ)

theorem procExprStatement : Tidy 0 Tree.size (procExprStatement fuel) := by
  refine nextToken.seq fun token => ?_
  split_ifs
  · exact finshTokenReplay.seq fun _ => (parse fuel .assignExpr).chain fun expr =>
      (matchToken _).seq fun _ => pure le_rfl
  · exact pure le_rfl

theorem insertVar (id : List Char) (type : FinshType) : Tidy 0 free (insertVar id type) := by
  intro p _ p' h
  unfold Finsh.insertVar at h
  split at h
  · cases h
    exact ⟨⟨fun h => h, fun h => h⟩, le_rfl⟩
  · cases h
    exact ⟨⟨fun _ => by simp, fun h => h⟩, le_rfl⟩

variable (type : FinshType)

theorem declare : Tidy 0 free (declare type) :=
  procIdentifier.seq fun id => (insertVar id type).seq fun _ => pure le_rfl

theorem push (l : DeclList) (tree : Tree) :
    Tidy (l.node.size + tree.size) (fun l => l.node.size) (l.push tree) := by
  unfold DeclList.push
  split_ifs
  · exact throw _
  · exact pure (Tree.size_append _ _).le
  · exact pure (le_add_left _ _)

theorem initialiser (id : List Char) (l : DeclList) :
    Tidy l.node.size (fun next => next.1.node.size) (initialiser fuel id l) := by
  refine (parse fuel .assignExpr).bind fun assign => ?_
  split_ifs
  · refine (finshNodeNewId id).bind fun idnode => ?_
    refine (chainWith l.node.size (makeSysNode _ _ _) fun tree => ?_).mono
      (c := l.node.size + (idnode.size + assign.size)) (by omega)
    exact (push l tree).chain fun l => nextToken.seq fun token => pure le_rfl
  · exact pure (le_add_right _ _)

theorem declarators (n : ℕ) (next : DeclList × TokenType) :
    Tidy next.1.node.size (fun next => next.1.node.size) (declarators fuel type n next) := by
  induction n generalizing next with
  | zero => exact throw _
  | succ n ih =>
    obtain ⟨l, token⟩ := next
    rw [Finsh.declarators]
    split_ifs
    · refine (declare type).seq fun id => nextToken.seq fun token => ?_
      split_ifs
      · exact (initialiser fuel id l).chain ih
      · exact ih (l, token)
    · exact pure le_rfl

theorem declEnd (first : DeclList × TokenType) :
    Tidy first.1.node.size Tree.size (declEnd fuel type first) :=
  (declarators fuel type fuel first).chain fun _ => (checkToken _ _).seq fun _ => pure le_rfl

theorem procVariableDecl : Tidy 0 Tree.size (procVariableDecl fuel) := by
  refine procType.seq fun type => (declare type).seq fun id => nextToken.seq fun token => ?_
  split
  · exact declEnd fuel type (⟨.nil, false⟩, .comma)
  · exact (initialiser fuel id ⟨.nil, false⟩).chain fun first => declEnd fuel type first
  · exact pure le_rfl
  · exact (finshErrorSet (by simp)).seq fun _ => pure le_rfl

theorem statement (token : TokenType) (r : Roots) :
    Tidy r.root.size (fun r => r.root.size) (statement fuel token r) := by
  have hattach : ∀ tree, Tidy (r.root.size + tree.size) (fun r : Roots => r.root.size)
      (Pure.pure (r.attach tree) : Parse Roots) := fun tree => pure (r.size_attach tree)
  unfold Finsh.statement
  split_ifs
  · exact (procExprStatement fuel).bind hattach
  · exact (procVariableDecl fuel).bind hattach
  · refine (procExprStatement fuel).bind fun tree => ?_
    split_ifs
    · exact nextToken.seq fun _ => hattach tree
    · exact hattach tree

theorem statements (n : ℕ) (token : TokenType) (r : Roots) :
    Tidy r.root.size Tree.size (statements fuel n token r) := by
  induction n generalizing token r with
  | zero => exact throw _
  | succ n ih =>
    rw [Finsh.statements]
    split_ifs
    · exact pure le_rfl
    · refine finshTokenReplay.seq fun _ => (statement fuel token r).chain fun r => ?_
      split_ifs
      · exact pure (zero_le _)
      · exact nextToken.seq fun token => ih token r

theorem finshParserRun (line : Cstring) : Tidy 0 Tree.size (finshParserRun fuel line) := by
  refine Tidy.seq ?_ fun _ => nextToken.seq fun token => statements fuel fuel token ⟨.nil, 0⟩
  exact modify (fun _ => rfl) fun _ => rfl

end Statements

end Tidy

theorem size_parseLine {fuel : ℕ} {env : Env} {line : Cstring} {root : Tree} {p : Parser}
    (h : parseLine fuel env line = .ok (root, p)) : root.size ≤ FINSH_NODE_MAX := by
  obtain ⟨hgrows, hsize⟩ := Tidy.finshParserRun fuel line h
  have hnodes := hgrows.nodes (zero_le _)
  omega

end RtThread.Finsh
