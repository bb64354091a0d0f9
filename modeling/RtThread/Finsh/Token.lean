import RtThread.Kernel.Model
import RtThread.Lib.Cstring

/-!
# The lexer of the shell

The model of `components/finsh/finsh_token.c`. `token_run` skips blanks, tries an identifier or a
keyword, and else reads an operator, a literal or an unknown character. It sets at most one error, which
it returns beside the new state of the lexer. The array `string` is kept with what earlier tokens have
left in it. The arrays `string` and `buf` are written without a check of their length; a text that does
not fit is the fault `wild`.
-/

namespace RtThread.Finsh

open Lib

/-- The characters of an identifier. -/
def FINSH_NAME_MAX : ℕ := 16
/-- The characters of a string literal. -/
def FINSH_STRING_MAX : ℕ := 128

/-- The errors `FINSH_ERROR_OK` to `FINSH_ERROR_NULL_NODE`. -/
inductive FinshError
  | ok
  | invalidToken
  | expectType
  | unknownType
  | variableExist
  | expectOperator
  | memoryFull
  | unknownOp
  | unknownNode
  | expectChar
  | unexpectEnd
  | unknownToken
  | noFloat
  | unknownSymbol
  | nullNode
  deriving DecidableEq

/-- `enum finsh_token_type`. -/
inductive TokenType
  | leftParen
  | rightParen
  | comma
  | semicolon
  | mul
  | add
  | inc
  | sub
  | dec
  | div
  | mod
  | assign
  | and
  | or
  | xor
  | bitwise
  | shl
  | shr
  | comments
  | void
  | char
  | short
  | int
  | long
  | unsigned
  | valueChar
  | valueInt
  | valueLong
  | valueString
  | valueNull
  | identifier
  | bad
  | eof
  deriving DecidableEq

/-! ## Characters -/

variable (ch : Char)

/-- `is_alpha`. -/
def isAlpha : Bool := 97 ≤ (ch.toNat ||| 0x20) && (ch.toNat ||| 0x20) - 97 < 26

/-- `is_digit`. -/
def isDigit : Bool := '0' ≤ ch && ch ≤ '9'

/-- The digits of an octal number. -/
def isOctal : Bool := '0' ≤ ch && ch ≤ '7'

/-- `is_xdigit`. -/
def isXdigit : Bool :=
  isDigit ch || (97 ≤ (ch.toNat ||| 0x20) && (ch.toNat ||| 0x20) - 97 < 6)

/-- `is_separator`: a character that ends a word. -/
def isSeparator : Bool :=
  !(('a' ≤ ch && ch ≤ 'z') || ('A' ≤ ch && ch ≤ 'Z') || ('0' ≤ ch && ch ≤ '9') || ch == '_')

/-- The character that a `char` holds after the assignment of a number. -/
def charOf (n : ℕ) : Char := Char.ofNat (n % 256)

/-- `finsh_name_table`: the keywords. -/
def finshNameTable : List (List Char × TokenType) :=
  [("void".toList, .void), ("char".toList, .char), ("short".toList, .short), ("int".toList, .int),
    ("long".toList, .long), ("unsigned".toList, .unsigned), ("NULL".toList, .valueNull),
    ("null".toList, .valueNull)]

/-! ## The state of the lexer -/

/-- `struct finsh_token`. -/
structure Token where
  eof : Bool
  replay : Bool
  position : ℕ
  currentToken : TokenType
  /-- The union `value`. -/
  value : BitVec 32
  /-- The array `string`, with zeros behind. -/
  string : List Char
  line : Cstring

/-- The array after characters have been written from its beginning. -/
def overwrite (old new : List Char) : List Char := new ++ old.drop new.length

/-- The string that an array begins with. -/
def textOf (array : List Char) : List Char := array.takeWhile (· ≠ '\x00')

/-- `finsh_token_init`. No token is read from `current_token` before one is stored there. -/
def finshTokenInit (line : Cstring) : Token :=
  { eof := false, replay := false, position := 0, currentToken := .eof, value := 0, string := [],
    line := line }

namespace Token

variable (t : Token)

/-- `token_next_char`. -/
def tokenNextChar : Char × Token :=
  let ch := t.line.chars.getD t.position '\x00'
  if t.eof then ('\x00', t)
  else if t.position = t.line.chars.length ∨ ch = '\n' then
    ('\x00', { t with eof := true, position := 0 })
  else (ch, { t with position := t.position + 1 })

/-- `token_prev_char`. -/
def tokenPrevChar : Token :=
  if t.eof then t else { t with position := t.position - 1 }

/-- The loop `while (p(ch)) { …; ch = token_next_char(self); }`: the characters that pass, the one
that does not, and the lexer behind it. -/
def scanLoop (p : Char → Bool) : ℕ → Char → Token → List Char × Char × Token
  | 0, ch, t => ([], ch, t)
  | n + 1, ch, t =>
    if p ch then
      let (passed, last, t') := scanLoop p n t.tokenNextChar.1 t.tokenNextChar.2
      (ch :: passed, last, t')
    else ([], ch, t)

/-- The loop with as many rounds as the line can give characters. No loop passes the zero that
`token_next_char` returns at the end of the line. -/
def scan (p : Char → Bool) (ch : Char) (t : Token) : List Char × Char × Token :=
  t.scanLoop p (t.line.chars.length + 1) ch

/-- `token_trim_space`. -/
def tokenTrimSpace : Token :=
  let (ch, t) := t.tokenNextChar
  let (_, _, t) := t.scan (fun ch => ch == ' ' || ch == '\t' || ch == '\r') ch
  t.tokenPrevChar

/-- `token_get_string` with the array `string`. -/
def tokenGetString : Except Fault Token :=
  let (ch, t) := t.tokenNextChar
  if t.eof then .ok t
  else
    let t := { t with string := overwrite t.string ['\x00'] }
    if isDigit ch then .ok t.tokenPrevChar
    else
      let (passed, _, t) := t.scan (fun ch => !isSeparator ch) ch
      if FINSH_STRING_MAX ≤ passed.length then .error .wild
      else
        -- The end of the line is forgotten again, and with it the position.
        let t := { t with eof := false }.tokenPrevChar
        .ok { t with string := overwrite t.string (passed ++ ['\x00']) }

/-- `token_match_name`: the keyword with this name. -/
def tokenMatchName (str : List Char) : Option TokenType :=
  (finshNameTable.find? fun e => strcmp e.1 str = 0).map Prod.snd

/-- The escapes of `token_proc_char`. The digits of an octal escape are stored in `buf` and never
read: `atoi` gets the end of what was stored. -/
def charEscape : Except Fault (Char × Token) :=
  let (ch, t) := t.tokenNextChar
  match ch with
  | 'n' => .ok ('\n', t)
  | 't' => .ok ('\t', t)
  | 'v' => .ok ('\x0b', t)
  | 'b' => .ok ('\x08', t)
  | 'r' => .ok ('\r', t)
  | '\\' => .ok ('\\', t)
  | '\'' => .ok ('\'', t)
  | ch =>
    let (passed, _, t) := t.scan isDigit ch
    if 4 ≤ passed.length then .error .wild else .ok ('\x00', t.tokenPrevChar)

/-- The end of `token_proc_char`: the closing quote. -/
def closingQuote (t : Token) : Char × Token × Option FinshError :=
  let (quote, t) := t.tokenNextChar
  if quote ≠ '\'' then (ch, t.tokenPrevChar, some .expectChar) else (ch, t, none)

/-- `token_proc_char`: the character, the lexer, and the error. -/
def tokenProcChar : Except Fault (Char × Token × Option FinshError) :=
  let (ch, t) := t.tokenNextChar
  if ch = '\\' then do
    let (ch, t) ← t.charEscape
    return t.closingQuote ch
  else .ok (t.closingQuote ch)

/-- The number that the digits of a hexadecimal escape give. -/
def hexValue (digits : List Char) : ℕ :=
  digits.foldl (fun result ch =>
    result * 16 + if ch < 'A' then ch.toNat - 48 else (ch.toNat ||| 0x20) - 97 + 10) 0

/-- The number that the digits of an octal escape give. -/
def octalValue (digits : List Char) : ℕ := digits.foldl (fun result ch => result * 8 + ch.toNat - 48) 0

/-- `token_proc_escape`: the character behind a backslash. -/
def tokenProcEscape : Char × Token :=
  let (ch, t) := t.tokenNextChar
  match ch with
  | 'n' => ('\n', t)
  | 't' => ('\t', t)
  | 'v' => ('\x0b', t)
  | 'b' => ('\x08', t)
  | 'r' => ('\r', t)
  | 'f' => ('\x0c', t)
  | 'a' => ('\x07', t)
  | '"' => ('"', t)
  | ch =>
    if ch = 'x' ∨ ch = 'X' then
      let (ch, t) := t.tokenNextChar
      let (passed, _, t) := t.scan isXdigit ch
      (charOf (hexValue passed), t.tokenPrevChar)
    else if isOctal ch then
      let (passed, _, t) := t.scan isOctal ch
      (charOf (octalValue passed), t.tokenPrevChar)
    else ('\x00', t)

/-- The loop of `token_proc_string`, which stores one character in each round: the lexer and the
error. The first argument counts the rounds left, the second one has the characters stored. -/
def procStringLoop : ℕ → List Char → Token → Token × Option FinshError
  | 0, stored, t => ({ t with string := overwrite t.string stored }, none)
  | n + 1, stored, t =>
    let (ch, t) := t.tokenNextChar
    if t.eof then ({ t with string := overwrite t.string stored }, some .unexpectEnd)
    else if ch = '\\' then
      let (ch, t) := t.tokenProcEscape
      procStringLoop n (stored ++ [ch]) t
    else if ch = '"' then ({ t with string := overwrite t.string (stored ++ ['\x00']) }, none)
    else procStringLoop n (stored ++ [ch]) t

/-- `token_proc_string`. -/
def tokenProcString : Token × Option FinshError := t.procStringLoop FINSH_STRING_MAX []

/-- `t` of a digit in `token_spec_number`. -/
def specDigit : ℕ :=
  if 'a' ≤ ch ∧ ch ≤ 'f' then ch.toNat - 97 + 10
  else if 'A' ≤ ch ∧ ch ≤ 'F' then ch.toNat - 65 + 10
  else ch.toNat - 48

/-- `token_spec_number` of digits of `shift` bits: the low word of the two words `bn`. -/
def tokenSpecNumber (string : List Char) (shift : ℕ) : BitVec 32 :=
  (string.foldl (fun (bn : BitVec 32 × BitVec 32) ch =>
    (bn.1 <<< shift ||| BitVec.ofNat 32 (specDigit ch), bn.2 <<< shift ||| bn.1 >>> (32 - shift)))
    (0, 0)).1

/-- The end of `token_proc_number`: the suffix. -/
def numberSuffix (t : Token) : Token :=
  if ch = 'l' ∨ ch = 'L' then { t with currentToken := .valueLong } else t.tokenPrevChar

/-- What `token_proc_number` does with the digits of a number that starts with a zero. -/
def specNumber (shift : ℕ) (digits : List Char × Char × Token) : Except Fault Token :=
  let (passed, ch, t) := digits
  if 128 ≤ passed.length then .error .wild
  else .ok ({ t with value := tokenSpecNumber passed shift, currentToken := .valueInt }.numberSuffix ch)

/-- `token_proc_number`: a number to the base 8, 10 or 16. -/
def tokenProcNumber : Except Fault Token :=
  let (ch, t) := t.tokenNextChar
  if ch = '0' then
    let (ch, t) := t.tokenNextChar
    if ch = 'x' ∨ ch = 'X' then
      let (ch, t) := t.tokenNextChar
      specNumber 4 (t.scan (fun ch => isDigit ch || isAlpha ch) ch)
    else if ch = 'b' ∨ ch = 'B' then
      let (ch, t) := t.tokenNextChar
      specNumber 1 (t.scan (fun ch => ch == '0' || ch == '1') ch)
    else if isOctal ch then specNumber 3 (t.scan isOctal ch)
    else
      let t := t.tokenPrevChar
      .ok { t with value := 0, currentToken := .valueInt }
  else
    let (passed, ch, t) := t.scan isDigit ch
    let value : BitVec 32 :=
      passed.foldl (fun value ch => value * 10 + BitVec.ofNat 32 (ch.toNat - 48)) 0
    .ok ({ t with value := value, currentToken := .valueInt }.numberSuffix ch)

/-- A token of one character. -/
def single (type : TokenType) (t : Token) : Except Fault (Token × Option FinshError) :=
  .ok ({ t with currentToken := type }, none)

/-- A token that the character `second` makes another one. -/
def double (second : Char) (both one : TokenType) (t : Token) :
    Except Fault (Token × Option FinshError) :=
  let (ch, t) := t.tokenNextChar
  if ch = second then t.single both else t.tokenPrevChar.single one

/-- The part of `token_run` for a token that is no name: the lexer and the error. -/
def tokenOperator : Except Fault (Token × Option FinshError) :=
  let (ch, t) := t.tokenNextChar
  match ch with
  | '(' => t.single .leftParen
  | ')' => t.single .rightParen
  | ',' => t.single .comma
  | ';' => t.single .semicolon
  | '&' => t.single .and
  | '*' => t.single .mul
  | '+' => t.double '+' .inc .add
  | '-' => t.double '-' .dec .sub
  -- A comment up to the end of the line.
  | '/' => t.double '/' .eof .div
  | '<' => t.double '<' .shl .bad
  | '>' => t.double '>' .shr .bad
  | '|' => t.single .or
  | '%' => t.single .mod
  | '~' => t.single .bitwise
  | '^' => t.single .xor
  | '=' => t.single .assign
  | '\'' => do
    let (ch, t, error) ← t.tokenProcChar
    -- Only the low byte of the union is written.
    let value := (t.value &&& 0xffffff00) ||| BitVec.ofNat 32 (ch.toNat % 256)
    return ({ t with value := value, currentToken := .valueChar }, error)
  | '"' =>
    let (t, error) := t.tokenProcString
    .ok ({ t with currentToken := .valueString }, error)
  | ch =>
    if isDigit ch then do
      let t ← t.tokenPrevChar.tokenProcNumber
      return (t, none)
    else .ok ({ t with currentToken := .bad }, some .unknownToken)

/-- `token_run`: the next token of the line. -/
def tokenRun : Except Fault (Token × Option FinshError) := do
  let t ← t.tokenTrimSpace.tokenGetString
  if t.eof then return ({ t with currentToken := .eof }, none)
  else if textOf t.string ≠ [] then
    return ({ t with currentToken := (tokenMatchName (textOf t.string)).getD .identifier }, none)
  else t.tokenOperator

/-- `finsh_token_token`: the lexer, whose current token is the one returned, and the error. -/
def finshTokenToken : Except Fault (Token × Option FinshError) :=
  if t.replay then .ok ({ t with replay := false }, none) else t.tokenRun

end Token

end RtThread.Finsh
