import RtThread.Lib.Word
import RtThread.Lib.Window

/-!
# `rt_vsnprintf`

The model of `rt_vsnprintf` and `print_number` of `src/kservice.c`, with `RT_PRINTF_PRECISION` and
without `RT_PRINTF_LONGLONG`, as that file has it. `RT_PRINTF_SPECIAL` is not defined there; what it
guards is modelled, with the definition as the parameter `special`.

A C string is a list of characters, whose end reads as NUL. The arguments are a stream of words, and
`strings` are the strings that pointers point to; the buffer overlaps neither these nor the format. An
`int` is an integer, and a result that is out of its range wraps. `Out` is the pointer `str` with the
bytes that the call has stored. The loops that store a character are `Out.puts` of a number of copies,
with the value that the loop leaves in its counter beside it.
-/

namespace RtThread.Kservice

open Lib List

/-! ## Integers -/

/-- The value of an `int` expression. -/
def wrap (x : ℤ) : ℤ := Int.bmod x (2^32)

/-- The counter after `while (n-- > 0)`, which runs `n` times, or not at all. -/
def afterPost (n : ℤ) : ℤ := wrap (min n 0 - 1)

/-- A word as an `int`. -/
def toInt32 (w : ℕ) : ℤ := Int.bmod w (2^32)
/-- A word as an `rt_int16_t`. -/
def toInt16 (w : ℕ) : ℤ := Int.bmod w (2^16)
/-- A word as an `rt_uint16_t`. -/
def toUint16 (w : ℕ) : ℕ := w % 2^16

/-- `isdigit`. -/
def isdigit (c : Char) : Bool := '0' ≤ c && c ≤ '9'

/-- `skip_atoi`, with the value `i` so far. -/
def skipAtoi (i : ℤ) : List Char → ℤ × List Char
  | [] => (i, [])
  | c :: s => if isdigit c then skipAtoi (wrap (i * 10 + c.toNat - 48)) s else (i, c :: s)

/-- `*s`. -/
def peek (s : List Char) : Char := s.headD '\x00'

/-! ## The output -/

/-- The pointer `str`, and the bytes that have been stored. -/
structure Out where
  str : ℕ
  mem : ℕ → Option Char

variable (last : ℕ)

namespace Out

/-- `if (str <= end) *str = c; ++ str`. -/
def put (o : Out) (c : Char) : Out :=
  ⟨add32 o.str 1, if o.str ≤ last then Function.update o.mem o.str (some c) else o.mem⟩

/-- The characters are output one after the other. -/
def puts (o : Out) (l : List Char) : Out := l.foldl (put last) o

end Out

/-! ## Numbers -/

/-- The flags of a conversion. -/
structure Flags where
  zeropad : Bool
  sign : Bool
  plus : Bool
  space : Bool
  left : Bool
  special : Bool
  large : Bool
  deriving DecidableEq

/-- `digits[d]`. -/
def digit (large : Bool) (d : ℕ) : Char :=
  (if large then "0123456789ABCDEF" else "0123456789abcdef").toList.getD d '\x00'

/-- The base that `divide` divides by: ten, or sixteen for every other base. -/
def divisor (base : ℕ) : ℕ := if base = 10 then 10 else 16

/-- `divide`: the digit, and the rest of the number. -/
def divide (n base : ℕ) : ℕ × ℕ := (n % divisor base, n / divisor base)

/-- The loop that fills `tmp`, which has 16 elements, with the last digit first. -/
def tmpLoop (large : Bool) (base : ℕ) : ℕ → ℕ → List Char
  | 0, _ => []
  | fuel + 1, n =>
    if n = 0 then []
    else digit large (divide n base).1 :: tmpLoop large base fuel (divide n base).2

/-- `tmp` for the `long` value `num`. -/
def tmpOf (large : Bool) (base : ℕ) (num : ℤ) : List Char :=
  if num = 0 then ['0'] else tmpLoop large base 16 (num % 2^32).toNat

/-- The sign that is printed in front of a number. -/
def signOf (type : Flags) (num : ℤ) : Option Char :=
  if type.sign then
    if num < 0 then some '-'
    else if type.plus then some '+'
    else if type.space then some ' '
    else none
  else none

/-- What `#` puts in front of a number. -/
def prefixOf (special : Bool) (type : Flags) (base : ℕ) : List Char :=
  if special && type.special then
    if base = 8 then ['0']
    else if base = 16 then ['0', if type.large then 'X' else 'x']
    else []
  else []

/-- `print_number`, with the counters as the source decrements them. -/
def printNumber (special : Bool) (last : ℕ) (o : Out) (num : ℤ) (base : ℕ) (s precision : ℤ)
    (type : Flags) : Out :=
  let size := s
  let type := if type.left then { type with zeropad := false } else type
  let c := if type.zeropad then '0' else ' '
  let sign := signOf type num
  let num := if type.sign && num < 0 then wrap (-num) else num
  let size :=
    if special && type.special then
      if base = 16 then wrap (size - 2) else if base = 8 then wrap (size - 1) else size
    else size
  let tmp := tmpOf type.large base num
  let i : ℤ := tmp.length
  let precision := if i > precision then i else precision
  let size := wrap (size - precision)
  let (o, size) :=
    if !(type.zeropad || type.left) then
      let size := if sign.isSome && size > 0 then size - 1 else size
      (o.puts last (replicate size.toNat ' '), afterPost size)
    else (o, size)
  -- The counter is decremented only if the sign is stored.
  let (o, size) :=
    match sign with
    | none => (o, size)
    | some c => (o.put last c, if o.str ≤ last then wrap (size - 1) else size)
  let o := o.puts last (prefixOf special type base)
  let (o, size) :=
    if !type.left then (o.puts last (replicate size.toNat c), afterPost size) else (o, size)
  let o := o.puts last (replicate (precision - i).toNat '0')
  let o := o.puts last tmp.reverse
  o.puts last (replicate size.toNat ' ')

/-! ## Formats -/

/-- The loop over the flags. -/
def parseFlags (flags : Flags) : List Char → Flags × List Char
  | '-' :: fmt => parseFlags { flags with left := true } fmt
  | '+' :: fmt => parseFlags { flags with plus := true } fmt
  | ' ' :: fmt => parseFlags { flags with space := true } fmt
  | '#' :: fmt => parseFlags { flags with special := true } fmt
  | '0' :: fmt => parseFlags { flags with zeropad := true } fmt
  | fmt => (flags, fmt)

/-- A conversion up to its qualifier, the format behind it, and the index of the next argument. -/
structure Spec where
  flags : Flags
  width : ℤ
  precision : ℤ
  qualifier : Char
  fmt : List Char
  next : ℕ

variable (args : ℕ → ℕ)

/-- The field width, which is -1 if there is none. -/
def parseWidth (s : Spec) : Spec :=
  if isdigit (peek s.fmt) then
    { s with width := (skipAtoi 0 s.fmt).1, fmt := (skipAtoi 0 s.fmt).2 }
  else if peek s.fmt = '*' then
    let width := toInt32 (args s.next)
    if width < 0 then
      { s with
        width := wrap (-width), flags := { s.flags with left := true }, fmt := s.fmt.tail,
        next := s.next + 1 }
    else { s with width := width, fmt := s.fmt.tail, next := s.next + 1 }
  else { s with width := -1 }

/-- The precision, which is -1 if there is none. -/
def parsePrecision (s : Spec) : Spec :=
  if peek s.fmt = '.' then
    let s := { s with precision := -1, fmt := s.fmt.tail }
    let s :=
      if isdigit (peek s.fmt) then
        { s with precision := (skipAtoi 0 s.fmt).1, fmt := (skipAtoi 0 s.fmt).2 }
      else if peek s.fmt = '*' then
        { s with precision := toInt32 (args s.next), fmt := s.fmt.tail, next := s.next + 1 }
      else s
    if s.precision < 0 then { s with precision := 0 } else s
  else { s with precision := -1 }

/-- The qualifier, `h` or `l`. -/
def parseQualifier (s : Spec) : Spec :=
  if peek s.fmt = 'h' ∨ peek s.fmt = 'l' then { s with qualifier := peek s.fmt, fmt := s.fmt.tail }
  else s

/-- No flag. -/
def noFlags : Flags := ⟨false, false, false, false, false, false, false⟩

/-- All that stands between `%` and the conversion. -/
def parseSpec (fmt : List Char) (next : ℕ) : Spec :=
  let r := parseFlags noFlags fmt
  parseQualifier (parsePrecision args (parseWidth args ⟨r.1, -1, -1, '\x00', r.2, next⟩))

/-- The number for an integer conversion, which `print_number` takes as a `long`. -/
def intArg (flags : Flags) (qualifier : Char) (w : ℕ) : ℤ :=
  if qualifier = 'h' then
    if flags.sign then toInt16 (toUint16 w) else toUint16 w
  else toInt32 w

/-- The conversion `c`. -/
def printChar (o : Out) (flags : Flags) (width : ℤ) (w : ℕ) : Out :=
  -- The counter after `while (-- width > 0)` is zero, or it was not positive.
  let (o, width) :=
    if !flags.left then
      (o.puts last (replicate (wrap (width - 1)).toNat ' '), min (wrap (width - 1)) 0)
    else (o, width)
  let o := o.put last (Char.ofNat (w % 2^8))
  o.puts last (replicate (wrap (width - 1)).toNat ' ')

/-- The conversion `s`. -/
def printString (o : Out) (flags : Flags) (width precision : ℤ) (s : List Char) : Out :=
  let len := wrap s.length
  let len := if precision > 0 ∧ len > precision then precision else len
  -- The counter after `while (len < width --)`.
  let (o, width) :=
    if !flags.left then
      (o.puts last (replicate (width - len).toNat ' '), wrap (min width len - 1))
    else (o, width)
  let o := o.puts last (s.take len.toNat)
  o.puts last (replicate (width - len).toNat ' ')

/-- What the arguments and the memory hold. -/
structure Env where
  special : Bool
  args : ℕ → ℕ
  strings : ℕ → List Char

/-- The integer conversions. -/
def printInt (e : Env) (last : ℕ) (o : Out) (s : Spec) (base : ℕ) (flags : Flags) : Out :=
  printNumber e.special last o (intArg flags s.qualifier (e.args s.next)) base s.width s.precision flags

/-- The conversions. -/
inductive Conv
  | char
  | string
  | pointer
  | percent
  | octal
  | hexLarge
  | hex
  | signed
  | unsigned
  | stop
  | other (c : Char)

/-- The conversion of a character. -/
def convOf : Char → Conv
  | 'c' => .char
  | 's' => .string
  | 'p' => .pointer
  | '%' => .percent
  | 'o' => .octal
  | 'X' => .hexLarge
  | 'x' => .hex
  | 'd' => .signed
  | 'i' => .signed
  | 'u' => .unsigned
  | '\x00' => .stop
  | c => .other c

/-- The `switch`: the output, the rest of the format and the index of the next argument. -/
def convert (e : Env) (last : ℕ) (o : Out) (s : Spec) : Out × List Char × ℕ :=
  match convOf (peek s.fmt) with
  | .char => (printChar last o s.flags s.width (e.args s.next), s.fmt.tail, s.next + 1)
  | .string =>
    let text := if e.args s.next = 0 then "(NULL)".toList else e.strings (e.args s.next)
    (printString last o s.flags s.width s.precision text, s.fmt.tail, s.next + 1)
  | .pointer =>
    let width := if s.width = -1 then 8 else s.width
    let flags := if s.width = -1 then { s.flags with zeropad := true } else s.flags
    (printNumber e.special last o (toInt32 (e.args s.next)) 16 width s.precision flags, s.fmt.tail,
      s.next + 1)
  | .percent => (o.put last '%', s.fmt.tail, s.next)
  | .octal => (printInt e last o s 8 s.flags, s.fmt.tail, s.next + 1)
  | .hexLarge => (printInt e last o s 16 { s.flags with large := true }, s.fmt.tail, s.next + 1)
  | .hex => (printInt e last o s 16 s.flags, s.fmt.tail, s.next + 1)
  | .signed => (printInt e last o s 10 { s.flags with sign := true }, s.fmt.tail, s.next + 1)
  | .unsigned => (printInt e last o s 10 s.flags, s.fmt.tail, s.next + 1)
  | .stop => (o.put last '%', [], s.next)
  | .other c => ((o.put last '%').put last c, s.fmt.tail, s.next)

/-- The loop over the format. A round takes one character at least, so the length of the format is
enough `fuel`. -/
def formatLoop (e : Env) (last : ℕ) : ℕ → Out → List Char → ℕ → Out
  | 0, o, _, _ => o
  | _ + 1, o, [], _ => o
  | fuel + 1, o, c :: fmt, next =>
    if c = '\x00' then o
    else if c ≠ '%' then formatLoop e last fuel (o.put last c) fmt next
    else
      let r := convert e last o (parseSpec e.args fmt next)
      formatLoop e last fuel r.1 r.2.1 r.2.2

/-- What a call leaves: the value returned, the bytes stored, and where the last NUL is. -/
structure Call where
  ret : ℤ
  mem : ℕ → Option Char
  term : ℕ

/-- The address of the last byte of the buffer. -/
def lastOf (buf size : ℕ) : ℕ :=
  let last := sub32 (add32 buf size) 1
  if last < buf then 2^32 - 1 else last

/-- `rt_vsnprintf`: the loop over the format, and the NUL. -/
def rtVsnprintf (e : Env) (buf size : ℕ) (fmt : List Char) : Call :=
  let last := lastOf buf size
  let o := formatLoop e last fmt.length ⟨buf, fun _ => none⟩ fmt 0
  let term := if o.str ≤ last then o.str else last
  ⟨toInt32 (sub32 o.str buf), Function.update o.mem term (some '\x00'), term⟩

end RtThread.Kservice
