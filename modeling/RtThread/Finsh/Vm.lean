import RtThread.Finsh.Node
import RtThread.Lib.Gauge

/-!
# The virtual machine of the shell

The model of `components/finsh/finsh_ops.c` and of `finsh_vm_run` of `components/finsh/finsh_vm.c`. A
slot of the stack is a union: the instructions on bytes and on words leave the rest of a slot as it is.
`char` is unsigned and `short` is signed, and the operators compute with 32 bits before the result is
cut off. A system call is any function of its address and its parameters that may change what the shell
keeps. The stack is not checked at either end, so it has slots below its first one and behind its last
one, and the machine keeps the lowest and the highest that it has used (`Gauge`).
-/

namespace RtThread.Finsh

open Lib List Nat

/-- The slots of the stack. -/
def FINSH_STACK_MAX : ℕ := 64
/-- The bytes of the text segment. -/
def FINSH_TEXT_MAX : ℕ := 128

/-! ## Instructions -/

/-- The fields of `union finsh_value` that an instruction works on. -/
inductive Size
  | byte
  | word
  | dword
  deriving DecidableEq

/-- The operators with two operands. -/
inductive BinOp
  | add
  | sub
  | div
  | mod
  | mul
  | and
  | or
  | xor
  | shl
  | shr
  deriving DecidableEq

/-- The instructions, with the size of their operands. -/
inductive Op
  | noop
  | bin (op : BinOp) (size : Size)
  | bitwise (size : Size)
  | ld (size : Size)
  | ldValue (size : Size)
  | st (size : Size)
  | pop
  | syscall
  | ldValueStack (size : Size)
  deriving DecidableEq

/-- `op_table`, in the order of the codes. -/
def opTable : List Op :=
  [.noop,
    .bin .add .byte, .bin .add .word, .bin .add .dword,
    .bin .sub .byte, .bin .sub .word, .bin .sub .dword,
    .bin .div .byte, .bin .div .word, .bin .div .dword,
    .bin .mod .byte, .bin .mod .word, .bin .mod .dword,
    .bin .mul .byte, .bin .mul .word, .bin .mul .dword,
    .bin .and .byte, .bin .and .word, .bin .and .dword,
    .bin .or .byte, .bin .or .word, .bin .or .dword,
    .bin .xor .byte, .bin .xor .word, .bin .xor .dword,
    .bitwise .byte, .bitwise .word, .bitwise .dword,
    .bin .shl .byte, .bin .shl .word, .bin .shl .dword,
    .bin .shr .byte, .bin .shr .word, .bin .shr .dword,
    .ld .byte, .ld .word, .ld .dword,
    .ldValue .byte, .ldValue .word, .ldValue .dword,
    .st .byte, .st .word, .st .dword,
    .pop,
    .syscall,
    .ldValueStack .byte, .ldValueStack .word, .ldValueStack .dword]

/-- The constants of `finsh_ops.h` come in threes, for bytes, words and double words. -/
def Size.offset : Size → ℕ
  | .byte => 0
  | .word => 1
  | .dword => 2

/-- `FINSH_OP_ADD_BYTE` to `FINSH_OP_SHR_BYTE`. -/
def BinOp.code : BinOp → ℕ
  | .add => 0x01
  | .sub => 0x04
  | .div => 0x07
  | .mod => 0x0a
  | .mul => 0x0d
  | .and => 0x10
  | .or => 0x13
  | .xor => 0x16
  | .shl => 0x1c
  | .shr => 0x1f

/-- The constants `FINSH_OP_*`. -/
def Op.code : Op → ℕ
  | .noop => 0x00
  | .bin op size => op.code + size.offset
  | .bitwise size => 0x19 + size.offset
  | .ld size => 0x22 + size.offset
  | .ldValue size => 0x25 + size.offset
  | .st size => 0x28 + size.offset
  | .pop => 0x2b
  | .syscall => 0x2c
  | .ldValueStack size => 0x2d + size.offset

theorem opTable_code (op : Op) : opTable[op.code]? = some op := by
  cases op with
  | bin op size => cases op <;> cases size <;> rfl
  | bitwise size | ld size | ldValue size | st size | ldValueStack size => cases size <;> rfl
  | _ => rfl

theorem Op.code_lt (op : Op) : op.code < 256 := by
  have hlen : op.code < opTable.length := (List.getElem?_eq_some_iff.mp (opTable_code op)).choose
  have heq : opTable.length = 48 := rfl
  omega

/-- The bytes of a size. -/
def Size.bytes : Size → ℕ
  | .byte => 1
  | .word => 2
  | .dword => 4

/-- The number of bytes that an instruction reads behind its code. -/
def Op.argBytes : Op → ℕ
  | .ld size => size.bytes
  | .ldValue _ => 4
  | .syscall => 1
  | _ => 0

/-- An instruction with what stands behind its code in the text. -/
structure Instr where
  op : Op
  arg : ℕ
  arg_lt : arg < 256 ^ op.argBytes
  deriving DecidableEq

/-- The instruction that the low bytes of a number follow. -/
def instr (op : Op) (arg : ℕ) : Instr := ⟨op, arg % 256 ^ op.argBytes, mod_lt _ (by positivity)⟩

/-- The low bytes of a number, in the order of `FINSH_SET16` and `FINSH_SET32`. -/
def lowBytes : ℕ → ℕ → List UInt8
  | 0, _ => []
  | n + 1, v => UInt8.ofNat v :: lowBytes n (v / 256)

/-- The bytes of an instruction: its code and its operand. -/
def Instr.encode (i : Instr) : List UInt8 := UInt8.ofNat i.op.code :: lowBytes i.op.argBytes i.arg

/-- The bytes of a code. -/
def encode (code : List Instr) : List UInt8 := code.flatMap Instr.encode

/-- The text segment with a program, cleared behind it. -/
def textSegment (code : List Instr) : Bytes := fun a => (encode code).getD a 0

/-- The instruction at an address, and the address behind it. -/
def decode (text : Bytes) (pc : ℕ) : Option (Instr × ℕ) :=
  match opTable[(text pc).toNat]? with
  | none => none
  | some op =>
    some (instr op (text.load (pc + 1) op.argBytes), pc + 1 + op.argBytes)

/-! ## The machine -/

/-- The field of a slot, as an `int`. -/
def Size.read : Size → BitVec 32 → BitVec 32
  | .byte, cell => cell &&& 0xff
  | .word, cell => (cell.setWidth 16).signExtend 32
  | .dword, cell => cell

/-- A slot with one of its fields set. -/
def Size.write : Size → BitVec 32 → BitVec 32 → BitVec 32
  | .byte, cell, v => (cell &&& 0xffffff00) ||| (v &&& 0xff)
  | .word, cell, v => (cell &&& 0xffff0000) ||| (v &&& 0xffff)
  | .dword, _, v => v

/-- An operator on 32 bits. -/
def BinOp.apply : BinOp → BitVec 32 → BitVec 32 → BitVec 32
  | .add, a, b => a + b
  | .sub, a, b => a - b
  | .div, a, b => a.sdiv b
  | .mod, a, b => a.srem b
  | .mul, a, b => a * b
  | .and, a, b => a &&& b
  | .or, a, b => a ||| b
  | .xor, a, b => a ^^^ b
  | .shl, a, b => a <<< b.toNat
  | .shr, a, b => a.sshiftRight b.toNat

/-- The system calls: what a function returns for its parameters, and what it leaves of the shell. -/
abbrev Call := BitVec 32 → List (BitVec 32) → Env → BitVec 32 × Env

namespace Env

/-- A value of the memory. -/
def load (env : Env) (size : Size) (addr : BitVec 32) : BitVec 32 :=
  BitVec.ofNat 32 (env.heap.mem.load addr.toNat size.bytes)

/-- A value is stored. -/
def store (env : Env) (size : Size) (addr v : BitVec 32) : Env :=
  { env with heap := { env.heap with mem := env.heap.mem.store addr.toNat size.bytes v.toNat } }

end Env

/-- The machine without its program counter. -/
structure Vm where
  env : Env
  /-- `finsh_vm_stack`, and what is around it. -/
  stack : ℤ → BitVec 32
  /-- `finsh_sp` as an index, and how far it has gone. -/
  gauge : Gauge

namespace Vm

variable (vm : Vm)

/-- The height of the stack. -/
abbrev sp : ℤ := vm.gauge.sp

/-- The slot `k` below the top. -/
def cell (k : ℕ) : BitVec 32 := vm.stack (vm.sp - k)

/-- Slots are taken off. -/
def take (k : ℕ) : Vm := { vm with gauge := vm.gauge.take k }

/-- A value is put on the stack. -/
def push (v : BitVec 32) : Vm :=
  { vm with stack := Function.update vm.stack vm.sp v, gauge := vm.gauge.put 1 }

/-- The parameters of a system call, the last one on top. -/
def parameters (n : ℕ) : List (BitVec 32) := (range n).map fun j => vm.cell (n - j)

/-- The functions of `op_table`, with what stands behind the code. -/
def exec (call : Call) (i : Instr) : Vm :=
  match i.op with
  | .noop => vm
  | .bin op size =>
    (vm.take 2).push (size.write (vm.cell 2) (op.apply (size.read (vm.cell 2)) (size.read (vm.cell 1))))
  | .bitwise size => (vm.take 1).push (size.write (vm.cell 1) (~~~(size.read (vm.cell 1))))
  | .ld size => vm.push (size.write (vm.cell 0) (BitVec.ofNat 32 i.arg))
  | .ldValue size => vm.push (size.write (vm.cell 0) (vm.env.load size (BitVec.ofNat 32 i.arg)))
  | .st size =>
    -- The address stays on the stack.
    { (vm.take 2).push (vm.cell 2) with env := vm.env.store size (vm.cell 2) (vm.cell 1) }
  | .pop => vm.take 1
  | .syscall =>
    let (r, env) := call (vm.cell (i.arg + 1)) (vm.parameters i.arg) vm.env
    { (vm.take (i.arg + 1)).push r with env := env }
  | .ldValueStack size => (vm.take 1).push (size.write (vm.cell 1) (vm.env.load size (vm.cell 1)))

/-- The instructions of a program, one after the other. -/
def run (call : Call) (code : List Instr) : Vm := code.foldl (fun vm i => vm.exec call i) vm

/-- The machine at the start of a text. -/
def start (env : Env) (stack : ℤ → BitVec 32) : Vm :=
  { env := env, stack := stack, gauge := Gauge.level 0 }

end Vm

/-- The loop of `finsh_vm_run`. Every round goes forward in the text. A code that is not in the table
is called all the same. -/
def vmLoop (call : Call) (text : Bytes) : ℕ → ℕ → Vm → Except Fault Vm
  | 0, _, _ => .error .fuel
  | n + 1, pc, vm =>
    if pc < FINSH_TEXT_MAX then
      match decode text pc with
      | none => .error .wild
      | some (i, pc) => vmLoop call text n pc (vm.exec call i)
    else .ok vm

/-- `finsh_vm_run`. -/
def finshVmRun (call : Call) (text : Bytes) (env : Env) (stack : ℤ → BitVec 32) : Except Fault Vm :=
  vmLoop call text (FINSH_TEXT_MAX + 1) 0 (Vm.start env stack)

/-! ## The text and the instructions -/

section Text

variable {call : Call} {text : Bytes} {pc n v : ℕ} {i : Instr} {code : List Instr}

@[simp] theorem Vm.run_nil (vm : Vm) : vm.run call [] = vm := rfl

@[simp] theorem Vm.run_cons (vm : Vm) : vm.run call (i :: code) = (vm.exec call i).run call code := rfl

@[simp] theorem Vm.run_append (vm : Vm) (code' : List Instr) :
    vm.run call (code ++ code') = (vm.run call code).run call code' :=
  foldl_append

@[simp] theorem encode_nil : encode [] = [] := rfl

@[simp] theorem encode_cons : encode (i :: code) = i.encode ++ encode code := rfl

theorem encode_append (code code' : List Instr) : encode (code ++ code') = encode code ++ encode code' :=
  flatMap_append

@[simp] theorem length_lowBytes : (lowBytes n v).length = n := by
  induction n generalizing v with
  | zero => rfl
  | succ n ih => rw [lowBytes, length_cons, ih]

@[simp] theorem length_encode : i.encode.length = i.op.argBytes + 1 := by
  rw [Instr.encode, length_cons, length_lowBytes]

/-- The text has the bytes from `pc` on. -/
def Holds (text : Bytes) (pc : ℕ) (bytes : List UInt8) : Prop :=
  ∀ k < bytes.length, text (pc + k) = bytes.getD k 0

theorem Holds.left {bytes bytes' : List UInt8} (h : Holds text pc (bytes ++ bytes')) :
    Holds text pc bytes := by
  intro k hk
  rw [h k (by rw [length_append]; omega), getD_append _ _ _ _ hk]

theorem Holds.right {bytes bytes' : List UInt8} (h : Holds text pc (bytes ++ bytes')) :
    Holds text (pc + bytes.length) bytes' := by
  intro k hk
  rw [add_assoc, h _ (by rw [length_append]; omega),
    getD_append_right _ _ _ _ (Nat.le_add_right _ _), Nat.add_sub_cancel_left]

theorem Holds.tail {b : UInt8} {bytes : List UInt8} (h : Holds text pc (b :: bytes)) :
    Holds text (pc + 1) bytes := by
  have happend : Holds text pc ([b] ++ bytes) := h
  exact happend.right

theorem load_of_holds (h : Holds text pc (lowBytes n v)) : text.load pc n = v % 256 ^ n := by
  induction n generalizing pc v with
  | zero => simp [Bytes.load, mod_one]
  | succ n ih =>
    have hfirst : text pc = UInt8.ofNat v := h 0 (by simp)
    have hrest : Holds text (pc + 1) (lowBytes n (v / 256)) := Holds.tail h
    rw [Bytes.load, hfirst, ih hrest, pow_succ', mod_mul]
    simp

theorem decode_of_holds (h : Holds text pc i.encode) :
    decode text pc = some (i, pc + i.encode.length) := by
  have hcode : (text pc).toNat = i.op.code := by
    have hfirst : text pc = UInt8.ofNat i.op.code := h 0 (by simp)
    rw [hfirst, UInt8.toNat_ofNat', mod_eq_of_lt i.op.code_lt]
  have harg : text.load (pc + 1) i.op.argBytes = i.arg := by
    have hload := load_of_holds (Holds.tail h)
    rwa [mod_eq_of_lt i.arg_lt] at hload
  have hinstr : instr i.op i.arg = i := by
    obtain ⟨op, arg, hlt⟩ := i
    simp [instr, mod_eq_of_lt hlt]
  rw [decode, hcode, opTable_code]
  dsimp only
  rw [harg, hinstr, length_encode, add_assoc, add_comm 1]

theorem vmLoop_of_zero {vm : Vm} (hzero : ∀ k, pc ≤ k → text k = 0) (hpc : pc ≤ FINSH_TEXT_MAX)
    (hn : FINSH_TEXT_MAX < n + pc) : vmLoop call text n pc vm = .ok vm := by
  induction n generalizing pc with
  | zero => omega
  | succ n ih =>
    rw [vmLoop]
    split_ifs with hlt
    · have hdec : decode text pc = some (instr .noop 0, pc + 1) := by
        rw [decode, hzero pc le_rfl]
        rfl
      rw [hdec]
      exact ih (fun k hk => hzero k (by omega)) (by omega) (by omega)
    · rfl

theorem vmLoop_of_holds {vm : Vm} (hcode : Holds text pc (encode code))
    (hzero : ∀ k, pc + (encode code).length ≤ k → text k = 0)
    (hlen : pc + (encode code).length ≤ FINSH_TEXT_MAX) (hn : FINSH_TEXT_MAX < n + pc) :
    vmLoop call text n pc vm = .ok (vm.run call code) := by
  induction code generalizing n pc vm with
  | nil => exact vmLoop_of_zero hzero hlen hn
  | cons i code ih =>
    rw [encode_cons, length_append] at hzero hlen
    have hpos : 0 < i.encode.length := by simp
    obtain ⟨n, rfl⟩ : ∃ m, n = m + 1 := ⟨n - 1, by omega⟩
    rw [vmLoop, if_pos (by omega), decode_of_holds hcode.left]
    exact ih hcode.right (fun k hk => hzero k (by omega)) (by omega) (by omega)

theorem finshVmRun_eq (hlen : (encode code).length ≤ FINSH_TEXT_MAX) (env : Env)
    (stack : ℤ → BitVec 32) :
    finshVmRun call (textSegment code) env stack = .ok ((Vm.start env stack).run call code) := by
  refine vmLoop_of_holds (fun k _ => ?_) (fun k hk => ?_) (by omega) (by omega)
  · rw [textSegment, zero_add]
  · rw [textSegment, getD_eq_default _ _ (by omega)]

end Text

end RtThread.Finsh
