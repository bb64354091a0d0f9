import RtThread.Lib.Bytes
import RtThread.Lib.Crc
import RtThread.Lib.Text

/-!
# The Modbus master

The model of `crc16` in `hardware/modbus.c` and of the frames that `hardware/master.c` sends. Buffers
are in a byte memory. `crc16` keeps the remainder in two bytes, of which `uchCRCHi` is the low one of
the check that the protocol prescribes; so its result has the two bytes exchanged. The tables hold
eight shifts of every byte (`table_eq`), so `crc16` computes the bit-by-bit remainder of `Lib/Crc.lean`.
-/

namespace RtThread.Bsp

open Lib Function List BitVec

/-! ## The check -/

/-- The table of the bytes that go into `uchCRCHi`. -/
def auchCRCHi : Array UInt8 := #[
  0x00, 0xC1, 0x81, 0x40, 0x01, 0xC0, 0x80, 0x41, 0x01, 0xC0, 0x80, 0x41, 0x00, 0xC1, 0x81, 0x40,
  0x01, 0xC0, 0x80, 0x41, 0x00, 0xC1, 0x81, 0x40, 0x00, 0xC1, 0x81, 0x40, 0x01, 0xC0, 0x80, 0x41,
  0x01, 0xC0, 0x80, 0x41, 0x00, 0xC1, 0x81, 0x40, 0x00, 0xC1, 0x81, 0x40, 0x01, 0xC0, 0x80, 0x41,
  0x00, 0xC1, 0x81, 0x40, 0x01, 0xC0, 0x80, 0x41, 0x01, 0xC0, 0x80, 0x41, 0x00, 0xC1, 0x81, 0x40,
  0x01, 0xC0, 0x80, 0x41, 0x00, 0xC1, 0x81, 0x40, 0x00, 0xC1, 0x81, 0x40, 0x01, 0xC0, 0x80, 0x41,
  0x00, 0xC1, 0x81, 0x40, 0x01, 0xC0, 0x80, 0x41, 0x01, 0xC0, 0x80, 0x41, 0x00, 0xC1, 0x81, 0x40,
  0x00, 0xC1, 0x81, 0x40, 0x01, 0xC0, 0x80, 0x41, 0x01, 0xC0, 0x80, 0x41, 0x00, 0xC1, 0x81, 0x40,
  0x01, 0xC0, 0x80, 0x41, 0x00, 0xC1, 0x81, 0x40, 0x00, 0xC1, 0x81, 0x40, 0x01, 0xC0, 0x80, 0x41,
  0x01, 0xC0, 0x80, 0x41, 0x00, 0xC1, 0x81, 0x40, 0x00, 0xC1, 0x81, 0x40, 0x01, 0xC0, 0x80, 0x41,
  0x00, 0xC1, 0x81, 0x40, 0x01, 0xC0, 0x80, 0x41, 0x01, 0xC0, 0x80, 0x41, 0x00, 0xC1, 0x81, 0x40,
  0x00, 0xC1, 0x81, 0x40, 0x01, 0xC0, 0x80, 0x41, 0x01, 0xC0, 0x80, 0x41, 0x00, 0xC1, 0x81, 0x40,
  0x01, 0xC0, 0x80, 0x41, 0x00, 0xC1, 0x81, 0x40, 0x00, 0xC1, 0x81, 0x40, 0x01, 0xC0, 0x80, 0x41,
  0x00, 0xC1, 0x81, 0x40, 0x01, 0xC0, 0x80, 0x41, 0x01, 0xC0, 0x80, 0x41, 0x00, 0xC1, 0x81, 0x40,
  0x01, 0xC0, 0x80, 0x41, 0x00, 0xC1, 0x81, 0x40, 0x00, 0xC1, 0x81, 0x40, 0x01, 0xC0, 0x80, 0x41,
  0x01, 0xC0, 0x80, 0x41, 0x00, 0xC1, 0x81, 0x40, 0x00, 0xC1, 0x81, 0x40, 0x01, 0xC0, 0x80, 0x41,
  0x00, 0xC1, 0x81, 0x40, 0x01, 0xC0, 0x80, 0x41, 0x01, 0xC0, 0x80, 0x41, 0x00, 0xC1, 0x81, 0x40]

/-- The table of the bytes that go into `uchCRCLo`. -/
def auchCRCLo : Array UInt8 := #[
  0x00, 0xC0, 0xC1, 0x01, 0xC3, 0x03, 0x02, 0xC2, 0xC6, 0x06, 0x07, 0xC7, 0x05, 0xC5, 0xC4, 0x04,
  0xCC, 0x0C, 0x0D, 0xCD, 0x0F, 0xCF, 0xCE, 0x0E, 0x0A, 0xCA, 0xCB, 0x0B, 0xC9, 0x09, 0x08, 0xC8,
  0xD8, 0x18, 0x19, 0xD9, 0x1B, 0xDB, 0xDA, 0x1A, 0x1E, 0xDE, 0xDF, 0x1F, 0xDD, 0x1D, 0x1C, 0xDC,
  0x14, 0xD4, 0xD5, 0x15, 0xD7, 0x17, 0x16, 0xD6, 0xD2, 0x12, 0x13, 0xD3, 0x11, 0xD1, 0xD0, 0x10,
  0xF0, 0x30, 0x31, 0xF1, 0x33, 0xF3, 0xF2, 0x32, 0x36, 0xF6, 0xF7, 0x37, 0xF5, 0x35, 0x34, 0xF4,
  0x3C, 0xFC, 0xFD, 0x3D, 0xFF, 0x3F, 0x3E, 0xFE, 0xFA, 0x3A, 0x3B, 0xFB, 0x39, 0xF9, 0xF8, 0x38,
  0x28, 0xE8, 0xE9, 0x29, 0xEB, 0x2B, 0x2A, 0xEA, 0xEE, 0x2E, 0x2F, 0xEF, 0x2D, 0xED, 0xEC, 0x2C,
  0xE4, 0x24, 0x25, 0xE5, 0x27, 0xE7, 0xE6, 0x26, 0x22, 0xE2, 0xE3, 0x23, 0xE1, 0x21, 0x20, 0xE0,
  0xA0, 0x60, 0x61, 0xA1, 0x63, 0xA3, 0xA2, 0x62, 0x66, 0xA6, 0xA7, 0x67, 0xA5, 0x65, 0x64, 0xA4,
  0x6C, 0xAC, 0xAD, 0x6D, 0xAF, 0x6F, 0x6E, 0xAE, 0xAA, 0x6A, 0x6B, 0xAB, 0x69, 0xA9, 0xA8, 0x68,
  0x78, 0xB8, 0xB9, 0x79, 0xBB, 0x7B, 0x7A, 0xBA, 0xBE, 0x7E, 0x7F, 0xBF, 0x7D, 0xBD, 0xBC, 0x7C,
  0xB4, 0x74, 0x75, 0xB5, 0x77, 0xB7, 0xB6, 0x76, 0x72, 0xB2, 0xB3, 0x73, 0xB1, 0x71, 0x70, 0xB0,
  0x50, 0x90, 0x91, 0x51, 0x93, 0x53, 0x52, 0x92, 0x96, 0x56, 0x57, 0x97, 0x55, 0x95, 0x94, 0x54,
  0x9C, 0x5C, 0x5D, 0x9D, 0x5F, 0x9F, 0x9E, 0x5E, 0x5A, 0x9A, 0x9B, 0x5B, 0x99, 0x59, 0x58, 0x98,
  0x88, 0x48, 0x49, 0x89, 0x4B, 0x8B, 0x8A, 0x4A, 0x4E, 0x8E, 0x8F, 0x4F, 0x8D, 0x4D, 0x4C, 0x8C,
  0x44, 0x84, 0x85, 0x45, 0x87, 0x47, 0x46, 0x86, 0x82, 0x42, 0x43, 0x83, 0x41, 0x81, 0x80, 0x40]

variable (crc : UInt8 × UInt8)

/-- One pass of the loop of `crc16`, on `uchCRCHi` and `uchCRCLo`. -/
def crcStep (byte : UInt8) : UInt8 × UInt8 :=
  let uIndex := (crc.1 ^^^ byte).toNat
  (crc.2 ^^^ auchCRCHi.getD uIndex 0, auchCRCLo.getD uIndex 0)

/-- The loop of `crc16` over `usDataLen` bytes. -/
def crcLoop (m : Bytes) : ℕ → ℕ → UInt8 × UInt8 → UInt8 × UInt8
  | _, 0, crc => crc
  | puchMsg, usDataLen + 1, crc => crcLoop m (puchMsg + 1) usDataLen (crcStep crc (m puchMsg))

/-- `crc16` of `modbus.c`, over the bytes at `puchMsg`. -/
def crc16 (m : Bytes) (puchMsg : ℕ) (usDataLen : UInt16) : UInt16 :=
  let (uchCRCHi, uchCRCLo) := crcLoop m puchMsg usDataLen.toNat (0xFF, 0xFF)
  uchCRCHi.toUInt16 <<< 8 ||| uchCRCLo.toUInt16

/-! ## Frames to send -/

/-- The copying loop of `construct_rtu_frm`. -/
def copyLoop (m : Bytes) : ℕ → ℕ → ℕ → Bytes
  | _, _, 0 => m
  | dst, src, n + 1 => copyLoop (update m dst (m src)) (dst + 1) (src + 1) n

/-- `construct_rtu_frm`: the message at `src` gets its check behind it and is copied to `dst`. -/
def constructRtuFrm (m : Bytes) (dst src : ℕ) (lenth : UInt8) : Bytes :=
  let crc := crc16 m src lenth.toUInt16
  let m := update m (src + lenth.toNat) (crc >>> 8).toUInt8
  let m := update m (src + lenth.toNat + 1) (crc &&& 0xff).toUInt8
  copyLoop m dst src (lenth + 1 + 1).toNat

/-- Read holding registers. -/
def READ_HLD_REG : UInt8 := 3
/-- Set a holding register. -/
def SET_HLD_REG : UInt8 := 6
/-- Start an acquisition. -/
def NEIZU_CAIJI : UInt8 := 7

/-- The message of a request, written into a local array `tmp`. -/
def rtuMessage (function : UInt8) (m : Bytes) (tmp : ℕ) (board_adr : UInt8)
    (start_address value : UInt16) : Bytes :=
  let m := update m tmp board_adr
  let m := update m (tmp + 1) function
  let m := update m (tmp + 2) (start_address >>> 8).toUInt8
  let m := update m (tmp + 3) (start_address &&& 0xff).toUInt8
  let m := update m (tmp + 4) (value >>> 8).toUInt8
  update m (tmp + 5) (value &&& 0xff).toUInt8

/-- The requests: board, function, address and one more word. -/
def rtuRequest (function : UInt8) (m : Bytes) (tmp com_buf : ℕ) (board_adr : UInt8)
    (start_address value : UInt16) : Bytes :=
  constructRtuFrm (rtuMessage function m tmp board_adr start_address value) com_buf tmp 6

/-- `rtu_neizu_order`; the three requests differ in the function code only. -/
def rtuNeizuOrder := rtuRequest NEIZU_CAIJI
/-- `rtu_read_hldreg`. -/
def rtuReadHldreg := rtuRequest READ_HLD_REG
/-- `rtu_set_hldreg`. -/
def rtuSetHldreg := rtuRequest SET_HLD_REG

/-- The test of the check at the end of a frame, in `rtu_data_anlys`. -/
def crcMatches (m : Bytes) (source_p : ℕ) (fr_lenth : UInt16) : Bool :=
  let crc_tmp := (m (source_p + fr_lenth.toNat - 2)).toUInt16
  let crc_tmp := crc_tmp * 256 + (m (source_p + fr_lenth.toNat - 1)).toUInt16
  crc_tmp == crc16 m source_p (fr_lenth - 2)

/-! ## The check is the one of the protocol -/

/-- The check of the protocol, bit by bit. -/
def crc16Modbus (message : List UInt8) : BitVec 16 := Crc.remainder 0xA001#16 0xFFFF#16 message

/-- A word with its two bytes exchanged. -/
def exchanged (x : BitVec 16) : BitVec 16 := x.setWidth 8 ++ (x >>> 8).setWidth 8

/-- The remainder that the two bytes of `crc16` stand for. -/
def wordOf : BitVec 16 := crc.2.toBitVec ++ crc.1.toBitVec

theorem getLsbD_wordOf (i : ℕ) : (wordOf crc).getLsbD i =
    if i < 8 then crc.1.toBitVec.getLsbD i else crc.2.toBitVec.getLsbD (i - 8) :=
  getLsbD_append

theorem getLsbD_exchanged (x : BitVec 16) (i : ℕ) (hi : i < 16) : (exchanged x).getLsbD i =
    if i < 8 then x.getLsbD (8 + i) else x.getLsbD (i - 8) := by
  refine (getLsbD_append (x := x.setWidth 8) (y := (x >>> 8).setWidth 8)).trans ?_
  rw [getLsbD_setWidth, getLsbD_setWidth, getLsbD_ushiftRight]
  split
  · simp [*]
  · simp [show i - 8 < 8 by omega]

theorem auchCRCHi_eq : auchCRCHi.toList.map UInt8.toBitVec =
    (range 256).map fun i => (Crc.shifts 0xA001#16 8 (BitVec.ofNat 16 i)).setWidth 8 := by
  decide +kernel

theorem auchCRCLo_eq : auchCRCLo.toList.map UInt8.toBitVec =
    (range 256).map fun i => (Crc.shifts 0xA001#16 8 (BitVec.ofNat 16 i) >>> 8).setWidth 8 := by
  decide +kernel

theorem toBitVec_getD {table : Array UInt8} {f : ℕ → BitVec 8}
    (h : table.toList.map UInt8.toBitVec = (range 256).map f) (b : UInt8) :
    (table.getD b.toNat 0).toBitVec = f b.toNat := by
  have hat := congrArg (·[b.toNat]?) h
  have hb : b.toNat < 256 := b.toNat_lt
  simp only [getElem?_map, Array.getElem?_toList, getElem?_range hb, Option.map_some,
    Option.map_eq_some_iff] at hat
  obtain ⟨x, hx, hfx⟩ := hat
  rw [Array.getD_eq_getD_getElem?, hx, Option.getD_some, hfx]

theorem table_eq (b : UInt8) :
    (auchCRCLo.getD b.toNat 0).toBitVec ++ (auchCRCHi.getD b.toNat 0).toBitVec =
      Crc.shifts 0xA001#16 8 (b.toBitVec.setWidth 16) := by
  have hword : BitVec.ofNat 16 b.toNat = b.toBitVec.setWidth 16 := by
    apply BitVec.eq_of_toNat_eq
    simp
  rw [toBitVec_getD auchCRCLo_eq, toBitVec_getD auchCRCHi_eq, hword]
  generalize Crc.shifts 0xA001#16 8 (b.toBitVec.setWidth 16) = x
  apply eq_of_getLsbD_eq
  intro i hi
  simp only [getLsbD_append, getLsbD_setWidth, getLsbD_ushiftRight]
  by_cases h : i < 8
  · simp [h]
  · simp [h, show i - 8 < 8 by omega, show 8 + (i - 8) = i by omega]

/-- One pass of the loop is eight shifts of the bit-by-bit remainder. -/
theorem wordOf_crcStep (byte : UInt8) : wordOf (crcStep crc byte) =
      Crc.shifts 0xA001#16 8 (wordOf crc ^^^ byte.toBitVec.setWidth 16) := by
  have hlow : (wordOf crc ^^^ byte.toBitVec.setWidth 16).setWidth 8 =
      (crc.1 ^^^ byte).toBitVec := by
    apply eq_of_getLsbD_eq
    intro i hi
    simp only [getLsbD_setWidth, getLsbD_xor, getLsbD_wordOf, UInt8.toBitVec_xor]
    simp [hi, show i < 16 by omega]
  have hhigh : (wordOf crc ^^^ byte.toBitVec.setWidth 16) >>> 8 = crc.2.toBitVec.setWidth 16 := by
    apply eq_of_getLsbD_eq
    intro i hi
    simp [getLsbD_wordOf, hi]
  rw [Crc.shifts_split, hlow, hhigh, ← table_eq]
  apply eq_of_getLsbD_eq
  intro i hi
  simp only [wordOf, crcStep, getLsbD_append, getLsbD_xor, getLsbD_setWidth,
    UInt8.toBitVec_xor]
  by_cases h : i < 8
  · simp [h, hi, Bool.xor_comm]
  · simp [h, hi, getLsbD_of_ge crc.2.toBitVec i (by omega)]

theorem crcLoop_eq_foldl (m : Bytes) (p n : ℕ) (crc : UInt8 × UInt8) :
    crcLoop m p n crc = (slice m p n).foldl crcStep crc := by
  induction n generalizing p crc with
  | zero => rfl
  | succ n ih => rw [crcLoop, ih, slice, foldl_cons]

theorem wordOf_foldl (message : List UInt8) (crc : UInt8 × UInt8) :
    wordOf (message.foldl crcStep crc) = Crc.remainder 0xA001#16 (wordOf crc) message := by
  induction message generalizing crc with
  | nil => rfl
  | cons byte rest ih =>
    rw [foldl_cons, ih, wordOf_crcStep]
    rfl

theorem toBitVec_crc16 (m : Bytes) (p : ℕ) (n : UInt16) :
    (crc16 m p n).toBitVec = exchanged (wordOf (crcLoop m p n.toNat (0xFF, 0xFF))) := by
  unfold crc16
  generalize crcLoop m p n.toNat (0xFF, 0xFF) = crc
  apply eq_of_getLsbD_eq
  intro i hi
  rw [getLsbD_exchanged _ _ hi, getLsbD_wordOf, getLsbD_wordOf]
  by_cases h : i < 8
  · simp [h, show i < 16 by omega]
  · simp [h, hi, show i - 8 < 8 by omega,
      getLsbD_of_ge crc.2.toBitVec i (by omega)]

/-- The check is the remainder of the message, with the two bytes exchanged. -/
theorem crc16_eq_exchanged (m : Bytes) (p : ℕ) (n : UInt16) :
    (crc16 m p n).toBitVec = exchanged (crc16Modbus (slice m p n.toNat)) := by
  rw [toBitVec_crc16, crcLoop_eq_foldl, wordOf_foldl]
  rfl

/-! ## Frames pass the test -/

theorem auchCRCHi_zero : auchCRCHi.getD 0 0 = 0 := by decide +kernel

theorem auchCRCLo_zero : auchCRCLo.getD 0 0 = 0 := by decide +kernel

/-- The bytes of a check use up the remainder that it was taken from. -/
theorem crcStep_crcStep : crcStep (crcStep crc crc.1) crc.2 = (0, 0) := by
  have hzero : ∀ byte lo : UInt8, crcStep (byte, lo) byte = (lo, 0) := by
    intro byte lo
    have hindex : (byte ^^^ byte).toNat = 0 := by rw [UInt8.xor_self, UInt8.toNat_zero]
    simp only [crcStep, hindex, auchCRCHi_zero, auchCRCLo_zero, UInt8.xor_zero]
  rw [show crcStep crc crc.1 = (crc.2, 0) from hzero crc.1 crc.2, hzero]

theorem toNat_word (hi lo : UInt8) :
    (hi.toUInt16 <<< 8 ||| lo.toUInt16).toNat = hi.toNat * 256 + lo.toNat := by
  have hhi : hi.toNat < 256 := hi.toNat_lt
  have hlo : lo.toNat < 2^8 := lo.toNat_lt
  rw [UInt16.toNat_or, UInt16.toNat_shiftLeft, UInt8.toNat_toUInt16, UInt8.toNat_toUInt16]
  show hi.toNat <<< 8 % 2^16 ||| lo.toNat = _
  rw [Nat.mod_eq_of_lt (by rw [Nat.shiftLeft_eq]; omega), ← Nat.shiftLeft_add_eq_or_of_lt hlo,
    Nat.shiftLeft_eq]

theorem crc16_bytes (m : Bytes) (p : ℕ) (n : UInt16) :
    ((crc16 m p n >>> 8).toUInt8, (crc16 m p n &&& 0xff).toUInt8) =
      crcLoop m p n.toNat (0xFF, 0xFF) := by
  unfold crc16
  generalize crcLoop m p n.toNat (0xFF, 0xFF) = crc
  have hhi : crc.1.toNat < 256 := crc.1.toNat_lt
  have hlo : crc.2.toNat < 256 := crc.2.toNat_lt
  apply Prod.ext <;> apply UInt8.toNat_inj.mp
  · rw [UInt16.toNat_toUInt8, UInt16.toNat_shiftRight]
    show (crc.1.toUInt16 <<< 8 ||| crc.2.toUInt16).toNat >>> 8 % 256 = _
    rw [toNat_word, Nat.shiftRight_eq_div_pow]
    omega
  · rw [UInt16.toNat_toUInt8, UInt16.toNat_and]
    show ((crc.1.toUInt16 <<< 8 ||| crc.2.toUInt16).toNat &&& (2^8 - 1)) % 256 = _
    rw [toNat_word, Nat.and_two_pow_sub_one_eq_mod]
    omega

variable {m : Bytes}

variable {dst src : ℕ}

theorem copyLoop_apply_of_out {n a : ℕ} (h : a < dst ∨ dst + n ≤ a) :
    copyLoop m dst src n a = m a := by
  induction n generalizing m dst src with
  | zero => rfl
  | succ n ih => rw [copyLoop, ih (by omega), update_of_ne (by omega)]

theorem slice_copyLoop {n : ℕ} (h : dst ≤ src ∨ src + n ≤ dst) :
    slice (copyLoop m dst src n) dst n = slice m src n := by
  induction n generalizing m dst src with
  | zero => rfl
  | succ n ih =>
    have hhead : copyLoop m dst src (n + 1) dst = m src := by
      rw [copyLoop, copyLoop_apply_of_out (by omega), update_self]
    have htail : slice (update m dst (m src)) (src + 1) n = slice m (src + 1) n := by
      apply slice_congr
      intro k hk
      exact update_of_ne (by omega) _ _
    rw [slice, slice, hhead, copyLoop, ih (by omega), htail]

theorem slice_constructRtuFrm (m : Bytes) (lenth : UInt8) (hlenth : lenth.toNat ≤ 253)
    (hdst : dst ≤ src ∨ src + lenth.toNat + 2 ≤ dst) :
    slice (constructRtuFrm m dst src lenth) dst (lenth.toNat + 2) =
      slice m src lenth.toNat ++ [(crcLoop m src lenth.toNat (0xFF, 0xFF)).1,
        (crcLoop m src lenth.toNat (0xFF, 0xFF)).2] := by
  have hsum : (lenth + 1 + 1).toNat = lenth.toNat + 2 := by
    rw [UInt8.toNat_add, UInt8.toNat_add]
    show ((lenth.toNat + 1) % 256 + 1) % 256 = lenth.toNat + 2
    omega
  have hbytes := crc16_bytes m src lenth.toUInt16
  rw [UInt8.toNat_toUInt16] at hbytes
  unfold constructRtuFrm
  rw [hsum, slice_copyLoop (by omega), slice_add, ← hbytes]
  congr 1
  · apply slice_congr
    intro k hk
    rw [update_of_ne (by omega), update_of_ne (by omega)]
  · simp only [slice]
    rw [update_of_ne (by omega), update_self, update_self]

theorem crc16_eq_zero_of_slice {p : ℕ} {message : List UInt8} {n : UInt16}
    (hn : n.toNat = message.length + 2)
    (h : slice m p (message.length + 2) = message ++ [(message.foldl crcStep (0xFF, 0xFF)).1,
      (message.foldl crcStep (0xFF, 0xFF)).2]) : crc16 m p n = 0 := by
  unfold crc16
  rw [crcLoop_eq_foldl, hn, h, foldl_append]
  simp only [foldl_cons, foldl_nil]
  rw [crcStep_crcStep]
  rfl

theorem crcMatches_iff {p k : ℕ} {n : UInt16} (hn : n.toNat = k + 2) : crcMatches m p n = true ↔
    (slice m p k).foldl crcStep (0xFF, 0xFF) = (m (p + k), m (p + k + 1)) := by
  have hk : (n - 2).toNat = k := by
    have hle : 2 ≤ n := UInt16.le_iff_toNat_le.mpr (hn ▸ Nat.le_add_left 2 k)
    rw [UInt16.toNat_sub_of_le _ _ hle, hn]
    rfl
  unfold crcMatches crc16
  rw [crcLoop_eq_foldl, hk, hn, beq_iff_eq, ← UInt16.toNat_inj, toNat_word, UInt16.toNat_add,
    UInt16.toNat_mul, UInt8.toNat_toUInt16, UInt8.toNat_toUInt16, Prod.ext_iff, ← UInt8.toNat_inj,
    ← UInt8.toNat_inj]
  generalize (slice m p k).foldl crcStep (0xFF, 0xFF) = crc
  show ((m (p + k)).toNat * 256 % 65536 + (m (p + k + 1)).toNat) % 65536 = _ ↔ _
  have h1 : (m (p + k)).toNat < 256 := UInt8.toNat_lt _
  have h2 : (m (p + k + 1)).toNat < 256 := UInt8.toNat_lt _
  have h3 : crc.1.toNat < 256 := UInt8.toNat_lt _
  have h4 : crc.2.toNat < 256 := UInt8.toNat_lt _
  dsimp only
  omega

theorem crcMatches_of_slice {p : ℕ} {message : List UInt8} {n : UInt16}
    (hn : n.toNat = message.length + 2)
    (h : slice m p (message.length + 2) = message ++ [(message.foldl crcStep (0xFF, 0xFF)).1,
      (message.foldl crcStep (0xFF, 0xFF)).2]) : crcMatches m p n = true := by
  rw [slice_add] at h
  obtain ⟨hmessage, htail⟩ := append_inj h (length_slice ..)
  simp only [slice, cons.injEq, and_true] at htail
  rw [crcMatches_iff hn, hmessage, htail.1, htail.2]

theorem crcMatches_constructRtuFrm (m : Bytes) (lenth : UInt8)
    (hlenth : lenth.toNat ≤ 253) (hdst : dst ≤ src ∨ src + lenth.toNat + 2 ≤ dst) :
    crc16 (constructRtuFrm m dst src lenth) dst (UInt16.ofNat (lenth.toNat + 2)) = 0 ∧
      crcMatches (constructRtuFrm m dst src lenth) dst (UInt16.ofNat (lenth.toNat + 2)) = true := by
  have hread := slice_constructRtuFrm m lenth hlenth hdst
  have hlength : (UInt16.ofNat (lenth.toNat + 2)).toNat = (slice m src lenth.toNat).length + 2 := by
    have hsize : lenth.toNat + 2 < UInt16.size := by
      show _ < 65536
      omega
    rw [length_slice, UInt16.toNat_ofNat_of_lt' hsize]
  rw [crcLoop_eq_foldl] at hread
  constructor
  · apply crc16_eq_zero_of_slice hlength
    rw [length_slice, hread]
  · apply crcMatches_of_slice hlength
    rw [length_slice, hread]

/-- The check is the one of the protocol, and the frames that are sent pass it. The buffer of the frame
must not begin inside the message; the callers pass different arrays. -/
theorem modbus_crc :
    (∀ (m : Bytes) (puchMsg : ℕ) (usDataLen : UInt16), (crc16 m puchMsg usDataLen).toBitVec =
      exchanged (crc16Modbus (slice m puchMsg usDataLen.toNat))) ∧
    ∀ (m : Bytes) (dst src : ℕ) (lenth : UInt8), lenth.toNat ≤ 253 →
      (dst ≤ src ∨ src + lenth.toNat + 2 ≤ dst) →
      (∃ hi lo, slice (constructRtuFrm m dst src lenth) dst (lenth.toNat + 2) =
        slice m src lenth.toNat ++ [hi, lo]) ∧
      crc16 (constructRtuFrm m dst src lenth) dst (UInt16.ofNat (lenth.toNat + 2)) = 0 ∧
      crcMatches (constructRtuFrm m dst src lenth) dst (UInt16.ofNat (lenth.toNat + 2)) = true := by
  constructor
  · exact crc16_eq_exchanged
  · intro m dst src lenth hlenth hdst
    exact ⟨⟨_, _, slice_constructRtuFrm m lenth hlenth hdst⟩,
      crcMatches_constructRtuFrm m lenth hlenth hdst⟩

/-- A message of six bytes. -/
theorem modbus_crc_sixBytes : (6 : UInt8).toNat ≤ 253 ∧
    crcMatches (constructRtuFrm (fun _ => 1) 0 100 6) 0 8 = true :=
  ⟨by decide, (modbus_crc.2 (fun _ => 1) 0 100 6 (by decide) (by decide)).2.2⟩

theorem remainder_frame {p : ℕ} {n : UInt16} (hn : 2 ≤ n.toNat) (h : crcMatches m p n = true) :
    crc16Modbus (slice m p n.toNat) = 0 := by
  obtain ⟨k, hk⟩ := Nat.exists_eq_add_of_le' hn
  have hcrc := (crcMatches_iff hk).mp h
  unfold crc16Modbus
  rw [hk, slice_add, show 0xFFFF#16 = wordOf (0xFF, 0xFF) by rfl, ← wordOf_foldl, foldl_append, hcrc]
  exact congrArg wordOf (crcStep_crcStep (m (p + k), m (p + k + 1)))

/-- An accepted frame in which one byte is changed, of the message or of the check, is refused. -/
theorem corrupted_frame_refused {p i : ℕ} {n : UInt16} {byte : UInt8} (hn : 2 ≤ n.toNat)
    (haccepted : crcMatches m p n = true) (hi : i < n.toNat) (hbyte : byte ≠ m (p + i)) :
    crcMatches (update m (p + i) byte) p n = false := by
  by_contra hmatches
  rw [Bool.not_eq_false] at hmatches
  have hsplit : ∀ m : Bytes, slice m p n.toNat =
      slice m p i ++ m (p + i) :: slice m (p + i + 1) (n.toNat - i - 1) := by
    intro m
    obtain ⟨j, hj⟩ := Nat.exists_eq_add_of_lt hi
    rw [hj, Nat.add_assoc, slice_add, show i + (j + 1) - i - 1 = j by omega]
    rfl
  have hsame : ∀ {a k}, (∀ j < k, a + j ≠ p + i) →
      slice (update m (p + i) byte) a k = slice m a k := fun h =>
    slice_congr fun j hj => update_of_ne (h j hj) _ _
  have hrem := (remainder_frame hn hmatches).trans (remainder_frame hn haccepted).symm
  rw [hsplit, hsplit, update_self, hsame (by omega), hsame (by omega)] at hrem
  exact hbyte (Crc.remainder_append_cons _ (by decide) (by decide) hrem)

/-- A request to read a register, with its last byte changed. -/
theorem corrupted_frame_refused_read :
    crcMatches (update (rtuReadHldreg (fun _ => 0) 64 0 1 16 2) (0 + 3) 0x55) 0 8 = false :=
  corrupted_frame_refused (by decide) (by decide +kernel) (by decide) (by decide +kernel)

end RtThread.Bsp
