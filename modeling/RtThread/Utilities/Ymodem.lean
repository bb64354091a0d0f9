import Mathlib.Data.List.Range
import RtThread.Lib.Run

/-!
# The order of YMODEM packets

The model of `_rym_trans_data` and `_rym_do_trans` of `components/utilities/ymodem/ymodem.c`. What
the sender delivers is a sequence of bytes and of pauses that are longer than the receiver waits.
One turn of the loop reads a code and the packet behind it, checks the complement of the packet's
number and the check sum, and hands the payload to `on_data`, whose reply is arbitrary. The number
itself is compared with nothing but 0, for the packet of the handshake that is repeated.
-/

namespace RtThread.Ymodem

open Lib List

/-- No code came in time. -/
def RYM_CODE_NONE : UInt8 := 0x00
/-- A packet of 128 bytes. -/
def RYM_CODE_SOH : UInt8 := 0x01
/-- A packet of 1024 bytes. -/
def RYM_CODE_STX : UInt8 := 0x02
/-- The end of the transmission. -/
def RYM_CODE_EOT : UInt8 := 0x04
/-- The packet was received. -/
def RYM_CODE_ACK : UInt8 := 0x06
/-- The transfer is given up. -/
def RYM_CODE_CAN : UInt8 := 0x18
/-- The receiver is ready. -/
def RYM_CODE_C : UInt8 := 0x43
/-- How often `RYM_CODE_CAN` is sent when `on_data` gives up. -/
def RYM_END_SESSION_SEND_CAN_NUM : ℕ := 7

/-- `ccitt_table`. -/
def ccittTable : Array (BitVec 16) := #[
  0x0000, 0x1021, 0x2042, 0x3063, 0x4084, 0x50A5, 0x60C6, 0x70E7, 0x8108, 0x9129, 0xA14A, 0xB16B,
  0xC18C, 0xD1AD, 0xE1CE, 0xF1EF, 0x1231, 0x0210, 0x3273, 0x2252, 0x52B5, 0x4294, 0x72F7, 0x62D6,
  0x9339, 0x8318, 0xB37B, 0xA35A, 0xD3BD, 0xC39C, 0xF3FF, 0xE3DE, 0x2462, 0x3443, 0x0420, 0x1401,
  0x64E6, 0x74C7, 0x44A4, 0x5485, 0xA56A, 0xB54B, 0x8528, 0x9509, 0xE5EE, 0xF5CF, 0xC5AC, 0xD58D,
  0x3653, 0x2672, 0x1611, 0x0630, 0x76D7, 0x66F6, 0x5695, 0x46B4, 0xB75B, 0xA77A, 0x9719, 0x8738,
  0xF7DF, 0xE7FE, 0xD79D, 0xC7BC, 0x48C4, 0x58E5, 0x6886, 0x78A7, 0x0840, 0x1861, 0x2802, 0x3823,
  0xC9CC, 0xD9ED, 0xE98E, 0xF9AF, 0x8948, 0x9969, 0xA90A, 0xB92B, 0x5AF5, 0x4AD4, 0x7AB7, 0x6A96,
  0x1A71, 0x0A50, 0x3A33, 0x2A12, 0xDBFD, 0xCBDC, 0xFBBF, 0xEB9E, 0x9B79, 0x8B58, 0xBB3B, 0xAB1A,
  0x6CA6, 0x7C87, 0x4CE4, 0x5CC5, 0x2C22, 0x3C03, 0x0C60, 0x1C41, 0xEDAE, 0xFD8F, 0xCDEC, 0xDDCD,
  0xAD2A, 0xBD0B, 0x8D68, 0x9D49, 0x7E97, 0x6EB6, 0x5ED5, 0x4EF4, 0x3E13, 0x2E32, 0x1E51, 0x0E70,
  0xFF9F, 0xEFBE, 0xDFDD, 0xCFFC, 0xBF1B, 0xAF3A, 0x9F59, 0x8F78, 0x9188, 0x81A9, 0xB1CA, 0xA1EB,
  0xD10C, 0xC12D, 0xF14E, 0xE16F, 0x1080, 0x00A1, 0x30C2, 0x20E3, 0x5004, 0x4025, 0x7046, 0x6067,
  0x83B9, 0x9398, 0xA3FB, 0xB3DA, 0xC33D, 0xD31C, 0xE37F, 0xF35E, 0x02B1, 0x1290, 0x22F3, 0x32D2,
  0x4235, 0x5214, 0x6277, 0x7256, 0xB5EA, 0xA5CB, 0x95A8, 0x8589, 0xF56E, 0xE54F, 0xD52C, 0xC50D,
  0x34E2, 0x24C3, 0x14A0, 0x0481, 0x7466, 0x6447, 0x5424, 0x4405, 0xA7DB, 0xB7FA, 0x8799, 0x97B8,
  0xE75F, 0xF77E, 0xC71D, 0xD73C, 0x26D3, 0x36F2, 0x0691, 0x16B0, 0x6657, 0x7676, 0x4615, 0x5634,
  0xD94C, 0xC96D, 0xF90E, 0xE92F, 0x99C8, 0x89E9, 0xB98A, 0xA9AB, 0x5844, 0x4865, 0x7806, 0x6827,
  0x18C0, 0x08E1, 0x3882, 0x28A3, 0xCB7D, 0xDB5C, 0xEB3F, 0xFB1E, 0x8BF9, 0x9BD8, 0xABBB, 0xBB9A,
  0x4A75, 0x5A54, 0x6A37, 0x7A16, 0x0AF1, 0x1AD0, 0x2AB3, 0x3A92, 0xFD2E, 0xED0F, 0xDD6C, 0xCD4D,
  0xBDAA, 0xAD8B, 0x9DE8, 0x8DC9, 0x7C26, 0x6C07, 0x5C64, 0x4C45, 0x3CA2, 0x2C83, 0x1CE0, 0x0CC1,
  0xEF1F, 0xFF3E, 0xCF5D, 0xDF7C, 0xAF9B, 0xBFBA, 0x8FD9, 0x9FF8, 0x6E17, 0x7E36, 0x4E55, 0x5E74,
  0x2E93, 0x3EB2, 0x0ED1, 0x1EF0]

/-- `CRC16`. -/
def crc16 (q : List UInt8) : BitVec 16 :=
  q.foldl (fun crc b => (crc <<< 8) ^^^
    ccittTable.getD (((crc >>> 8) ^^^ b.toBitVec.setWidth 16) &&& 0xff).toNat 0) 0

/-- The errors of a transfer. -/
inductive RymErr
  | code
  | seq
  | crc
  | dsz
  | can
  deriving DecidableEq

/-- Bytes, and pauses in which a wait of the receiver ends. -/
abbrev Stream := List (Option UInt8)

/-- `_rym_read_code`: a pause reads as no code. -/
def rymReadCode : Stream → UInt8 × Stream
  | some b :: stream => (b, stream)
  | none :: stream => (RYM_CODE_NONE, stream)
  | [] => (RYM_CODE_NONE, [])

/-- `_rym_read_data`: the bytes read, at most `len`, up to a pause. -/
def rymReadData : ℕ → Stream → List UInt8 × Stream
  | len + 1, some b :: stream =>
    let (bytes, rest) := rymReadData len stream
    (b :: bytes, rest)
  | _ + 1, none :: stream => ([], stream)
  | _ + 1, [] => ([], [])
  | 0, stream => ([], stream)

/-- What was read of a packet behind its code: the number with its complement, the payload of
`dataSz` bytes, and the check sum. -/
structure Packet where
  dataSz : ℕ
  buf : List UInt8

namespace Packet

variable (p : Packet)

/-- The number of the packet. -/
def number : UInt8 := p.buf.getD 0 0
/-- The data of the packet. -/
def payload : List UInt8 := (p.buf.drop 2).take p.dataSz

/-- The check sum that was sent. -/
def recvCrc : BitVec 16 :=
  ((p.buf.getD (p.dataSz + 2) 0).toBitVec.setWidth 16 <<< 8) |||
    (p.buf.getD (p.dataSz + 3) 0).toBitVec.setWidth 16

/-- All bytes of the packet have come. -/
def Complete : Prop := p.buf.length = 2 + p.dataSz + 2

/-- The second byte is the complement of the number. -/
def Complements : Prop := p.number.toNat + (p.buf.getD 1 0).toNat = 0xff

/-- The check sum is that of the data. -/
def CrcOk : Prop := p.recvCrc = crc16 p.payload

/-- A packet that passes all checks. -/
def Sound : Prop := p.Complete ∧ p.Complements ∧ p.CrcOk

instance : Decidable p.Complete := inferInstanceAs (Decidable (_ = _))
instance : Decidable p.Complements := inferInstanceAs (Decidable (_ = _))
instance : Decidable p.CrcOk := inferInstanceAs (Decidable (_ = _))
instance : Decidable p.Sound := inferInstanceAs (Decidable (_ ∧ _ ∧ _))

end Packet

/-- `_rym_read_data`, as it is called for a packet. -/
def readPacket (dataSz : ℕ) (stream : Stream) : Packet × Stream :=
  let (buf, stream) := rymReadData (2 + dataSz + 2) stream
  (⟨dataSz, buf⟩, stream)

/-- The receiver, with what it has handed on and sent. -/
structure Rym where
  /-- `RYM_STAGE_ESTABLISHED` or else `RYM_STAGE_TRANSMITTING`. -/
  established : Bool
  /-- What the sender is still going to deliver. -/
  stream : Stream
  /-- The packets whose payloads were handed to `on_data`. -/
  delivered : List Packet
  sent : List UInt8
  /-- What `_rym_do_trans` has returned, if it has. -/
  result : Option (Except RymErr Unit)

/-- The replies of `on_data`; without one every packet is acknowledged. -/
abbrev OnData := List Packet → UInt8

section

variable (onData : OnData) (r : Rym)

/-- `_rym_trans_data`: the code, or an error, and the receiver. -/
def rymTransData (dataSz : ℕ) : Except RymErr UInt8 × Rym :=
  let (p, stream) := readPacket dataSz r.stream
  let r := { r with stream := stream }
  if ¬p.Complete then (.error .dsz, r)
  else if ¬p.Complements then (.error .seq, r)
  else if r.established ∧ p.number = 0 then (.ok RYM_CODE_NONE, r)
  else
    let r := { r with established := false }
    if ¬p.CrcOk then (.error .crc, r)
    else
      let delivered := r.delivered ++ [p]
      (.ok (onData delivered), { r with delivered := delivered })

/-- The size of a packet, by its code. -/
def dataSize (code : UInt8) : Option ℕ :=
  if code = RYM_CODE_SOH then some 128 else if code = RYM_CODE_STX then some 1024 else none

/-- What follows in a turn when `_rym_trans_data` has returned. -/
def answer : Except RymErr UInt8 × Rym → Rym
  | (.error e, r) => { r with result := some (.error e) }
  | (.ok code, r) =>
    if code = RYM_CODE_CAN then
      { r with
        sent := r.sent ++ replicate RYM_END_SESSION_SEND_CAN_NUM RYM_CODE_CAN
        result := some (.error .can) }
    else if code = RYM_CODE_ACK then { r with sent := r.sent ++ [RYM_CODE_ACK] }
    else r

/-- One turn of the loop of `_rym_do_trans`. -/
def turn : Rym :=
  let (code, stream) := rymReadCode r.stream
  let r := { r with stream := stream }
  match dataSize code with
  | none => { r with result := some (if code = RYM_CODE_EOT then .ok () else .error .code) }
  | some dataSz => answer (rymTransData onData r dataSz)

/-- The packet that comes next. -/
def Rym.next : Option Packet :=
  let (code, stream) := rymReadCode r.stream
  (dataSize code).map fun dataSz => (readPacket dataSz stream).1

/-- The packet is handed on: it is sound, and not the one of the handshake again. -/
def Rym.Accepts (p : Packet) : Prop := p.Sound ∧ ¬(r.established ∧ p.number = 0)

/-- If the packet that comes next is handed on, it has the number behind the last one. -/
def Rym.Follows (_ : Unit) : Prop :=
  ∀ p ∈ r.next, r.Accepts p → p.number = UInt8.ofNat (r.delivered.length + 1)

instance (p : Packet) : Decidable (r.Accepts p) := inferInstanceAs (Decidable (_ ∧ ¬_))
instance (a : Unit) : Decidable (r.Follows a) :=
  inferInstanceAs (Decidable (∀ p ∈ r.next, _ → _))

/-- A turn, unless `_rym_do_trans` has returned. -/
def exec (_ : Unit) : Option Rym := if r.result = none then some (turn onData r) else none

/-- The runs of the loop, behind the handshake. -/
def transSystem : System Rym Unit where
  init := fun r => r.established = true ∧ r.delivered = [] ∧
    r.sent = [RYM_CODE_ACK, RYM_CODE_C] ∧ r.result = none
  step := fun r a r' => exec onData r a = some r'

end

variable {onData : OnData} {r : Rym}

theorem rymTransData_delivered (dataSz : ℕ) : (rymTransData onData r dataSz).2.delivered =
      if r.Accepts (readPacket dataSz r.stream).1 then
        r.delivered ++ [(readPacket dataSz r.stream).1] else r.delivered := by
  unfold rymTransData Rym.Accepts Packet.Sound
  dsimp only
  split_ifs <;> simp_all

theorem answer_delivered (x : Except RymErr UInt8 × Rym) :
    (answer x).delivered = x.2.delivered := by
  unfold answer
  split
  · rfl
  · split_ifs <;> rfl

theorem turn_delivered (onData : OnData) (r : Rym) :
    (∃ p ∈ r.next, r.Accepts p ∧ (turn onData r).delivered = r.delivered ++ [p]) ∨
      (turn onData r).delivered = r.delivered := by
  unfold turn Rym.next
  dsimp only
  cases dataSize (rymReadCode r.stream).1 with
  | none => exact Or.inr rfl
  | some size =>
    rw [answer_delivered, rymTransData_delivered]
    split_ifs with haccepts
    · exact Or.inl ⟨_, rfl, haccepts, rfl⟩
    · exact Or.inr rfl

/-- In every run in which the sound packets come in the order of their numbers, the packets handed
on are sound and numbered 1, 2, 3 and so on, modulo 256. Such a run has no repeated packet and no
gap. -/
theorem ymodem_order {r : Rym} (h : Reachable (transSystem onData) Rym.Follows r) :
    (∀ p ∈ r.delivered, p.Sound) ∧ r.delivered.map Packet.number =
      (range r.delivered.length).map fun i => UInt8.ofNat (i + 1) := by
  refine h.invariant ?_ ?_
  · rintro r ⟨-, hnone, -⟩
    rw [hnone]
    exact ⟨by simp, rfl⟩
  · intro r a r' ⟨hsound, hnumbers⟩ hfollows hstep
    obtain ⟨-, rfl⟩ : r.result = none ∧ turn onData r = r' := by
      simpa [transSystem, exec] using hstep
    rcases turn_delivered onData r with ⟨p, hnext, haccepts, hmore⟩ | hsame
    · rw [hmore]
      constructor
      · intro q hq
        rcases mem_append.mp hq with hq | hq
        · exact hsound q hq
        · rw [mem_singleton.mp hq]
          exact haccepts.1
      · rw [map_append, hnumbers, length_append, length_singleton, range_succ,
          map_append, map_singleton, map_singleton, hfollows p hnext haccepts]
    · rw [hsame]
      exact ⟨hsound, hnumbers⟩

/-- A packet of zeros, whose check sum is zero. -/
def zeros (number : UInt8) : Stream :=
  ([RYM_CODE_SOH, number, 0xff - number] ++ replicate 130 0).map some

/-- The receiver behind the handshake. -/
def listening (stream : Stream) : Rym := ⟨true, stream, [], [RYM_CODE_ACK, RYM_CODE_C], none⟩

/-- Two packets, with that of the handshake again in front. -/
theorem ymodem_order_two : ∃ r, Reachable (transSystem fun _ => RYM_CODE_ACK) Rym.Follows r ∧
    r.delivered.length = 2 ∧ r.delivered.map Packet.number =
      (range r.delivered.length).map fun i => UInt8.ofNat (i + 1) := by
  obtain ⟨r, hr, hlength⟩ : ∃ r, Reachable (transSystem fun _ => RYM_CODE_ACK) Rym.Follows r ∧
      r.delivered.length = 2 :=
    exists_reachable_of_exec
      (s := listening (zeros 0 ++ zeros 1 ++ zeros 2)) ⟨rfl, rfl, rfl, rfl⟩ [(), (), ()]
      (by decide +kernel)
  exact ⟨r, hr, hlength, (ymodem_order hr).2⟩

/-- A packet that is sent again is handed on again. -/
theorem repeated_packet_delivered : ∃ r, Reachable (transSystem fun _ => RYM_CODE_ACK) always r ∧
    r.delivered.map Packet.number = [1, 1] :=
  exists_reachable_of_exec
    (s := listening (zeros 1 ++ zeros 1)) ⟨rfl, rfl, rfl, rfl⟩ [(), ()] (by decide +kernel)

/-! ## What a sender transmits -/

/-- A packet as the protocol has it, with 128 or 1024 bytes of data. -/
def encode (number : UInt8) (data : List UInt8) : List UInt8 :=
  let crc := crc16 data
  (if data.length = 128 then RYM_CODE_SOH else RYM_CODE_STX) :: ([number, 0xff - number] ++ data ++
    [⟨(crc >>> 8).setWidth 8⟩, ⟨crc.setWidth 8⟩])

/-- The packets of a file, from the number `k + 1` on, and the end of the transmission. -/
def transmission : ℕ → List (List UInt8) → List UInt8
  | _, [] => [RYM_CODE_EOT]
  | k, data :: file => encode (UInt8.ofNat (k + 1)) data ++ transmission (k + 1) file

theorem rymReadData_append (bytes : List UInt8) (rest : Stream) :
    rymReadData bytes.length (bytes.map some ++ rest) = (bytes, rest) := by
  induction bytes with
  | nil => cases rest <;> rfl
  | cons b bytes ih => simp [rymReadData, ih]

theorem crc_bytes (crc : BitVec 16) :
    (((crc >>> 8).setWidth 8).setWidth 16 <<< 8) ||| (crc.setWidth 8).setWidth 16 = crc := by
  ext i hi
  simp
  grind

theorem readPacket_encode (number : UInt8) (data : List UInt8) (rest : Stream) :
    ∃ p, readPacket data.length ((encode number data).tail.map some ++ rest) = (p, rest) ∧
      p.Sound ∧ p.number = number ∧ p.payload = data := by
  have hread := rymReadData_append (encode number data).tail rest
  have hlength : (encode number data).tail.length = 2 + data.length + 2 := by
    simp [encode]
    omega
  have hpayload : (⟨data.length, (encode number data).tail⟩ : Packet).payload = data := by
    simp [Packet.payload, encode]
  rw [hlength] at hread
  refine ⟨⟨data.length, (encode number data).tail⟩, by rw [readPacket, hread], ⟨hlength, ?_, ?_⟩, rfl, hpayload⟩
  · have hle : number ≤ 0xff := UInt8.le_iff_toNat_le.mpr (Nat.le_of_lt_succ number.toNat_lt)
    change number.toNat + (0xff - number).toNat = 0xff
    rw [UInt8.toNat_sub_of_le _ _ hle]
    exact Nat.add_sub_cancel' (UInt8.le_iff_toNat_le.mp hle)
  · rw [Packet.CrcOk, hpayload, ← crc_bytes (crc16 data)]
    simp [Packet.recvCrc, encode, crc_bytes]

variable {data : List UInt8} {file : List (List UInt8)} {rest : Stream}

theorem turn_encode {number : UInt8} (hdata : data.length = 128 ∨ data.length = 1024)
    (hstream : r.stream = (encode number data).map some ++ rest) (hnumber : r.established → number ≠ 0) :
    ∃ p, p.payload = data ∧ turn (fun _ => RYM_CODE_ACK) r = { r with
      established := false, stream := rest, delivered := r.delivered ++ [p]
      sent := r.sent ++ [RYM_CODE_ACK] } := by
  obtain ⟨p, hread, hsound, hp, hpayload⟩ := readPacket_encode number data rest
  have hsize : dataSize (if data.length = 128 then RYM_CODE_SOH else RYM_CODE_STX) = some data.length := by
    rcases hdata with h | h <;> rw [h] <;> rfl
  have hcode : r.stream = some (if data.length = 128 then RYM_CODE_SOH else RYM_CODE_STX) ::
      ((encode number data).tail.map some ++ rest) := hstream
  refine ⟨p, hpayload, ?_⟩
  unfold turn
  rw [hcode, rymReadCode]
  dsimp only
  rw [hsize]
  unfold rymTransData
  dsimp only
  rw [hread]
  dsimp only
  have hnot : ¬(r.established = true ∧ p.number = 0) := by
    rw [hp]
    exact fun h => hnumber h.1 h.2
  rw [if_neg (not_not.mpr hsound.1), if_neg (not_not.mpr hsound.2.1), if_neg hnot,
    if_neg (not_not.mpr hsound.2.2)]
  rfl

/-- Every file that a sender transmits packet by packet is handed on as it is: the turns hand over its
data, acknowledge each packet once, and end without an error. -/
theorem transmission_delivered (hfile : ∀ data ∈ file, data.length = 128 ∨ data.length = 1024) {k : ℕ}
    (hresult : r.result = none) (hk : r.established → k = 0)
    (hstream : r.stream = (transmission k file).map some) :
    ∃ r', execAll (exec fun _ => RYM_CODE_ACK) r (replicate (file.length + 1) ()) = some r' ∧
      r'.result = some (.ok ()) ∧ r'.stream = [] ∧
      r'.delivered.map Packet.payload = r.delivered.map Packet.payload ++ file ∧
      r'.sent = r.sent ++ replicate file.length RYM_CODE_ACK := by
  have hstep : exec (fun _ => RYM_CODE_ACK) r () = some (turn (fun _ => RYM_CODE_ACK) r) := if_pos hresult
  induction file generalizing r k with
  | nil =>
    refine ⟨turn (fun _ => RYM_CODE_ACK) r, by simp [execAll, hstep], ?_⟩
    simp [turn, hstream, transmission, rymReadCode, dataSize, RYM_CODE_EOT, RYM_CODE_SOH, RYM_CODE_STX]
  | cons data file ih =>
    have hnumber : r.established → UInt8.ofNat (k + 1) ≠ 0 := fun h => by rw [hk h]; decide
    rw [transmission, map_append] at hstream
    obtain ⟨p, hp, hturn⟩ := turn_encode (hfile data mem_cons_self) hstream hnumber
    rw [hturn] at hstep
    obtain ⟨r', hr', hok, hend, hdelivered, hsent⟩ := ih (r := { r with
        established := false, stream := (transmission (k + 1) file).map some
        delivered := r.delivered ++ [p], sent := r.sent ++ [RYM_CODE_ACK] }) (k := k + 1)
      (fun d hd => hfile d (mem_cons_of_mem _ hd)) hresult (by simp) rfl (if_pos hresult)
    refine ⟨r', ?_, hok, hend, ?_, ?_⟩
    · rwa [length_cons, replicate_succ, execAll, hstep]
    · simp [hdelivered, hp]
    · simp [hsent, replicate_succ]

/-- A file of two packets. -/
theorem transmission_delivered_two : ∃ r', execAll (exec fun _ => RYM_CODE_ACK) (listening
      ((transmission 0 [replicate 128 7, replicate 1024 9]).map some)) [(), (), ()] = some r' ∧
    r'.result = some (.ok ()) ∧ r'.delivered.map Packet.payload = [replicate 128 7, replicate 1024 9] := by
  have hfile : ∀ data ∈ [replicate 128 (7 : UInt8), replicate 1024 9],
      data.length = 128 ∨ data.length = 1024 := by
    intro data h
    rcases mem_pair.mp h with rfl | rfl
    · exact .inl length_replicate
    · exact .inr length_replicate
  obtain ⟨r', hr', hok, -, hdata, -⟩ := transmission_delivered (r := listening _) hfile rfl (fun _ => rfl) rfl
  exact ⟨r', hr', hok, hdata⟩

end RtThread.Ymodem
