import RtThread.Kernel.Model
import RtThread.Lib.Queue
import RtThread.Lib.Run

/-!
# The receive FIFO of a serial device

A serial device that receives by DMA or by interrupts keeps the bytes in a ring with a put index, a
get index and the flag `is_full`. With DMA the flag tells a full ring from an empty one when the
indices are equal (`DmaFilled`). But `rt_dma_recv_update_put_index` does not look at the flag: when a
full ring receives fewer than `bufsz` bytes, the get index stays and most of the stored bytes are lost.
With interrupts one place of the ring stays free, and the flag is only a trace of the last overflow
(`IntFilled`). A buffer of one byte is an exception, in which the flag is all that counts.
-/

namespace RtThread

open Lib Function List Nat

/-- `struct rt_serial_rx_fifo`, with the size of the buffer from the configuration of the device. -/
structure SerialRxFifo where
  bufsz : ℕ
  buffer : ℕ → UInt8
  putIndex : ℕ
  getIndex : ℕ
  isFull : Bool

/-- The FIFO when the device is opened. -/
def SerialRxFifo.opened (bufsz : ℕ) : SerialRxFifo where
  bufsz := bufsz
  buffer := fun _ => 0
  putIndex := 0
  getIndex := 0
  isFull := false

variable (f : SerialRxFifo)

/-- The bytes stored from the get index on. -/
def SerialRxFifo.view (used : ℕ) : List UInt8 := fifo f.buffer f.bufsz f.getIndex used

/-! ## Reception by DMA -/

/-- `_serial_fifo_calc_recved_len`: the flag decides when the indices are equal. -/
def serialFifoCalcRecvedLen : ℕ :=
  if f.putIndex = f.getIndex then
    if f.isFull = false then 0 else f.bufsz
  else if f.putIndex > f.getIndex then f.putIndex - f.getIndex
  else sub32 f.bufsz (f.getIndex - f.putIndex)

/-- `rt_dma_calc_recved_len`. -/
def rtDmaCalcRecvedLen : ℕ := serialFifoCalcRecvedLen f

/-- `rt_dma_recv_update_get_index`, with its assertion. -/
def rtDmaRecvUpdateGetIndex (len : ℕ) : Except Fault SerialRxFifo :=
  if len ≤ rtDmaCalcRecvedLen f then
    let getIndex := (f.getIndex + len) % 2^16
    .ok { f with
      isFull := if f.isFull = true ∧ len ≠ 0 then false else f.isFull
      getIndex := if getIndex > f.bufsz then getIndex % f.bufsz else getIndex }
  else .error .assertion

/-- The two cases of `rt_dma_recv_update_put_index`. -/
def SerialRxFifo.advancePut (len : ℕ) : SerialRxFifo :=
  let put := (f.putIndex + len) % 2^16
  if f.getIndex ≤ f.putIndex then
    if put ≥ f.bufsz then
      -- Beyond the end.
      if put % f.bufsz ≥ f.getIndex then
        { f with putIndex := put % f.bufsz, getIndex := put % f.bufsz, isFull := true }
      else { f with putIndex := put % f.bufsz }
    else { f with putIndex := put }
  else if put ≥ f.getIndex then
    let put := if put ≥ f.bufsz then put % f.bufsz else put
    { f with putIndex := put, getIndex := put, isFull := true }
  else { f with putIndex := put }

/-- `rt_dma_recv_update_put_index`. -/
def rtDmaRecvUpdatePutIndex (len : ℕ) : SerialRxFifo :=
  let f := f.advancePut len
  if f.getIndex ≥ f.bufsz then { f with getIndex := 0 } else f

/-- `rt_hw_serial_isr` for `RT_SERIAL_EVENT_RX_DMADONE`: the FIFO, and the length that goes to
`rx_indicate`. The event carries the number of new bytes above its lowest byte. -/
def rtHwSerialIsrDmadone (event : ℕ) : SerialRxFifo × ℕ :=
  let length := event / 2^8
  let f := rtDmaRecvUpdatePutIndex f length
  (f, rtDmaCalcRecvedLen f)

/-- `_serial_dma_rx` with a buffer: the FIFO, the number of bytes read, and the memory at `data`.
The length is compared as an unsigned number. -/
def serialDmaRx (data : ℕ → UInt8) (length : ℤ) : Except Fault (SerialRxFifo × ℕ × (ℕ → UInt8)) := do
  let length := (length % 2^32).toNat
  let fifoRecvedLen := rtDmaCalcRecvedLen f
  let recvLen := if length < fifoRecvedLen then length else fifoRecvedLen
  let data :=
    if f.getIndex + recvLen < f.bufsz then memcpy data 0 f.buffer f.getIndex recvLen
    else memcpy (memcpy data 0 f.buffer f.getIndex (f.bufsz - f.getIndex)) (f.bufsz - f.getIndex) f.buffer 0
      (recvLen + f.getIndex - f.bufsz)
  let f ← rtDmaRecvUpdateGetIndex f recvLen
  return (f, recvLen, data)

/-- The FIFO has `used` bytes from the get index on. The get index may be at the end of the buffer,
unless the FIFO is full. -/
structure DmaFilled (f : SerialRxFifo) (used : ℕ) : Prop where
  pos : 0 < f.bufsz
  small : f.bufsz < 2^15
  get_le : f.getIndex ≤ f.bufsz
  used_le : used ≤ f.bufsz
  put : f.putIndex = (f.getIndex + used) % f.bufsz
  full : f.isFull = true ↔ used = f.bufsz
  full_get : used = f.bufsz → f.getIndex < f.bufsz

variable {data : ℕ → UInt8}

namespace DmaFilled

variable {f : SerialRxFifo} {used : ℕ}

section

variable (h : DmaFilled f used)
include h

theorem put_cases : f.putIndex = f.getIndex + used ∧ f.getIndex + used < f.bufsz ∨
      f.putIndex = f.getIndex + used - f.bufsz ∧ f.bufsz ≤ f.getIndex + used := by
  have hget := h.get_le
  have hused := h.used_le
  have hfull := h.full_get
  rw [h.put]
  exact mod_cases (by omega)

theorem put_lt : f.putIndex < f.bufsz := by
  rw [h.put]
  exact mod_lt _ h.pos

theorem isFull_eq : f.isFull = decide (used = f.bufsz) := by
  rw [Bool.eq_iff_iff, h.full, decide_eq_true_iff]

theorem recvedLen : rtDmaCalcRecvedLen f = used := by
  have hused := h.used_le
  have hsmall := h.small
  unfold rtDmaCalcRecvedLen serialFifoCalcRecvedLen
  rw [h.isFull_eq]
  rcases h.put_cases with ⟨hput, hlt⟩ | ⟨hput, hle⟩
  · -- The bytes do not reach the end of the buffer.
    rw [decide_eq_false (by omega : ¬used = f.bufsz), if_pos rfl]
    split_ifs <;> omega
  · by_cases hall : used = f.bufsz
    · rw [decide_eq_true hall, if_pos (by omega), if_neg (by decide), hall]
    · rw [if_neg (by omega), if_neg (by omega), sub32_eq (by omega) (by omega)]
      omega

end

variable {len : ℕ}

section

variable (h : DmaFilled f used)
include h

theorem put_add_cases (hlen : len ≤ f.bufsz) :
    (f.putIndex + len) % f.bufsz = f.putIndex + len ∧ f.putIndex + len < f.bufsz ∨
      (f.putIndex + len) % f.bufsz = f.putIndex + len - f.bufsz ∧ f.bufsz ≤ f.putIndex + len := by
  have hput := h.put_lt
  exact mod_cases (by omega)

theorem put_add_word (hlen : len ≤ f.bufsz) : (f.putIndex + len) % 2^16 = f.putIndex + len := by
  have hsmall := h.small
  have hput := h.put_lt
  exact mod_eq_of_lt (by omega)

theorem write (buffer : ℕ → UInt8) : DmaFilled { f with buffer := buffer } used :=
  ⟨h.pos, h.small, h.get_le, h.used_le, h.put, h.full, h.full_get⟩

theorem advancePut_fits (hfits : used + len < f.bufsz) :
    f.advancePut len = { f with putIndex := (f.putIndex + len) % f.bufsz } := by
  have hget := h.get_le
  have hlen : len ≤ f.bufsz := by omega
  have hmod := h.put_add_cases hlen
  have hcases := h.put_cases
  unfold SerialRxFifo.advancePut
  rw [h.put_add_word hlen]
  by_cases hle : f.getIndex ≤ f.putIndex
  · by_cases hend : f.putIndex + len ≥ f.bufsz
    · rw [if_pos hle, if_pos hend, if_neg (by omega)]
    · rw [if_pos hle, if_neg hend, mod_eq_of_lt (not_le.mp hend)]
  · rw [if_neg hle, if_neg (by omega), mod_eq_of_lt (by omega)]

end

section

variable {len : ℕ} (h : DmaFilled f used) (hlen : len ≤ f.bufsz) (hroom : f.isFull = true → len = f.bufsz)
include h hlen hroom

theorem advancePut_fills (hfills : f.bufsz ≤ used + len) :
    f.advancePut len = { f with
      putIndex := (f.putIndex + len) % f.bufsz, getIndex := (f.putIndex + len) % f.bufsz, isFull := true } := by
  have hused := h.used_le
  have hfull : used = f.bufsz → len = f.bufsz := fun hall => hroom (h.full.mpr hall)
  have hmod := h.put_add_cases hlen
  have hcases := h.put_cases
  unfold SerialRxFifo.advancePut
  rw [h.put_add_word hlen]
  by_cases hle : f.getIndex ≤ f.putIndex
  · -- The bytes go beyond the end and up to the get index.
    rw [if_pos hle, if_pos (by omega), if_pos (by omega)]
  · have hwrap : (if f.putIndex + len ≥ f.bufsz then (f.putIndex + len) % f.bufsz else f.putIndex + len) =
        (f.putIndex + len) % f.bufsz := by
      split_ifs <;> omega
    rw [if_neg hle, if_pos (by omega), hwrap]

theorem updatePutIndex : rtDmaRecvUpdatePutIndex f len =
    { f with
      putIndex := (f.putIndex + len) % f.bufsz
      getIndex := (f.getIndex + (used + len - f.bufsz)) % f.bufsz
      isFull := decide (f.bufsz ≤ used + len) } := by
  have hget := h.get_le
  unfold rtDmaRecvUpdatePutIndex
  by_cases hfills : f.bufsz ≤ used + len
  · -- The bytes given up bring the get index to the new put index.
    have hsame : (f.getIndex + (used + len - f.bufsz)) % f.bufsz = (f.putIndex + len) % f.bufsz := by
      rw [h.put, mod_add_mod, ← add_mod_right]
      congr 1
      omega
    have hlt := mod_lt (f.putIndex + len) h.pos
    rw [h.advancePut_fills hlen hroom hfills, hsame, decide_eq_true hfills]
    exact if_neg (not_le.mpr hlt)
  · have hfull : f.isFull = false := by
      rw [h.isFull_eq]
      exact decide_eq_false (by omega)
    rw [h.advancePut_fits (not_le.mp hfills), decide_eq_false hfills, ← hfull,
      Nat.sub_eq_zero_of_le (by omega), Nat.add_zero]
    by_cases hend : f.getIndex ≥ f.bufsz
    · rw [if_pos hend, Nat.le_antisymm hget hend, Nat.mod_self]
    · rw [if_neg hend, mod_eq_of_lt (not_le.mp hend)]

theorem done {buffer : ℕ → UInt8} (hw : RingWrite f.buffer buffer f.bufsz f.putIndex data len) :
    DmaFilled (rtDmaRecvUpdatePutIndex { f with buffer := buffer } len) (min f.bufsz (used + len)) ∧
      (rtDmaRecvUpdatePutIndex { f with buffer := buffer } len).view (min f.bufsz (used + len)) =
        overwrite f.bufsz (f.view used) ((range len).map data) := by
  have hused := h.used_le
  rw [(h.write buffer).updatePutIndex hlen hroom]
  have hnumber : used + len - (used + len - f.bufsz) = min f.bufsz (used + len) := by omega
  constructor
  · refine ⟨h.pos, h.small, ?_, min_le_left _ _, ?_, ?_, fun _ => mod_lt _ h.pos⟩
    · exact (mod_lt _ h.pos).le
    · change (f.putIndex + len) % f.bufsz =
        ((f.getIndex + (used + len - f.bufsz)) % f.bufsz + min f.bufsz (used + len)) % f.bufsz
      rw [h.put, mod_add_mod, mod_add_mod]
      congr 1
      omega
    · change decide (f.bufsz ≤ used + len) = true ↔ min f.bufsz (used + len) = f.bufsz
      rw [decide_eq_true_iff]
      omega
  · change fifo buffer f.bufsz ((f.getIndex + (used + len - f.bufsz)) % f.bufsz) (min f.bufsz (used + len)) = _
    -- The block starts behind the stored bytes, and the view drops its oldest ones.
    have hblock : RingWrite f.buffer buffer f.bufsz (f.getIndex + used) data len := RingWrite.of_mod (h.put ▸ hw)
    rw [fifo_mod, ← hnumber, fifo_write hblock hused (by omega)]
    unfold overwrite SerialRxFifo.view
    rw [length_fifo, length_map, length_range]

end

/-- A read by DMA takes the oldest bytes. -/
theorem updateGetIndex (h : DmaFilled f used) (hlen : len ≤ used) :
    ∃ f', rtDmaRecvUpdateGetIndex f len = .ok f' ∧ DmaFilled f' (used - len) ∧ f'.bufsz = f.bufsz ∧
      f'.putIndex = f.putIndex ∧ f'.view (used - len) = (f.view used).drop len := by
  have hsmall := h.small
  have hget := h.get_le
  have hused := h.used_le
  have hfull := h.full_get
  have hword : (f.getIndex + len) % 2^16 = f.getIndex + len := mod_eq_of_lt (by omega)
  -- The new get index, as a place in the ring.
  obtain ⟨get, hnew⟩ : ∃ get, get = if f.getIndex + len > f.bufsz then (f.getIndex + len) % f.bufsz else f.getIndex + len :=
    ⟨_, rfl⟩
  have hmod : (f.getIndex + len) % f.bufsz = f.getIndex + len ∧ f.getIndex + len < f.bufsz ∨
      (f.getIndex + len) % f.bufsz = f.getIndex + len - f.bufsz ∧ f.bufsz ≤ f.getIndex + len := mod_cases (by omega)
  have hle : get ≤ f.bufsz := by
    rw [hnew]
    split_ifs <;> omega
  have hplace : get % f.bufsz = (f.getIndex + len) % f.bufsz := by
    rw [hnew]
    split_ifs
    · exact mod_mod _ _
    · rfl
  have hok : rtDmaRecvUpdateGetIndex f len =
      .ok { f with isFull := if f.isFull = true ∧ len ≠ 0 then false else f.isFull, getIndex := get } := by
    unfold rtDmaRecvUpdateGetIndex
    rw [if_pos (by rw [h.recvedLen]; exact hlen)]
    rw [hword, hnew]
  refine ⟨_, hok, ⟨h.pos, h.small, hle, ?_, ?_, ?_, ?_⟩, rfl, rfl, ?_⟩
  · exact le_trans (sub_le _ _) h.used_le
  · rw [h.put, ← mod_add_mod get, hplace, mod_add_mod]
    congr 1
    omega
  · change (if f.isFull = true ∧ len ≠ 0 then false else f.isFull) = true ↔ used - len = f.bufsz
    split_ifs with hread
    · have hall := h.full.mp hread.1
      simp only [false_iff]
      omega
    · have hkept : f.isFull = true → len = 0 := fun htrue => by
        by_contra hlen
        exact hread ⟨htrue, hlen⟩
      rw [h.full] at hkept ⊢
      omega
  · intro hall
    change used - len = f.bufsz at hall
    have hzero : len = 0 := by omega
    have hlt := hfull (by omega)
    rw [hnew, hzero, Nat.add_zero, if_neg (by omega)]
    exact hlt
  · change fifo f.buffer f.bufsz get (used - len) = (fifo f.buffer f.bufsz f.getIndex used).drop len
    rw [drop_fifo, ← fifo_mod, hplace, fifo_mod]

theorem copied (h : DmaFilled f used) (hlen : len ≤ used) (data : ℕ → UInt8) :
    (range len).map (if f.getIndex + len < f.bufsz then memcpy data 0 f.buffer f.getIndex len
      else memcpy (memcpy data 0 f.buffer f.getIndex (f.bufsz - f.getIndex)) (f.bufsz - f.getIndex) f.buffer 0
        (len + f.getIndex - f.bufsz)) = (f.view used).take len := by
  have hget := h.get_le
  have hused := h.used_le
  unfold SerialRxFifo.view
  rw [take_fifo hlen]
  refine map_congr_left fun i hi => ?_
  rw [mem_range] at hi
  by_cases hfits : f.getIndex + len < f.bufsz
  · rw [if_pos hfits, memcpy_fifo hfits.le hi]
  · rw [if_neg hfits, show len + f.getIndex - f.bufsz = len - (f.bufsz - f.getIndex) by omega,
      memcpy_fifo_wrap hget (by omega) hi]

theorem read (h : DmaFilled f used) (data : ℕ → UInt8) (length : ℤ) :
    ∃ f' data', serialDmaRx f data length = .ok (f', min (length % 2^32).toNat used, data') ∧
      DmaFilled f' (used - (length % 2^32).toNat) ∧ f'.bufsz = f.bufsz ∧ f'.putIndex = f.putIndex ∧
      f'.view (used - (length % 2^32).toNat) = (f.view used).drop (length % 2^32).toNat ∧
      (range (min (length % 2^32).toNat used)).map data' = (f.view used).take (length % 2^32).toNat := by
  obtain ⟨len, hlen⟩ : ∃ len, len = (length % 2^32).toNat := ⟨_, rfl⟩
  -- The length asked for is cut down to what there is.
  have hif : (if len < used then len else used) = min len used := by
    split_ifs <;> omega
  have hview : (f.view used).length = used := length_fifo
  have hdrop : (f.view used).drop (min len used) = (f.view used).drop len := by
    rw [drop_eq_drop_min (i := len), hview]
  obtain ⟨f', hok, hfilled, hbufsz, hput, hview'⟩ := h.updateGetIndex (min_le_right len used)
  rw [← hlen]
  have htake : (f.view used).take (min len used) = (f.view used).take len := by
    rw [take_eq_take_min (i := len), hview]
  rw [show used - min len used = used - len by omega] at hfilled hview'
  refine ⟨f', _, ?_, hfilled, hbufsz, hput, hview'.trans hdrop, (h.copied (min_le_right len used) data).trans htake⟩
  unfold serialDmaRx
  dsimp only
  rw [h.recvedLen, ← hlen, hif, hok]
  rfl

end DmaFilled

/-! ### Runs -/

/-- The steps with DMA. -/
inductive DmaAct
  /-- The controller has written the bytes, and its interrupt reports them. -/
  | done (data : ℕ → UInt8) (length : ℕ)
  /-- A thread reads. -/
  | read (data : ℕ → UInt8) (length : ℤ)

/-- The FIFO, the place at which the controller goes on writing, and the bytes received that are
neither read nor overwritten. -/
structure DmaRun where
  fifo : SerialRxFifo
  place : ℕ
  unread : List UInt8

/-- The event with which the driver reports received bytes. -/
def RT_SERIAL_EVENT_RX_DMADONE : ℕ := 0x03

/-- The state after the step, if it can be taken. -/
def DmaAct.exec (s : DmaRun) : DmaAct → Option DmaRun
  | .done data length =>
    if 0 < length ∧ length ≤ s.fifo.bufsz then
      let buffer := writeRing s.fifo.buffer s.fifo.bufsz s.place data length
      let event := length * 2^8 + RT_SERIAL_EVENT_RX_DMADONE
      some
        { fifo := (rtHwSerialIsrDmadone { s.fifo with buffer := buffer } event).1
          place := (s.place + length) % s.fifo.bufsz
          unread := overwrite s.fifo.bufsz s.unread ((range length).map data) }
    else none
  | .read data length =>
    match serialDmaRx s.fifo data length with
    | .ok (fifo, _) => some { s with fifo := fifo, unread := s.unread.drop (length % 2^32).toNat }
    | .error _ => none

/-- A full FIFO receives a whole buffer or nothing. -/
def DmaAct.roomy (s : DmaRun) : DmaAct → Prop
  | .done _ length => s.fifo.isFull = true → length = s.fifo.bufsz
  | .read _ _ => True

instance (s : DmaRun) (a : DmaAct) : Decidable (a.roomy s) := by
  cases a <;> unfold DmaAct.roomy <;> infer_instance

/-- The runs of a device that has been opened for reception by DMA. -/
def dmaSystem (bufsz : ℕ) : System DmaRun DmaAct where
  init s := s = ⟨.opened bufsz, 0, []⟩
  step s a s' := a.exec s = some s'

/-- The FIFO stores the unread bytes, and the controller is at the put index. -/
structure DmaRun.Stores (s : DmaRun) : Prop where
  filled : DmaFilled s.fifo s.unread.length
  view : s.fifo.view s.unread.length = s.unread
  place : s.place = s.fifo.putIndex

namespace DmaRun.Stores

variable {s s' : DmaRun}

theorem done {length : ℕ} (h : s.Stores) (hroomy : (DmaAct.done data length).roomy s)
    (hs : (DmaAct.done data length).exec s = some s') : s'.Stores ∧ s'.fifo.bufsz = s.fifo.bufsz := by
  rw [DmaAct.exec] at hs
  split_ifs at hs with hlength
  obtain ⟨-, hlength⟩ := hlength
  -- The interrupt handler reads the length from the event's upper bits.
  have hdecode : (length * 2^8 + RT_SERIAL_EVENT_RX_DMADONE) / 2^8 = length := by
    unfold RT_SERIAL_EVENT_RX_DMADONE
    omega
  obtain ⟨buffer, hbuffer⟩ : ∃ buffer, buffer = writeRing s.fifo.buffer s.fifo.bufsz s.place data length := ⟨_, rfl⟩
  have hw : RingWrite s.fifo.buffer buffer s.fifo.bufsz s.fifo.putIndex data length := by
    rw [hbuffer, h.place]
    exact ringWrite_writeRing hlength
  dsimp only [rtHwSerialIsrDmadone] at hs
  rw [hdecode, ← hbuffer] at hs
  cases hs
  obtain ⟨hfilled, hview⟩ := h.filled.done hlength hroomy hw
  have hlen : (overwrite s.fifo.bufsz s.unread ((range length).map data)).length =
      min s.fifo.bufsz (s.unread.length + length) := by
    rw [length_overwrite, length_map, length_range]
  have hindex := (h.filled.write buffer).updatePutIndex hlength hroomy
  refine ⟨⟨?_, ?_, ?_⟩, ?_⟩
  · rwa [hlen]
  · rw [hlen, hview, h.view]
  · rw [hindex, h.place]
  · rw [hindex]

theorem read {length : ℤ} (h : s.Stores) (hs : (DmaAct.read data length).exec s = some s') :
    s'.Stores ∧ s'.fifo.bufsz = s.fifo.bufsz := by
  obtain ⟨f', data', hok, hfilled, hbufsz, hput, hview, -⟩ := h.filled.read data length
  rw [DmaAct.exec, hok] at hs
  cases hs
  refine ⟨⟨?_, ?_, ?_⟩, hbufsz⟩
  · rwa [length_drop]
  · rw [length_drop, hview, h.view]
  · exact h.place.trans hput.symm

theorem exec {a : DmaAct} (h : s.Stores) (hroomy : a.roomy s) (hs : a.exec s = some s') :
    s'.Stores ∧ s'.fifo.bufsz = s.fifo.bufsz := by
  cases a with
  | done data length => exact h.done hroomy hs
  | read data length => exact h.read hs

end DmaRun.Stores

/-- In every run in which a full FIFO receives a whole buffer or nothing, `rt_dma_calc_recved_len`
is the number of bytes received that are neither read nor overwritten, and a read returns the oldest
of them, in their order. -/
theorem dma_fifo {bufsz : ℕ} {s : DmaRun} (hpos : 1 ≤ bufsz) (hsmall : bufsz ≤ 32767)
    (h : Reachable (dmaSystem bufsz) DmaAct.roomy s) :
    rtDmaCalcRecvedLen s.fifo = min bufsz s.unread.length ∧ s.unread.length ≤ bufsz ∧
      ∀ data length, ∃ fifo' data',
        serialDmaRx s.fifo data length = .ok (fifo', min (length % 2^32).toNat s.unread.length, data') ∧
          (range (min (length % 2^32).toNat s.unread.length)).map data' =
            s.unread.take (length % 2^32).toNat := by
  have hinv : s.Stores ∧ s.fifo.bufsz = bufsz := by
    refine h.invariant ?_ ?_
    · rintro s rfl
      have hempty : DmaFilled (.opened bufsz) 0 :=
        { pos := hpos
          small := lt_succ_of_le hsmall
          get_le := zero_le _
          used_le := zero_le _
          put := (zero_mod _).symm
          full := ⟨fun hfull => absurd hfull Bool.false_ne_true, fun hzero => absurd hzero (Nat.ne_of_lt hpos)⟩
          full_get := fun hzero => absurd hzero (Nat.ne_of_lt hpos) }
      exact ⟨⟨hempty, rfl, rfl⟩, rfl⟩
    · rintro s a s' ⟨hstores, hbufsz⟩ hroomy hs
      obtain ⟨hstores', hbufsz'⟩ := hstores.exec hroomy hs
      exact ⟨hstores', hbufsz'.trans hbufsz⟩
  obtain ⟨hstores, hbufsz⟩ := hinv
  have hle : s.unread.length ≤ bufsz := hbufsz ▸ hstores.filled.used_le
  refine ⟨?_, hle, fun data length => ?_⟩
  · rw [hstores.filled.recvedLen, min_eq_right hle]
  · obtain ⟨fifo', data', hok, -, -, -, -, hout⟩ := hstores.filled.read data length
    rw [hstores.view] at hout
    exact ⟨fifo', data', hok, hout⟩

/-- A run in which the get index stays at the end of the buffer, and then the ring is filled. -/
theorem dma_fifo_run : ∃ s : DmaRun, Reachable (dmaSystem 2) DmaAct.roomy s ∧ s.unread = [4, 5] ∧
    rtDmaCalcRecvedLen s.fifo = min 2 s.unread.length := by
  refine exists_reachable_and ?_ fun s hs _ => (dma_fifo (by decide) (by decide) hs).1
  refine exists_reachable_of_exec rfl [.done (fun _ => 1) 2, .read (fun _ => 0) 2, .done (fun _ => 3) 1,
      .done (fun i => if i = 0 then 4 else 5) 2] ?_
  decide

/-- A FIFO of two bytes is full and receives a third one: only one byte is left. -/
theorem full_fifo_loses : ∃ s : DmaRun, Reachable (dmaSystem 2) always s ∧ s.unread = [2, 3] ∧
    rtDmaCalcRecvedLen s.fifo = 1 := by
  refine exists_reachable_of_exec rfl [.done (fun i => if i = 0 then 1 else 2) 2, .done (fun _ => 3) 1] ?_
  decide

/-! ## Reception by interrupts -/

/-- An index moves on, and to zero at the end of the buffer. -/
def nextIndex (bufsz index : ℕ) : ℕ :=
  let index := (index + 1) % 2^16
  if index ≥ bufsz then 0 else index

/-- What `rt_hw_serial_isr` does with a character that it has got for `RT_SERIAL_EVENT_RX_IND`, with
interrupts off. -/
def rtHwSerialIsrRxInd (ch : UInt8) : SerialRxFifo :=
  let put := nextIndex f.bufsz f.putIndex
  let f := { f with buffer := update f.buffer f.putIndex ch, putIndex := put }
  -- The next position is the read index: the oldest character is discarded.
  if put = f.getIndex then { f with getIndex := nextIndex f.bufsz f.getIndex, isFull := true } else f

/-- A pass through the loop of `_serial_int_rx`, with interrupts off. There is no result if there is
no data. -/
def serialIntRxPass : Option (UInt8 × SerialRxFifo) :=
  if f.getIndex = f.putIndex ∧ f.isFull = false then none
  else some (f.buffer f.getIndex,
    { f with getIndex := nextIndex f.bufsz f.getIndex, isFull := if f.isFull = true then false else f.isFull })

/-- The bytes that fit: one place of the buffer stays free, unless it has only one. -/
def SerialRxFifo.cap : ℕ := max 1 (f.bufsz - 1)

/-- The FIFO has `used` bytes from the get index on. The flag is a trace of the last overflow; only
in a buffer of one byte it has to be set. -/
structure IntFilled (f : SerialRxFifo) (used : ℕ) : Prop where
  pos : 0 < f.bufsz
  small : f.bufsz < 2^16
  get_lt : f.getIndex < f.bufsz
  used_le : used ≤ f.cap
  put : f.putIndex = (f.getIndex + used) % f.bufsz
  full : f.isFull = true → used = f.cap
  single : f.bufsz = 1 → used = 1 → f.isFull = true

namespace IntFilled

variable {f : SerialRxFifo} {used : ℕ}

section

variable (h : IntFilled f used)
include h

theorem put_lt : f.putIndex < f.bufsz := by
  rw [h.put]
  exact mod_lt _ h.pos

theorem used_le_bufsz : used ≤ f.bufsz := by
  have hpos := h.pos
  have hused := h.used_le
  unfold SerialRxFifo.cap at hused
  omega

theorem next_eq {index : ℕ} (hindex : index < f.bufsz) :
    nextIndex f.bufsz index = (index + 1) % f.bufsz := by
  have hsmall := h.small
  unfold nextIndex
  rw [mod_eq_of_lt (by omega : index + 1 < 2^16)]
  exact wrap_eq_mod hindex

theorem empty_iff : f.getIndex = f.putIndex ∧ f.isFull = false ↔ used = 0 := by
  have hused := h.used_le
  have hget := h.get_lt
  have hfull := h.full
  unfold SerialRxFifo.cap at hused hfull
  constructor
  · rintro ⟨heq, hnot⟩
    -- A buffer of one byte is told from an empty one by its flag only.
    by_cases hone : f.bufsz = 1
    · by_contra hne
      exact Bool.false_ne_true (hnot.symm.trans (h.single hone (by omega)))
    · have hplace := h.put
      rcases add_mod_cases hget.le (by omega : used < f.bufsz) with ⟨hmod, -⟩ | ⟨hmod, hle⟩
      · rw [hmod] at hplace
        omega
      · rw [hmod] at hplace
        omega
  · rintro rfl
    refine ⟨?_, Bool.eq_false_iff.mpr fun htrue => ?_⟩
    · rw [h.put, Nat.add_zero, mod_eq_of_lt hget]
    · have := hfull htrue
      omega

theorem next_put_eq_iff : nextIndex f.bufsz f.putIndex = f.getIndex ↔ f.bufsz ≤ used + 1 := by
  have hget := h.get_lt
  rw [h.next_eq h.put_lt, h.put, mod_add_mod, add_assoc]
  by_cases hone : f.bufsz = 1
  · rw [hone, mod_one]
    omega
  · have hcap := h.used_le
    unfold SerialRxFifo.cap at hcap
    rcases mod_cases (by omega : f.getIndex + (used + 1) < 2 * f.bufsz) with ⟨hmod, hlt⟩ | ⟨hmod, hle⟩
    · omega
    · omega

/-- An interrupt puts a character, and a full ring gives up the oldest one. -/
theorem receive (ch : UInt8) :
    IntFilled (rtHwSerialIsrRxInd f ch) (min f.cap (used + 1)) ∧ (rtHwSerialIsrRxInd f ch).bufsz = f.bufsz ∧
      (rtHwSerialIsrRxInd f ch).view (min f.cap (used + 1)) = overwrite f.cap (f.view used) [ch] := by
  have hpos := h.pos
  have hput := h.put_lt
  have hused := h.used_le
  have hbufsz := h.used_le_bufsz
  have hfull := h.full
  have hcap : f.cap = max 1 (f.bufsz - 1) := rfl
  -- `lost` is the number of characters given up.
  obtain ⟨lost, hlost⟩ : ∃ lost, lost = used + 1 - f.cap := ⟨_, rfl⟩
  have hresult : rtHwSerialIsrRxInd f ch =
      { f with
        buffer := update f.buffer f.putIndex ch
        putIndex := (f.putIndex + 1) % f.bufsz
        getIndex := (f.getIndex + lost) % f.bufsz
        isFull := decide (f.bufsz ≤ used + 1) } := by
    unfold rtHwSerialIsrRxInd
    by_cases hroom : f.bufsz ≤ used + 1
    · have hget : (f.getIndex + 1) % f.bufsz = (f.getIndex + lost) % f.bufsz := by
        by_cases hone : f.bufsz = 1
        · rw [hone, mod_one, mod_one]
        · rw [hlost, show used + 1 - f.cap = 1 by omega]
      rw [if_pos (h.next_put_eq_iff.mpr hroom), h.next_eq hput, h.next_eq h.get_lt, hget, decide_eq_true hroom]
    · have hnot : f.isFull = false := Bool.eq_false_iff.mpr fun htrue => hroom (by have := hfull htrue; omega)
      have hget : (f.getIndex + lost) % f.bufsz = f.getIndex := by
        rw [show lost = 0 by omega, Nat.add_zero, mod_eq_of_lt h.get_lt]
      rw [if_neg (fun heq => hroom (h.next_put_eq_iff.mp heq)), h.next_eq hput, hget, decide_eq_false hroom, ← hnot]
  have hw : RingWrite f.buffer (update f.buffer f.putIndex ch) f.bufsz (f.getIndex + used) (fun _ => ch) 1 := by
    have hwrite : RingWrite f.buffer (writeRing f.buffer f.bufsz (f.getIndex + used) (fun _ => ch) 1) f.bufsz
      (f.getIndex + used) (fun _ => ch) 1 := ringWrite_writeRing hpos
    rwa [writeRing, writeRing, Nat.add_zero, ← h.put] at hwrite
  rw [hresult]
  refine ⟨⟨hpos, h.small, mod_lt _ hpos, min_le_left _ _, ?_, ?_, ?_⟩, rfl, ?_⟩
  · change (f.putIndex + 1) % f.bufsz = ((f.getIndex + lost) % f.bufsz + min f.cap (used + 1)) % f.bufsz
    rw [h.put, mod_add_mod, mod_add_mod]
    congr 1
    omega
  · intro htrue
    have hroom := of_decide_eq_true htrue
    change min f.cap (used + 1) = f.cap
    omega
  · intro hone _
    change f.bufsz = 1 at hone
    exact decide_eq_true (by omega)
  · change fifo _ f.bufsz ((f.getIndex + lost) % f.bufsz) (min f.cap (used + 1)) = overwrite f.cap (f.view used) [ch]
    rw [fifo_mod, show min f.cap (used + 1) = used + 1 - lost by omega, fifo_write hw hbufsz (by omega)]
    unfold overwrite SerialRxFifo.view
    rw [length_fifo, length_singleton, ← hlost]
    rfl

theorem pass (hsome : 0 < used) :
    ∃ ch f', serialIntRxPass f = some (ch, f') ∧ IntFilled f' (used - 1) ∧ f'.bufsz = f.bufsz ∧
      f.view used = ch :: f'.view (used - 1) := by
  have hpos := h.pos
  have hused := h.used_le
  have hget := h.get_lt
  -- The flag is cleared by every read.
  have hpass : serialIntRxPass f = some (f.buffer f.getIndex,
      { f with getIndex := (f.getIndex + 1) % f.bufsz, isFull := false }) := by
    unfold serialIntRxPass
    rw [if_neg (fun hempty => ne_of_gt hsome (h.empty_iff.mp hempty)), h.next_eq hget]
    cases f.isFull <;> rfl
  refine ⟨_, _, hpass, ⟨hpos, h.small, mod_lt _ hpos, ?_, ?_, ?_, ?_⟩, rfl, ?_⟩
  · exact le_trans (sub_le _ _) hused
  · rw [h.put, mod_add_mod]
    congr 1
    omega
  · exact fun hfalse => absurd hfalse Bool.false_ne_true
  · intro hone hlast
    change f.bufsz = 1 at hone
    unfold SerialRxFifo.cap at hused
    omega
  · exact fifo_take hsome hget

end

end IntFilled

/-! ### Runs -/

/-- A call of `_serial_int_rx` in progress: the length asked for and the length left, the bytes that
it has read, and the bytes that it was due. -/
structure IntRead where
  size : ℕ
  length : ℕ
  data : List UInt8
  due : List UInt8

/-- A call that has returned, and the unread bytes when it did. -/
structure IntResult where
  size : ℕ
  ret : ℕ
  data : List UInt8
  due : List UInt8
  left : List UInt8

/-- The call has read what it was due, and it has read less than it was asked for only if no byte
was left. -/
structure IntResult.Right (r : IntResult) : Prop where
  data : r.data = r.due
  ret : r.ret = r.data.length
  short : r.ret < r.size → r.left = []

/-- The FIFO, the calls in progress, the calls that have returned, and beside them the queue of the
unread bytes. -/
structure IntRun where
  fifo : SerialRxFifo
  reads : ℕ → Option IntRead
  results : List IntResult
  unread : List UInt8

/-- A read returns, and the run keeps its result. -/
def IntRun.finish (s : IntRun) (i : ℕ) (r : IntRead) : IntRun :=
  { s with
    reads := update s.reads i none
    results := s.results ++ [⟨r.size, r.size - r.length, r.data, r.due, s.unread⟩] }

/-- A call goes on in its loop. The queue gives the byte that is due. -/
def IntRun.pass (s : IntRun) (i : ℕ) (r : IntRead) : IntRun :=
  if r.length = 0 then s.finish i r
  else
    match serialIntRxPass s.fifo with
    | none => s.finish i r
    | some (ch, fifo) =>
      { s with
        fifo := fifo
        reads := update s.reads i
          (some ⟨r.size, r.length - 1, r.data ++ [ch], r.due ++ s.unread.head?.toList⟩)
        unread := s.unread.tail }

/-- A step of the interrupt mode. The calls of `_serial_int_rx` are numbered. -/
inductive IntAct
  /-- The interrupt puts a character. -/
  | receive (ch : UInt8)
  /-- A thread calls `_serial_int_rx`. -/
  | read (i size : ℕ)
  /-- The call goes on. -/
  | pass (i : ℕ)

/-- The state after the step, if it can be taken. -/
def IntAct.exec (s : IntRun) : IntAct → Option IntRun
  | .receive ch =>
    some { s with fifo := rtHwSerialIsrRxInd s.fifo ch, unread := overwrite s.fifo.cap s.unread [ch] }
  | .read i size =>
    match s.reads i with
    | none => some { s with reads := update s.reads i (some ⟨size, size, [], []⟩) }
    | some _ => none
  | .pass i => (s.reads i).map (s.pass i)

/-- The runs of a device that has been opened for reception by interrupts. -/
def intSystem (bufsz : ℕ) : System IntRun IntAct where
  init s := s = ⟨.opened bufsz, fun _ => none, [], []⟩
  step s a s' := a.exec s = some s'

/-- The FIFO stores the unread bytes, and every call has read what it was due. -/
structure IntRun.Stores (s : IntRun) : Prop where
  filled : IntFilled s.fifo s.unread.length
  view : s.fifo.view s.unread.length = s.unread
  reads : ∀ i r, s.reads i = some r → r.data = r.due ∧ r.data.length + r.length = r.size
  results : ∀ r ∈ s.results, r.Right

namespace IntRun.Stores

variable {s : IntRun}

theorem rxPass (h : s.Stores) :
    match s.unread with
    | [] => serialIntRxPass s.fifo = none
    | ch :: rest => ∃ fifo, serialIntRxPass s.fifo = some (ch, fifo) ∧ IntFilled fifo rest.length ∧
        fifo.bufsz = s.fifo.bufsz ∧ fifo.view rest.length = rest := by
  have hfilled := h.filled
  have hview := h.view
  cases hunread : s.unread with
  | nil =>
    rw [hunread] at hfilled
    exact if_pos (hfilled.empty_iff.mpr rfl)
  | cons ch rest =>
    rw [hunread] at hfilled hview
    obtain ⟨ch', fifo, hpass, hfilled', hbufsz, hsplit⟩ := hfilled.pass (succ_pos _)
    rw [hview, cons.injEq] at hsplit
    obtain ⟨rfl, hrest⟩ := hsplit
    exact ⟨fifo, hpass, hfilled', hbufsz, hrest.symm⟩

theorem reads_update {i : ℕ} {o : Option IntRead} (h : s.Stores)
    (ho : ∀ r, o = some r → r.data = r.due ∧ r.data.length + r.length = r.size) :
    ∀ j r, update s.reads i o j = some r → r.data = r.due ∧ r.data.length + r.length = r.size :=
  (forall_update_iff s.reads (p := fun _ o => ∀ r, o = some r → r.data = r.due ∧
    r.data.length + r.length = r.size)).mpr ⟨ho, fun j _ => h.reads j⟩

theorem finish {i : ℕ} {r : IntRead} (h : s.Stores) (hr : s.reads i = some r) (hend : r.length = 0 ∨ s.unread = []) :
    (s.finish i r).Stores := by
  obtain ⟨hdata, hlength⟩ := h.reads i r hr
  refine ⟨h.filled, h.view, h.reads_update (fun _ hnone => nomatch hnone), fun r' hr' => ?_⟩
  rcases mem_append.mp hr' with hold | hnew
  · exact h.results r' hold
  · rw [mem_singleton.mp hnew]
    refine ⟨hdata, ?_, fun hshort => ?_⟩
    · change r.size - r.length = r.data.length
      omega
    · change r.size - r.length < r.size at hshort
      exact hend.resolve_left (by omega)

theorem pass {i : ℕ} {r : IntRead} (h : s.Stores) (hr : s.reads i = some r) :
    (s.pass i r).Stores ∧ (s.pass i r).fifo.bufsz = s.fifo.bufsz := by
  have hrx := h.rxPass
  unfold IntRun.pass
  by_cases hzero : r.length = 0
  · rw [if_pos hzero]
    exact ⟨h.finish hr (Or.inl hzero), rfl⟩
  · rw [if_neg hzero]
    -- The call reads the first unread byte, or it finds none and returns.
    cases hunread : s.unread with
    | nil =>
      rw [hunread] at hrx
      rw [hrx]
      exact ⟨h.finish hr (Or.inr hunread), rfl⟩
    | cons ch rest =>
      rw [hunread] at hrx
      obtain ⟨fifo, hpass, hfilled, hbufsz, hview⟩ := hrx
      rw [hpass]
      refine ⟨⟨hfilled, hview, h.reads_update fun r' hr' => ?_, h.results⟩, hbufsz⟩
      obtain ⟨hdata, hlength⟩ := h.reads i r hr
      cases hr'
      refine ⟨congrArg (· ++ [ch]) hdata, ?_⟩
      change (r.data ++ [ch]).length + (r.length - 1) = r.size
      rw [length_append, length_singleton]
      omega

theorem exec {s' : IntRun} {a : IntAct} (h : s.Stores) (hs : a.exec s = some s') :
    s'.Stores ∧ s'.fifo.bufsz = s.fifo.bufsz := by
  cases a with
  | receive ch =>
    cases hs
    obtain ⟨hfilled, hbufsz, hview⟩ := h.filled.receive ch
    have hlength : (overwrite s.fifo.cap s.unread [ch]).length = min s.fifo.cap (s.unread.length + 1) := length_overwrite ..
    refine ⟨⟨?_, ?_, h.reads, h.results⟩, hbufsz⟩
    · rwa [hlength]
    · rw [hlength, hview, h.view]
  | read i size =>
    rw [IntAct.exec] at hs
    cases hr : s.reads i <;> rw [hr] at hs <;> cases hs
    refine ⟨⟨h.filled, h.view, h.reads_update fun r' hr' => ?_, h.results⟩, rfl⟩
    cases hr'
    exact ⟨rfl, zero_add _⟩
  | pass i =>
    obtain ⟨r, hr, rfl⟩ := Option.map_eq_some_iff.mp hs
    exact h.pass hr

end IntRun.Stores

/-- In every run, with any number of readers: the FIFO is the queue of the unread bytes, at most
`max 1 (bufsz - 1)` of them, of which an insertion gives up the oldest; and every call has read the
bytes it was due, fewer than it was asked for only if no byte was left. -/
theorem int_fifo {bufsz : ℕ} {s : IntRun} (hpos : 1 ≤ bufsz) (hsmall : bufsz ≤ 65535)
    (h : Reachable (intSystem bufsz) always s) :
    s.fifo.cap = max 1 (bufsz - 1) ∧ s.unread.length ≤ max 1 (bufsz - 1) ∧
      (serialIntRxPass s.fifo).map Prod.fst = s.unread.head? ∧ ∀ r ∈ s.results, r.Right := by
  have hinv : s.Stores ∧ s.fifo.bufsz = bufsz := by
    refine h.invariant ?_ ?_
    · rintro s rfl
      have hempty : IntFilled (.opened bufsz) 0 :=
        { pos := hpos
          small := lt_succ_of_le hsmall
          get_lt := hpos
          used_le := zero_le _
          put := (zero_mod _).symm
          full := fun hfull => absurd hfull Bool.false_ne_true
          single := fun _ hone => absurd hone zero_ne_one }
      refine ⟨⟨hempty, rfl, fun i r hr => ?_, fun r hr => ?_⟩, rfl⟩
      · cases hr
      · cases hr
    · rintro s a s' ⟨hstores, hbufsz⟩ - hs
      obtain ⟨hstores', hbufsz'⟩ := hstores.exec hs
      exact ⟨hstores', hbufsz'.trans hbufsz⟩
  obtain ⟨hstores, hbufsz⟩ := hinv
  have hcap : s.fifo.cap = max 1 (bufsz - 1) := by rw [SerialRxFifo.cap, hbufsz]
  refine ⟨hcap, hcap ▸ hstores.filled.used_le, ?_, hstores.results⟩
  -- The first unread byte is what the next pass reads.
  have hrx := hstores.rxPass
  cases hunread : s.unread with
  | nil =>
    rw [hunread] at hrx
    rw [hrx]
    rfl
  | cons ch rest =>
    rw [hunread] at hrx
    obtain ⟨fifo, hpass, -⟩ := hrx
    rw [hpass]
    rfl

/-- A run in which a buffer of three bytes overflows before it is read. -/
theorem int_fifo_run : ∃ s : IntRun, Reachable (intSystem 3) always s ∧
    s.results.map IntResult.data = [[2, 3]] ∧ ∀ r ∈ s.results, r.Right := by
  refine exists_reachable_and ?_ fun s hs _ => (int_fifo (by decide) (by decide) hs).2.2.2
  refine exists_reachable_of_exec rfl
    [.receive 1, .receive 2, .receive 3, .read 0 5, .pass 0, .pass 0, .pass 0] ?_
  decide

end RtThread
