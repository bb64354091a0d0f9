import RtThread.Kernel.Model
import RtThread.Kservice.Memory
import RtThread.Lib.Queue
import RtThread.Lib.Run

/-!
# The ring buffer

The read index and the write index of a ring buffer run over the buffer, and each has a mirror bit
that is flipped when the index passes the end. `Filled rb used` says what the four fields stand for,
and every function but one is described by its effect on it. The stored bytes (`Ringbuffer.view`) are
then a bounded queue. When a block passes the end of the buffer and overruns bytes that do not,
`rt_ringbuffer_put_force` flips both mirror bits and so leaves the buffer empty.
-/

namespace RtThread

open Lib Function List Nat

/-- `struct rt_ringbuffer`. -/
structure Ringbuffer where
  bufferPtr : ℕ → UInt8
  readMirror : Bool
  /-- A field of 15 bits. -/
  readIndex : ℕ
  writeMirror : Bool
  /-- A field of 15 bits. -/
  writeIndex : ℕ
  bufferSize : ℕ

/-- `enum rt_ringbuffer_state`. -/
inductive RingbufferState
  | empty
  | full
  | halffull
  deriving DecidableEq

variable (rb : Ringbuffer)

/-- Equal indices mean an empty or a full buffer, by the mirror bits. -/
def rtRingbufferStatus : RingbufferState :=
  if rb.readIndex = rb.writeIndex then
    if rb.readMirror = rb.writeMirror then .empty else .full
  else .halffull

/-- `rt_ringbuffer_init`, with the size rounded down to whole words. -/
def rtRingbufferInit (pool : ℕ → UInt8) (size : ℕ) : Except Fault Ringbuffer :=
  if 0 < size then .ok
    { bufferPtr := pool
      readMirror := false
      readIndex := 0
      writeMirror := false
      writeIndex := 0
      bufferSize := rtAlignDown size RT_ALIGN_SIZE }
  else .error .assertion

/-- `rt_ringbuffer_data_len`. -/
def rtRingbufferDataLen : ℕ :=
  match rtRingbufferStatus rb with
  | .empty => 0
  | .full => rb.bufferSize
  | .halffull =>
    if rb.writeIndex > rb.readIndex then rb.writeIndex - rb.readIndex
    else rb.bufferSize - (rb.readIndex - rb.writeIndex)

/-- `rt_ringbuffer_space_len`. -/
def rtRingbufferSpaceLen : ℕ := sub32 rb.bufferSize (rtRingbufferDataLen rb)

variable (ptr : ℕ → UInt8) (length : ℕ)

/-- The copy of a block to the buffer from the write index on, which `rt_ringbuffer_put` and
`rt_ringbuffer_put_force` share: in one piece if it ends before the end of the buffer, and otherwise
in two, into the other side of the mirror. -/
def Ringbuffer.write : Ringbuffer :=
  if rb.bufferSize - rb.writeIndex > length then
    { rb with
      bufferPtr := memcpy rb.bufferPtr rb.writeIndex ptr 0 length
      writeIndex := (rb.writeIndex + length) % 2^15 }
  else
    let first := rb.bufferSize - rb.writeIndex
    { rb with
      bufferPtr := memcpy (memcpy rb.bufferPtr rb.writeIndex ptr 0 first) 0 ptr first (length - first)
      writeMirror := !rb.writeMirror
      writeIndex := (length - first) % 2^15 }

/-- `rt_ringbuffer_put`: as many bytes as there is space for. -/
def rtRingbufferPut : Ringbuffer × ℕ :=
  let size := rtRingbufferSpaceLen rb % 2^16
  if size = 0 then (rb, 0)
  else
    let length := if size < length then size else length
    (rb.write ptr length, length)

/-- `rt_ringbuffer_put_force`: all bytes, over the oldest ones. -/
def rtRingbufferPutForce : Ringbuffer × ℕ :=
  let spaceLength := rtRingbufferSpaceLen rb % 2^16
  let ptr := if length > rb.bufferSize then fun i => ptr (length - rb.bufferSize + i) else ptr
  let length := if length > rb.bufferSize then rb.bufferSize else length
  let written := rb.write ptr length
  if length > spaceLength then
    if rb.bufferSize - rb.writeIndex > length then ({ written with readIndex := written.writeIndex }, length)
    else ({ written with readMirror := !written.readMirror, readIndex := written.writeIndex }, length)
  else (written, length)

/-- `rt_ringbuffer_get`: the oldest bytes, copied to `ptr`. -/
def rtRingbufferGet : Ringbuffer × ℕ × (ℕ → UInt8) :=
  let size := rtRingbufferDataLen rb
  if size = 0 then (rb, 0, ptr)
  else
    let length := if size < length then size else length
    if rb.bufferSize - rb.readIndex > length then
      ({ rb with readIndex := (rb.readIndex + length) % 2^15 }, length, memcpy ptr 0 rb.bufferPtr rb.readIndex length)
    else
      let first := rb.bufferSize - rb.readIndex
      ({ rb with
        readMirror := !rb.readMirror
        readIndex := (length - first) % 2^15 }, length,
        memcpy (memcpy ptr 0 rb.bufferPtr rb.readIndex first) first rb.bufferPtr 0 (length - first))

variable (ch : UInt8)

/-- The write of a character at the write index, without a look at the read index. -/
def Ringbuffer.writechar : Ringbuffer :=
  let rb := { rb with bufferPtr := update rb.bufferPtr rb.writeIndex ch }
  if rb.writeIndex = rb.bufferSize - 1 then { rb with writeMirror := !rb.writeMirror, writeIndex := 0 }
  else { rb with writeIndex := (rb.writeIndex + 1) % 2^15 }

/-- `rt_ringbuffer_putchar`. -/
def rtRingbufferPutchar : Ringbuffer × ℕ :=
  if rtRingbufferSpaceLen rb = 0 then (rb, 0) else (rb.writechar ch, 1)

/-- `rt_ringbuffer_putchar_force`: a full buffer gives up its oldest byte. -/
def rtRingbufferPutcharForce : Ringbuffer × ℕ :=
  let oldState := rtRingbufferStatus rb
  let written := rb.writechar ch
  if oldState = .full then
    if rb.writeIndex = rb.bufferSize - 1 then
      ({ written with readMirror := !written.readMirror, readIndex := written.writeIndex }, 1)
    else ({ written with readIndex := written.writeIndex }, 1)
  else (written, 1)

/-- `rt_ringbuffer_getchar`, with the character where there is one. -/
def rtRingbufferGetchar : Ringbuffer × Option UInt8 :=
  if rtRingbufferDataLen rb = 0 then (rb, none)
  else
    let ch := rb.bufferPtr rb.readIndex
    if rb.readIndex = rb.bufferSize - 1 then
      ({ rb with readMirror := !rb.readMirror, readIndex := 0 }, some ch)
    else ({ rb with readIndex := (rb.readIndex + 1) % 2^15 }, some ch)

/-- `rt_ringbuffer_reset`. -/
def rtRingbufferReset : Ringbuffer :=
  { rb with readMirror := false, readIndex := 0, writeMirror := false, writeIndex := 0 }

/-- The bytes that the buffer holds, oldest first. -/
def Ringbuffer.view : List UInt8 :=
  fifo rb.bufferPtr rb.bufferSize rb.readIndex (rtRingbufferDataLen rb)

/-! ## What the indices stand for -/

/-- The buffer holds `used` bytes from the read index on. -/
structure Filled (rb : Ringbuffer) (used : ℕ) : Prop where
  pos : 0 < rb.bufferSize
  small : rb.bufferSize < 2^15
  read : rb.readIndex < rb.bufferSize
  used_le : used ≤ rb.bufferSize
  write : rb.writeIndex = (rb.readIndex + used) % rb.bufferSize
  mirror : rb.readMirror = rb.writeMirror ↔ rb.readIndex + used < rb.bufferSize

namespace Filled

variable {rb : Ringbuffer} {used : ℕ}

section

variable (h : Filled rb used)
include h

theorem write_cases :
    rb.readMirror = rb.writeMirror ∧ rb.writeIndex = rb.readIndex + used ∧ rb.readIndex + used < rb.bufferSize ∨
      rb.readMirror ≠ rb.writeMirror ∧ rb.writeIndex = rb.readIndex + used - rb.bufferSize ∧
        rb.bufferSize ≤ rb.readIndex + used := by
  have hread := h.read
  have hused := h.used_le
  by_cases hlt : rb.readIndex + used < rb.bufferSize
  · exact Or.inl ⟨h.mirror.mpr hlt, h.write.trans (mod_eq_of_lt hlt), hlt⟩
  · refine Or.inr ⟨fun heq => hlt (h.mirror.mp heq), h.write.trans ?_, not_lt.mp hlt⟩
    rw [mod_eq_sub_mod (not_lt.mp hlt)]
    exact mod_eq_of_lt (by omega)

theorem write_lt : rb.writeIndex < rb.bufferSize := by
  rw [h.write]
  exact mod_lt _ h.pos

theorem dataLen : rtRingbufferDataLen rb = used := by
  have hused := h.used_le
  unfold rtRingbufferDataLen rtRingbufferStatus
  -- Equal indices mean an empty buffer on one side of the mirror, and a full one across it.
  rcases h.write_cases with ⟨hm, hw, hlt⟩ | ⟨hm, hw, hle⟩
  · by_cases hzero : used = 0
    · rw [if_pos (by omega), if_pos hm]
      exact hzero.symm
    · rw [if_neg (by omega)]
      dsimp only
      rw [if_pos (by omega)]
      omega
  · by_cases hfull : used = rb.bufferSize
    · rw [if_pos (by omega), if_neg hm]
      exact hfull.symm
    · rw [if_neg (by omega)]
      dsimp only
      rw [if_neg (by omega)]
      omega

theorem spaceLen : rtRingbufferSpaceLen rb = rb.bufferSize - used := by
  have hused := h.used_le
  have hsmall := h.small
  unfold rtRingbufferSpaceLen
  rw [h.dataLen]
  exact sub32_eq hused (by omega)

theorem view_eq : rb.view = fifo rb.bufferPtr rb.bufferSize rb.readIndex used := by
  unfold Ringbuffer.view
  rw [h.dataLen]

theorem length_view : rb.view.length = used := by
  rw [h.view_eq, length_fifo]

end

end Filled

/-! ## Writing -/

/-- A block has been written from the write index on. -/
structure Written (rb rb' : Ringbuffer) (ptr : ℕ → UInt8) (length : ℕ) : Prop where
  size : rb'.bufferSize = rb.bufferSize
  read : rb'.readIndex = rb.readIndex
  readMirror : rb'.readMirror = rb.readMirror
  write : rb'.writeIndex = (rb.writeIndex + length) % rb.bufferSize
  writeMirror : rb'.writeMirror = rb.writeMirror ↔ rb.writeIndex + length < rb.bufferSize
  bytes : RingWrite rb.bufferPtr rb'.bufferPtr rb.bufferSize rb.writeIndex ptr length

section

variable {rb rb' : Ringbuffer} {used length : ℕ} {ptr : ℕ → UInt8}

theorem Filled.written (h : Filled rb used) (hlen : length ≤ rb.bufferSize) :
    Written rb (rb.write ptr length) ptr length := by
  have hw := h.write_lt
  have hsmall := h.small
  unfold Ringbuffer.write
  split_ifs with hfits
  · have hlt : rb.writeIndex + length < rb.bufferSize := by omega
    refine ⟨rfl, rfl, rfl, ?_, ⟨fun _ => hlt, fun _ => rfl⟩, ringWrite_memcpy hlt.le⟩
    rw [mod_eq_of_lt (by omega), mod_eq_of_lt hlt]
  · have hle : rb.bufferSize ≤ rb.writeIndex + length := by omega
    refine ⟨rfl, rfl, rfl, ?_, ⟨fun hm => absurd hm (by simp), fun hlt => absurd hlt (by omega)⟩,
      ringWrite_memcpy_wrap hw.le hle hlen⟩
    change (length - (rb.bufferSize - rb.writeIndex)) % 2^15 = _
    rw [mod_eq_sub_mod hle, mod_eq_of_lt (by omega), mod_eq_of_lt (by omega)]
    omega

theorem Filled.written_char (h : Filled rb used) (ch : UInt8) : Written rb (rb.writechar ch) (fun _ => ch) 1 := by
  have hw := h.write_lt
  have hsmall := h.small
  have hbytes : RingWrite rb.bufferPtr (update rb.bufferPtr rb.writeIndex ch) rb.bufferSize rb.writeIndex
      (fun _ => ch) 1 := by
    refine ⟨fun j hj => ?_, fun j hj hlt => update_of_ne ?_ _ _⟩
    · rw [show j = 0 by omega, add_zero, mod_eq_of_lt hw, update_self]
    · rcases add_mod_cases hw.le hlt with ⟨heq, hend⟩ | ⟨heq, hend⟩
      · rw [heq]
        omega
      · rw [heq]
        omega
  -- At the last position the index starts again at zero, and the mirror bit of the write side is flipped.
  unfold Ringbuffer.writechar
  dsimp only
  split_ifs with hlast
  · refine ⟨rfl, rfl, rfl, ?_, ⟨fun hm => absurd hm (by simp), fun hlt => absurd hlt (by omega)⟩, hbytes⟩
    rw [show rb.writeIndex + 1 = rb.bufferSize by omega, mod_self]
  · refine ⟨rfl, rfl, rfl, ?_, ⟨fun _ => by omega, fun _ => rfl⟩, hbytes⟩
    rw [mod_eq_of_lt (by omega), mod_eq_of_lt (by omega)]

namespace Written

section

variable (hw : Written rb rb' ptr length)
include hw

section

variable (h : Filled rb used)
include h

theorem write_eq : rb'.writeIndex = (rb.readIndex + used + length) % rb.bufferSize := by
  rw [hw.write, h.write, mod_add_mod]

theorem bytes_behind :
    RingWrite rb.bufferPtr rb'.bufferPtr rb.bufferSize (rb.readIndex + used) ptr length := by
  have hbytes := hw.bytes
  rw [h.write] at hbytes
  exact hbytes.of_mod

theorem filled (hroom : used + length ≤ rb.bufferSize) : Filled rb' (used + length) := by
  have hread := h.read
  refine ⟨hw.size ▸ h.pos, hw.size ▸ h.small, ?_, hw.size ▸ hroom, ?_, ?_⟩
  · rw [hw.read, hw.size]
    exact hread
  · rw [hw.write_eq h, hw.read, hw.size, add_assoc]
  · rw [hw.read, hw.readMirror, hw.size]
    rcases h.write_cases with ⟨hm, hwi, hlt⟩ | ⟨hm, hwi, hle⟩
    · rw [hm, eq_comm, hw.writeMirror, hwi, add_assoc]
    · -- The block does not reach the end again.
      have hkeep : rb'.writeMirror = rb.writeMirror := hw.writeMirror.mpr (by omega)
      rw [hkeep]
      exact ⟨fun heq => absurd heq hm, fun hlt => absurd hlt (by omega)⟩

theorem view (hroom : used + length ≤ rb.bufferSize) :
    rb'.view = rb.view ++ (range length).map ptr := by
  have hwrite := fifo_write (d := 0) (hw.bytes_behind h) h.used_le (by omega)
  rw [(hw.filled h hroom).view_eq, h.view_eq, hw.read, hw.size]
  exact hwrite

theorem filled_overrun {m : Bool} :
    Filled { rb' with readMirror := m, readIndex := rb'.writeIndex }
      (if m = rb'.writeMirror then 0 else rb.bufferSize) := by
  -- Both indices are equal now, so there are no bytes or all.
  have hlt : rb'.writeIndex < rb'.bufferSize := by
    rw [hw.write, hw.size]
    exact mod_lt _ h.pos
  refine ⟨hw.size ▸ h.pos, hw.size ▸ h.small, hlt, ?_, ?_, ?_⟩
  · rw [hw.size]
    split_ifs <;> omega
  · split_ifs
    · exact (mod_eq_of_lt hlt).symm
    · rw [← hw.size, add_mod_right]
      exact (mod_eq_of_lt hlt).symm
  · change m = rb'.writeMirror ↔ rb'.writeIndex + _ < rb'.bufferSize
    split_ifs with heq
    · exact ⟨fun _ => hlt, fun _ => heq⟩
    · exact ⟨fun heq' => absurd heq' heq, fun hlt' => absurd hlt' (by rw [← hw.size]; omega)⟩

theorem view_overrun {m : Bool} (hm : m ≠ rb'.writeMirror)
    (hover : rb.bufferSize ≤ used + length) :
    Ringbuffer.view { rb' with readMirror := m, readIndex := rb'.writeIndex } =
      overwrite rb.bufferSize rb.view ((range length).map ptr) := by
  have hfilled := hw.filled_overrun h (m := m)
  rw [if_neg hm] at hfilled
  have hwrite := fifo_write (d := used + length - rb.bufferSize) (hw.bytes_behind h) h.used_le (by omega)
  rw [Nat.sub_sub_self hover] at hwrite
  -- The oldest byte that is left is at the write index, a round behind it.
  have hplace : (rb.readIndex + (used + length - rb.bufferSize)) % rb.bufferSize = rb'.writeIndex := by
    rw [hw.write_eq h, ← add_mod_right]
    congr 1
    omega
  rw [hfilled.view_eq]
  rw [hw.size, ← hplace, fifo_mod, hwrite, ← h.view_eq]
  unfold overwrite
  rw [h.length_view, List.length_map, List.length_range]

end

end

end Written

/-! ## Reading -/

theorem Filled.advance {m : Bool} {index : ℕ} (h : Filled rb used) (hlen : length ≤ used)
    (hindex : index = (rb.readIndex + length) % rb.bufferSize)
    (hm : m = rb.readMirror ↔ rb.readIndex + length < rb.bufferSize) :
    Filled { rb with readMirror := m, readIndex := index } (used - length) ∧
      Ringbuffer.view { rb with readMirror := m, readIndex := index } = rb.view.drop length := by
  have hread := h.read
  have hused := h.used_le
  have hfilled : Filled { rb with readMirror := m, readIndex := index } (used - length) := by
    refine ⟨h.pos, h.small, hindex ▸ mod_lt _ h.pos, le_trans (sub_le ..) hused, ?_, ?_⟩
    · rw [hindex, mod_add_mod, h.write]
      congr 1
      omega
    · change m = rb.writeMirror ↔ index + (used - length) < rb.bufferSize
      by_cases hlt : rb.readIndex + length < rb.bufferSize
      · -- The read side stays on its side of the mirror.
        rw [hm.mpr hlt, h.mirror, hindex, mod_eq_of_lt hlt]
        omega
      · -- It passes the end, as the write side has done before.
        have hdiff : rb.readMirror ≠ rb.writeMirror := fun heq => by
          have := h.mirror.mp heq
          omega
        have hsame : m = rb.writeMirror := by
          have hflip : m ≠ rb.readMirror := fun heq => hlt (hm.mp heq)
          cases m <;> cases hr : rb.readMirror <;> cases hw : rb.writeMirror <;> simp_all
        rw [hindex, mod_eq_sub_mod (not_lt.mp hlt), mod_eq_of_lt (by omega)]
        exact ⟨fun _ => by omega, fun _ => hsame⟩
  refine ⟨hfilled, ?_⟩
  rw [hfilled.view_eq, h.view_eq, drop_fifo]
  rw [hindex, fifo_mod]

section

variable (h : Filled rb used)
include h

/-- Getting takes the oldest bytes. -/
theorem Filled.get (dst : ℕ → UInt8) (length : ℕ) :
    (rtRingbufferGet rb dst length).2.1 = min length used ∧
      Filled (rtRingbufferGet rb dst length).1 (used - min length used) ∧
      (rtRingbufferGet rb dst length).1.view = rb.view.drop length ∧
      (range (min length used)).map (rtRingbufferGet rb dst length).2.2 = rb.view.take length := by
  have hread := h.read
  have hused := h.used_le
  have hsmall := h.small
  have hview : rb.view = fifo rb.bufferPtr rb.bufferSize rb.readIndex used := h.view_eq
  have htake : rb.view.take length = fifo rb.bufferPtr rb.bufferSize rb.readIndex (min length used) := by
    rw [hview, ← take_fifo (min_le_right length used), take_eq_take_min, length_fifo]
  have hdrop : rb.view.drop (min length used) = rb.view.drop length := by
    rw [drop_eq_drop_min, h.length_view, min_assoc, min_self, ← h.length_view, ← drop_eq_drop_min]
  -- The bytes are copied in one piece, or in two around the end.
  unfold rtRingbufferGet
  rw [h.dataLen]
  by_cases hzero : used = 0
  · subst hzero
    have hnil : rb.view = [] := by rw [hview, fifo_zero]
    rw [if_pos rfl, min_zero, hnil]
    exact ⟨rfl, h, drop_nil.symm, by simp⟩
  · have hlen : (if used < length then used else length) = min length used := by
      split_ifs <;> omega
    rw [if_neg hzero]
    dsimp only
    rw [hlen]
    split_ifs with hfits
    · have hlt : rb.readIndex + min length used < rb.bufferSize := by omega
      have hindex : (rb.readIndex + min length used) % 2^15 = (rb.readIndex + min length used) % rb.bufferSize := by
        rw [mod_eq_of_lt (by omega), mod_eq_of_lt hlt]
      obtain ⟨hfilled, hrest⟩ := h.advance (m := rb.readMirror) (min_le_right length used) hindex
        ⟨fun _ => hlt, fun _ => rfl⟩
      refine ⟨rfl, hfilled, hrest.trans hdrop, ?_⟩
      rw [htake]
      exact map_congr_left fun i hi => memcpy_fifo hlt.le (mem_range.mp hi)
    · have hle : rb.bufferSize ≤ rb.readIndex + min length used := by omega
      have hindex : (min length used - (rb.bufferSize - rb.readIndex)) % 2^15 =
          (rb.readIndex + min length used) % rb.bufferSize := by
        rw [mod_eq_sub_mod hle, mod_eq_of_lt (by omega), mod_eq_of_lt (by omega)]
        omega
      obtain ⟨hfilled, hrest⟩ := h.advance (m := !rb.readMirror) (min_le_right length used) hindex
        ⟨fun hm => absurd hm (by simp), fun hlt => absurd hlt (by omega)⟩
      refine ⟨rfl, hfilled, hrest.trans hdrop, ?_⟩
      rw [htake]
      exact map_congr_left fun i hi => memcpy_fifo_wrap hread.le (by omega) (mem_range.mp hi)

theorem Filled.getchar :
    (rtRingbufferGetchar rb).2 = rb.view.head? ∧ Filled (rtRingbufferGetchar rb).1 (used - 1) ∧
      (rtRingbufferGetchar rb).1.view = rb.view.drop 1 := by
  have hread := h.read
  have hsmall := h.small
  unfold rtRingbufferGetchar
  rw [h.dataLen]
  by_cases hzero : used = 0
  · subst hzero
    have hnil : rb.view = [] := by rw [h.view_eq, fifo_zero]
    rw [if_pos rfl, hnil]
    exact ⟨rfl, h, rfl⟩
  · have hhead : some (rb.bufferPtr rb.readIndex) = rb.view.head? := by
      rw [h.view_eq, fifo_take (pos_of_ne_zero hzero) h.read]
      rfl
    rw [if_neg hzero]
    split_ifs with hlast
    · have hindex : 0 = (rb.readIndex + 1) % rb.bufferSize := by
        rw [show rb.readIndex + 1 = rb.bufferSize by omega, mod_self]
      exact ⟨hhead, h.advance (one_le_iff_ne_zero.mpr hzero) hindex
        ⟨fun hm => absurd hm (by simp), fun hlt => absurd hlt (by omega)⟩⟩
    · have hlt : rb.readIndex + 1 < rb.bufferSize := by omega
      have hindex : (rb.readIndex + 1) % 2^15 = (rb.readIndex + 1) % rb.bufferSize := by
        rw [mod_eq_of_lt (by omega), mod_eq_of_lt hlt]
      exact ⟨hhead, h.advance (m := rb.readMirror) (one_le_iff_ne_zero.mpr hzero) hindex
        ⟨fun _ => hlt, fun _ => rfl⟩⟩

/-! ## Putting -/

theorem Filled.put (ptr : ℕ → UInt8) (length : ℕ) :
    (rtRingbufferPut rb ptr length).2 = min length (rb.bufferSize - used) ∧
      Filled (rtRingbufferPut rb ptr length).1 (used + min length (rb.bufferSize - used)) ∧
      (rtRingbufferPut rb ptr length).1.view = offer rb.bufferSize rb.view ((range length).map ptr) := by
  have hsmall := h.small
  -- The queue takes the bytes for which there is room, and so does the buffer.
  have hoffer : offer rb.bufferSize rb.view ((range length).map ptr) =
      rb.view ++ (range (min length (rb.bufferSize - used))).map ptr := by
    unfold offer
    rw [h.length_view, ← map_take, take_range, min_comm]
  have hspace : rtRingbufferSpaceLen rb % 2^16 = rb.bufferSize - used := by
    rw [h.spaceLen, mod_eq_of_lt (by omega)]
  rw [hoffer]
  unfold rtRingbufferPut
  rw [hspace]
  by_cases hzero : rb.bufferSize - used = 0
  · rw [if_pos hzero, hzero, min_zero]
    exact ⟨rfl, h, (append_nil _).symm⟩
  · have hlen : (if rb.bufferSize - used < length then rb.bufferSize - used else length) =
        min length (rb.bufferSize - used) := by
      split_ifs <;> omega
    rw [if_neg hzero, hlen]
    have hw : Written rb (rb.write ptr (min length (rb.bufferSize - used))) ptr (min length (rb.bufferSize - used)) :=
      h.written (by omega)
    have hroom : used + min length (rb.bufferSize - used) ≤ rb.bufferSize := by omega
    exact ⟨rfl, hw.filled h hroom, hw.view h hroom⟩

theorem Filled.putchar (ch : UInt8) : (rtRingbufferPutchar rb ch).2 = min 1 (rb.bufferSize - used) ∧
      Filled (rtRingbufferPutchar rb ch).1 (used + min 1 (rb.bufferSize - used)) ∧
      (rtRingbufferPutchar rb ch).1.view = offer rb.bufferSize rb.view [ch] := by
  have hw := h.written_char ch
  unfold rtRingbufferPutchar offer
  rw [h.spaceLen, h.length_view]
  by_cases hzero : rb.bufferSize - used = 0
  · rw [if_pos hzero, hzero]
    exact ⟨rfl, h, (append_nil _).symm⟩
  · have hone : min 1 (rb.bufferSize - used) = 1 := by omega
    have htake : [ch].take (rb.bufferSize - used) = [ch] := take_of_length_le (by simp; omega)
    rw [if_neg hzero, hone, htake]
    exact ⟨rfl, hw.filled h (by omega), hw.view h (by omega)⟩

theorem Filled.status_full : rtRingbufferStatus rb = .full ↔ used = rb.bufferSize := by
  unfold rtRingbufferStatus
  rcases h.write_cases with ⟨hm, hw, hlt⟩ | ⟨hm, hw, hle⟩
  · rw [if_pos hm]
    split_ifs <;> simp <;> omega
  · rw [if_neg hm]
    split_ifs <;> simp <;> omega

end

/-! ## Overwriting -/

namespace Written

/-- The state in which `rt_ringbuffer_put_force` and `rt_ringbuffer_putchar_force` leave the buffer
`rb` after a block that overruns stored bytes: the mirror bit of the read side is flipped if the
block passes the end. -/
abbrev forced (rb rb' : Ringbuffer) (length : ℕ) : Ringbuffer :=
  { rb' with
    readMirror := if rb.writeIndex + length < rb.bufferSize then rb.readMirror else !rb.readMirror
    readIndex := rb'.writeIndex }

section

variable (hw : Written rb rb' ptr length)
include hw

theorem mirror_ne (hm : rb.readMirror ≠ rb.writeMirror) :
    (if rb.writeIndex + length < rb.bufferSize then rb.readMirror else !rb.readMirror) ≠ rb'.writeMirror := by
  by_cases hlt : rb.writeIndex + length < rb.bufferSize
  · rw [if_pos hlt, hw.writeMirror.mpr hlt]
    exact hm
  · have hflip : rb'.writeMirror ≠ rb.writeMirror := fun heq => hlt (hw.writeMirror.mp heq)
    rw [if_neg hlt]
    revert hm hflip
    cases rb.readMirror <;> cases rb.writeMirror <;> cases rb'.writeMirror <;> simp

theorem mirror_eq (hm : rb.readMirror = rb.writeMirror)
    (hend : rb.bufferSize ≤ rb.writeIndex + length) :
    (if rb.writeIndex + length < rb.bufferSize then rb.readMirror else !rb.readMirror) = rb'.writeMirror := by
  have hflip : rb'.writeMirror ≠ rb.writeMirror := fun heq => not_lt.mpr hend (hw.writeMirror.mp heq)
  rw [if_neg (not_lt.mpr hend), hm]
  revert hflip
  cases rb.writeMirror <;> cases rb'.writeMirror <;> simp

theorem fits (h : Filled rb used) (hroom : used + length ≤ rb.bufferSize) :
    Filled rb' (min rb.bufferSize (used + length)) ∧
      rb'.view = overwrite rb.bufferSize rb.view ((range length).map ptr) := by
  rw [Nat.min_eq_right hroom]
  refine ⟨hw.filled h hroom, ?_⟩
  unfold overwrite
  rw [hw.view h hroom, h.length_view, List.length_map, List.length_range, Nat.sub_eq_zero_of_le hroom]
  rfl

theorem overruns (h : Filled rb used) (hm : rb.readMirror ≠ rb.writeMirror)
    (hover : rb.bufferSize ≤ used + length) :
    Filled (forced rb rb' length) (min rb.bufferSize (used + length)) ∧
      (forced rb rb' length).view = overwrite rb.bufferSize rb.view ((range length).map ptr) := by
  have hfilled := hw.filled_overrun h
    (m := if rb.writeIndex + length < rb.bufferSize then rb.readMirror else !rb.readMirror)
  rw [if_neg (hw.mirror_ne hm)] at hfilled
  rw [min_eq_left hover]
  exact ⟨hfilled, hw.view_overrun h (hw.mirror_ne hm) hover⟩

theorem empties (h : Filled rb used) (hm : rb.readMirror = rb.writeMirror)
    (hend : rb.bufferSize ≤ rb.writeIndex + length) : Filled (forced rb rb' length) 0 := by
  have hfilled := hw.filled_overrun h
    (m := if rb.writeIndex + length < rb.bufferSize then rb.readMirror else !rb.readMirror)
  rwa [if_pos (hw.mirror_eq hm hend)] at hfilled

end

end Written

theorem Filled.putcharForce (h : Filled rb used) (ch : UInt8) :
    Filled (rtRingbufferPutcharForce rb ch).1 (min rb.bufferSize (used + 1)) ∧
      (rtRingbufferPutcharForce rb ch).1.view = overwrite rb.bufferSize rb.view [ch] := by
  have hwi := h.write_lt
  have hused := h.used_le
  have hw := h.written_char ch
  unfold rtRingbufferPutcharForce
  by_cases hfull : used = rb.bufferSize
  · have hm : rb.readMirror ≠ rb.writeMirror := by
      rw [ne_eq, h.mirror]
      omega
    -- Both branches leave the same state, by whether the character was put at the last position.
    have hresult : (if rb.writeIndex = rb.bufferSize - 1 then
          ({ rb.writechar ch with
            readMirror := !(rb.writechar ch).readMirror, readIndex := (rb.writechar ch).writeIndex }, 1)
        else ({ rb.writechar ch with readIndex := (rb.writechar ch).writeIndex }, 1) : Ringbuffer × ℕ).1 =
        Written.forced rb (rb.writechar ch) 1 := by
      by_cases hlast : rb.writeIndex = rb.bufferSize - 1
      · rw [if_pos hlast, Written.forced, if_neg (by omega), hw.readMirror]
      · rw [if_neg hlast, Written.forced, if_pos (by omega), ← hw.readMirror]
    rw [if_pos (h.status_full.mpr hfull), hresult]
    exact hw.overruns h hm (by omega)
  · rw [if_neg fun hst => hfull (h.status_full.mp hst)]
    exact hw.fits h (by omega)

/-- The block passes the end of the buffer and overruns stored bytes that do not: the bits that
`rt_ringbuffer_put_force` compares to tell a full buffer from an empty one become equal. -/
def Ringbuffer.Overruns (rb : Ringbuffer) (length : ℕ) : Prop :=
  rb.readMirror = rb.writeMirror ∧ rb.bufferSize ≤ rb.writeIndex + min length rb.bufferSize ∧
    rtRingbufferSpaceLen rb < min length rb.bufferSize

instance (rb : Ringbuffer) (length : ℕ) : Decidable (rb.Overruns length) :=
  inferInstanceAs (Decidable (_ ∧ _ ∧ _))

theorem overwrite_tail {cap : ℕ} (q : List UInt8) (hcap : cap ≤ length) :
    overwrite cap q ((range length).map ptr) =
      overwrite cap q ((range cap).map fun i => ptr (length - cap + i)) := by
  rw [overwrite_of_le q (by simpa using hcap), overwrite_of_le q (by simp)]
  refine ext_getElem (by simp; omega) fun i h₁ h₂ => ?_
  simp

/-- `rt_ringbuffer_put_force` overwrites the oldest bytes, or leaves the buffer empty. -/
theorem Filled.putForce (h : Filled rb used) (ptr : ℕ → UInt8) (length : ℕ) :
    Filled (rtRingbufferPutForce rb ptr length).1
        (if rb.Overruns length then 0 else min rb.bufferSize (used + length)) ∧
      (¬rb.Overruns length → (rtRingbufferPutForce rb ptr length).1.view =
        overwrite rb.bufferSize rb.view ((range length).map ptr)) := by
  have hused := h.used_le
  have hsmall := h.small
  -- The block without the bytes that would be overwritten at once.
  obtain ⟨src, hsrc⟩ : ∃ src, src = if length > rb.bufferSize then fun i => ptr (length - rb.bufferSize + i) else ptr :=
    ⟨_, rfl⟩
  obtain ⟨len, hlen⟩ : ∃ len, len = min length rb.bufferSize := ⟨_, rfl⟩
  have hif : (if length > rb.bufferSize then rb.bufferSize else length) = len := by
    rw [hlen]
    split_ifs <;> omega
  have hblock : overwrite rb.bufferSize rb.view ((range length).map ptr) =
      overwrite rb.bufferSize rb.view ((range len).map src) := by
    by_cases hlong : length > rb.bufferSize
    · rw [hsrc, hlen, if_pos hlong, Nat.min_eq_right hlong.le, overwrite_tail _ hlong.le]
    · rw [hsrc, hlen, if_neg hlong, min_eq_left (not_lt.mp hlong)]
  have hspace : rtRingbufferSpaceLen rb % 2^16 = rb.bufferSize - used := by
    rw [h.spaceLen, mod_eq_of_lt (by omega)]
  have hover : rb.Overruns length ↔ rb.readMirror = rb.writeMirror ∧ rb.bufferSize ≤ rb.writeIndex + len ∧
      rb.bufferSize - used < len := by
    unfold Ringbuffer.Overruns
    rw [h.spaceLen, hlen]
  have hmin : min rb.bufferSize (used + length) = min rb.bufferSize (used + len) := by omega
  have hw : Written rb (rb.write src len) src len := h.written (by omega)
  rw [hblock, hmin]
  unfold rtRingbufferPutForce
  rw [hspace]
  rw [← hsrc, hif]
  by_cases hroom : len > rb.bufferSize - used
  · have hresult : (if rb.bufferSize - rb.writeIndex > len then
          ({ rb.write src len with readIndex := (rb.write src len).writeIndex }, len)
        else ({ rb.write src len with
          readMirror := !(rb.write src len).readMirror, readIndex := (rb.write src len).writeIndex }, len) :
          Ringbuffer × ℕ).1 = Written.forced rb (rb.write src len) len := by
      by_cases hfits : rb.bufferSize - rb.writeIndex > len
      · rw [if_pos hfits, Written.forced, if_pos (by omega), ← hw.readMirror]
      · rw [if_neg hfits, Written.forced, if_neg (by omega), hw.readMirror]
    rw [if_pos hroom, hresult]
    by_cases hbad : rb.Overruns length
    · obtain ⟨hm, hend, -⟩ := hover.mp hbad
      rw [if_pos hbad]
      exact ⟨hw.empties h hm hend, fun hnot => absurd hbad hnot⟩
    · -- A block that overruns stored bytes before the end finds them on the other side of the mirror.
      have hm : rb.readMirror ≠ rb.writeMirror := by
        intro hm
        refine hbad (hover.mpr ⟨hm, ?_, hroom⟩)
        rcases h.write_cases with ⟨-, hwr, hlt⟩ | ⟨hne, -⟩
        · omega
        · exact absurd hm hne
      obtain ⟨hfilled, hview⟩ := hw.overruns h hm (by omega)
      rw [if_neg hbad]
      exact ⟨hfilled, fun _ => hview⟩
  · have hbad : ¬rb.Overruns length := fun hbad => hroom (hover.mp hbad).2.2
    obtain ⟨hfilled, hview⟩ := hw.fits h (by omega)
    rw [if_neg hroom, if_neg hbad]
    exact ⟨hfilled, fun _ => hview⟩

end

/-! ## Runs -/

/-- A call of a function of the ring buffer, with its data. -/
inductive RbOp
  | put (ptr : ℕ → UInt8) (length : UInt16)
  | get (ptr : ℕ → UInt8) (length : UInt16)
  | putchar (ch : UInt8)
  | getchar
  | putForce (ptr : ℕ → UInt8) (length : UInt16)
  | putcharForce (ch : UInt8)
  | reset

/-- The buffer, the number that the last call returned and the bytes that it delivered, and beside
them a bounded queue with what the call should have returned. -/
structure RbRun where
  rb : Ringbuffer
  ret : ℕ
  out : List UInt8
  queue : List UInt8
  specRet : ℕ
  specOut : List UInt8

/-- The state after the call. The queue and what it returns do not depend on the buffer but for its
size. -/
def RbOp.exec (s : RbRun) : RbOp → RbRun
  | .put ptr length =>
    let cap := s.rb.bufferSize
    let r := rtRingbufferPut s.rb ptr length.toNat
    { rb := r.1
      ret := r.2
      out := []
      queue := offer cap s.queue ((range length.toNat).map ptr)
      specRet := min length.toNat (cap - s.queue.length)
      specOut := [] }
  | .get ptr length =>
    let r := rtRingbufferGet s.rb ptr length.toNat
    { rb := r.1
      ret := r.2.1
      out := (range r.2.1).map r.2.2
      queue := s.queue.drop length.toNat
      specRet := min length.toNat s.queue.length
      specOut := s.queue.take length.toNat }
  | .putchar ch =>
    let cap := s.rb.bufferSize
    let r := rtRingbufferPutchar s.rb ch
    { rb := r.1
      ret := r.2
      out := []
      queue := offer cap s.queue [ch]
      specRet := min 1 (cap - s.queue.length)
      specOut := [] }
  | .getchar =>
    let r := rtRingbufferGetchar s.rb
    { rb := r.1
      ret := if r.2.isSome then 1 else 0
      out := r.2.toList
      queue := s.queue.drop 1
      specRet := min 1 s.queue.length
      specOut := s.queue.take 1 }
  | .putForce ptr length =>
    let cap := s.rb.bufferSize
    let r := rtRingbufferPutForce s.rb ptr length.toNat
    { s with rb := r.1, queue := overwrite cap s.queue ((range length.toNat).map ptr) }
  | .putcharForce ch =>
    let cap := s.rb.bufferSize
    let r := rtRingbufferPutcharForce s.rb ch
    { s with rb := r.1, queue := overwrite cap s.queue [ch] }
  | .reset => { s with rb := rtRingbufferReset s.rb, queue := [] }

/-- The calls that leave unread bytes alone. -/
def RbOp.plain (_ : RbRun) : RbOp → Prop
  | .put _ _ | .get _ _ | .putchar _ | .getchar => True
  | .putForce _ _ | .putcharForce _ | .reset => False

instance RbOp.decidablePlain (s : RbRun) (op : RbOp) : Decidable (op.plain s) := by
  unfold RbOp.plain; split <;> infer_instance

/-- The runs of a ring buffer that `rt_ringbuffer_init` has initialised with the size, a positive
number of 16 bits. -/
def rbSystem (size : ℕ) : System RbRun RbOp where
  init s := ∃ pool rb, rtRingbufferInit pool size = .ok rb ∧ s = ⟨rb, 0, [], [], 0, []⟩
  step s op s' := op.exec s = s'

section

variable {s : RbRun} {size : ℕ}

theorem rtRingbufferInit_filled {pool : ℕ → UInt8} {rb : Ringbuffer} (hsize : RT_ALIGN_SIZE ≤ size) (hsmall : size < 2^15)
    (h : rtRingbufferInit pool size = .ok rb) : Filled rb 0 ∧ rb.bufferSize = rtAlignDown size RT_ALIGN_SIZE := by
  have halign : rtAlignDown size RT_ALIGN_SIZE = size / 4 * 4 := rtAlignDown_four (by omega)
  unfold RT_ALIGN_SIZE at hsize
  unfold rtRingbufferInit at h
  rw [if_pos (by omega)] at h
  cases h
  have hpos : 0 < size / 4 * 4 := by omega
  refine ⟨⟨halign ▸ hpos, ?_, halign ▸ hpos, zero_le _, ?_, ?_⟩, rfl⟩
  · change rtAlignDown size RT_ALIGN_SIZE < 2^15
    rw [halign]
    omega
  · exact (zero_mod _).symm
  · exact ⟨fun _ => halign ▸ hpos, fun _ => rfl⟩

theorem Ringbuffer.write_bufferSize : (rb.write ptr length).bufferSize = rb.bufferSize := by
  unfold Ringbuffer.write
  split_ifs <;> rfl

theorem Ringbuffer.writechar_bufferSize : (rb.writechar ch).bufferSize = rb.bufferSize := by
  unfold Ringbuffer.writechar
  dsimp only
  split_ifs <;> rfl

/-- No operation changes the size. -/
theorem RbOp.bufferSize_exec (op : RbOp) : (op.exec s).rb.bufferSize = s.rb.bufferSize := by
  cases op with
  | put ptr length =>
    change (rtRingbufferPut s.rb ptr length.toNat).1.bufferSize = _
    unfold rtRingbufferPut
    dsimp only
    split_ifs <;> first | rfl | exact Ringbuffer.write_bufferSize ..
  | get ptr length =>
    change (rtRingbufferGet s.rb ptr length.toNat).1.bufferSize = _
    unfold rtRingbufferGet
    dsimp only
    split_ifs <;> rfl
  | putchar ch =>
    change (rtRingbufferPutchar s.rb ch).1.bufferSize = _
    unfold rtRingbufferPutchar
    split_ifs
    · rfl
    · exact Ringbuffer.writechar_bufferSize ..
  | getchar =>
    change (rtRingbufferGetchar s.rb).1.bufferSize = _
    unfold rtRingbufferGetchar
    split_ifs <;> rfl
  | putForce ptr length =>
    change (rtRingbufferPutForce s.rb ptr length.toNat).1.bufferSize = _
    unfold rtRingbufferPutForce
    dsimp only
    split_ifs <;> exact Ringbuffer.write_bufferSize ..
  | putcharForce ch =>
    change (rtRingbufferPutcharForce s.rb ch).1.bufferSize = _
    unfold rtRingbufferPutcharForce
    dsimp only
    split_ifs <;> exact Ringbuffer.writechar_bufferSize ..
  | reset => rfl

theorem RbOp.filled (op : RbOp) (h : ∃ used, Filled s.rb used) : ∃ used, Filled (op.exec s).rb used := by
  obtain ⟨used, h⟩ := h
  cases op with
  | put ptr length => exact ⟨_, (h.put ptr length.toNat).2.1⟩
  | get ptr length => exact ⟨_, (h.get ptr length.toNat).2.1⟩
  | putchar ch => exact ⟨_, (h.putchar ch).2.1⟩
  | getchar => exact ⟨_, h.getchar.2.1⟩
  | putForce ptr length => exact ⟨_, (h.putForce ptr length.toNat).1⟩
  | putcharForce ch => exact ⟨_, (h.putcharForce ch).1⟩
  | reset => exact ⟨0, h.pos, h.small, h.pos, zero_le _, (zero_mod _).symm, ⟨fun _ => h.pos, fun _ => rfl⟩⟩

/-- The buffer holds the queue, and the last call has returned what the queue says. -/
structure RbRun.Agrees (s : RbRun) : Prop where
  filled : Filled s.rb s.queue.length
  view : s.rb.view = s.queue
  ret : s.ret = s.specRet
  out : s.out = s.specOut

/-- An operation does to the view what it does to the queue. -/
theorem RbRun.Agrees.exec {op : RbOp} (h : s.Agrees) (hplain : op.plain s) : (op.exec s).Agrees := by
  -- The length of the queue is read off the view, which the call leaves equal to the queue.
  cases op with
  | put ptr length =>
    obtain ⟨hret, hfilled, hview⟩ := h.filled.put ptr length.toNat
    have hview : (rtRingbufferPut s.rb ptr length.toNat).1.view =
        offer s.rb.bufferSize s.queue ((range length.toNat).map ptr) := h.view ▸ hview
    refine ⟨?_, hview, hret, rfl⟩
    change Filled (rtRingbufferPut s.rb ptr length.toNat).1 (offer s.rb.bufferSize s.queue _).length
    rwa [← hview, hfilled.length_view]
  | get ptr length =>
    obtain ⟨hret, hfilled, hview, hout⟩ := h.filled.get ptr length.toNat
    rw [h.view] at hview hout
    refine ⟨?_, hview, hret, ?_⟩
    · change Filled (rtRingbufferGet s.rb ptr length.toNat).1 (s.queue.drop length.toNat).length
      rwa [← hview, hfilled.length_view]
    · change (range (rtRingbufferGet s.rb ptr length.toNat).2.1).map _ = s.queue.take length.toNat
      rw [hret, hout]
  | putchar ch =>
    obtain ⟨hret, hfilled, hview⟩ := h.filled.putchar ch
    have hview : (rtRingbufferPutchar s.rb ch).1.view = offer s.rb.bufferSize s.queue [ch] := h.view ▸ hview
    refine ⟨?_, hview, hret, rfl⟩
    change Filled (rtRingbufferPutchar s.rb ch).1 (offer s.rb.bufferSize s.queue _).length
    rwa [← hview, hfilled.length_view]
  | getchar =>
    obtain ⟨hret, hfilled, hview⟩ := h.filled.getchar
    rw [h.view] at hview hret
    refine ⟨?_, hview, ?_, ?_⟩
    · change Filled (rtRingbufferGetchar s.rb).1 (s.queue.drop 1).length
      rwa [← hview, hfilled.length_view]
    · change (if (rtRingbufferGetchar s.rb).2.isSome then 1 else 0) = min 1 s.queue.length
      rw [hret]
      cases s.queue <;> simp
    · change (rtRingbufferGetchar s.rb).2.toList = s.queue.take 1
      rw [hret]
      cases s.queue <;> simp
  | putForce ptr length | putcharForce ch | reset => exact absurd hplain id

/-- A ring buffer of which bytes are put and got is a bounded queue of bytes: every call has
returned what the queue says, and `rt_ringbuffer_data_len` is the length of the queue. -/
theorem ringbuffer_fifo (hsize : RT_ALIGN_SIZE ≤ size) (hsmall : size < 2^15)
    (h : Reachable (rbSystem size) RbOp.plain s) :
    s.rb.bufferSize = rtAlignDown size RT_ALIGN_SIZE ∧ s.rb.view = s.queue ∧ s.ret = s.specRet ∧ s.out = s.specOut ∧
      rtRingbufferDataLen s.rb = s.queue.length ∧ s.queue.length ≤ s.rb.bufferSize := by
  have hinv : s.rb.bufferSize = rtAlignDown size RT_ALIGN_SIZE ∧ s.Agrees := by
    refine h.invariant ?_ ?_
    · rintro s ⟨pool, rb, hinit, rfl⟩
      obtain ⟨hfilled, hcap⟩ := rtRingbufferInit_filled hsize hsmall hinit
      exact ⟨hcap, hfilled, by rw [hfilled.view_eq, fifo_zero], rfl, rfl⟩
    · rintro s op s' ⟨hcap, hagrees⟩ hplain rfl
      exact ⟨op.bufferSize_exec.trans hcap, hagrees.exec hplain⟩
  obtain ⟨hcap, hagrees⟩ := hinv
  exact ⟨hcap, hagrees.view, hagrees.ret, hagrees.out, hagrees.filled.dataLen, hagrees.filled.used_le⟩

/-- A run around the end of a buffer of four bytes. -/
theorem ringbuffer_fifo_run : ∃ s : RbRun, Reachable (rbSystem 7) RbOp.plain s ∧ s.out = [3, 4, 5] ∧
    s.rb.readIndex = 1 ∧ s.rb.bufferSize = rtAlignDown 7 RT_ALIGN_SIZE ∧ s.rb.view = s.queue ∧ s.ret = s.specRet ∧
      s.out = s.specOut ∧ rtRingbufferDataLen s.rb = s.queue.length := by
  have hinit : (rbSystem 7).init ⟨⟨fun _ => 0, false, 0, false, 0, 4⟩, 0, [], [], 0, []⟩ := ⟨fun _ => 0, _, rfl, rfl⟩
  have hrun : ∃ s : RbRun, Reachable (rbSystem 7) RbOp.plain s ∧ s.out = [3, 4, 5] ∧ s.rb.readIndex = 1 := by
    refine exists_reachable_of_run (f := fun s op => some (RbOp.exec s op)) hinit
      [.put (fun i => UInt8.ofNat (i + 1)) 3, .get (fun _ => 0) 2, .put (fun i => UInt8.ofNat (i + 4)) 9, .get (fun _ => 0) 3] ?_
      fun _ _ _ => Option.some.inj
    decide
  obtain ⟨s, hs, hout, hread⟩ := hrun
  obtain ⟨hcap, hview, hret, hspec, hlen, -⟩ := ringbuffer_fifo (by decide) (by decide) hs
  exact ⟨s, hs, hout, hread, hcap, hview, hret, hspec, hlen⟩

/-- In every state of a ring buffer, `rt_ringbuffer_put_force` leaves the last bytes of the old
contents and the new data exactly if it does not overrun bytes on one side of the mirror from the
other, and `rt_ringbuffer_putchar_force` always does. -/
theorem put_force_iff (hsize : RT_ALIGN_SIZE ≤ size) (hsmall : size < 2^15) (h : Reachable (rbSystem size) always s)
    (ptr : ℕ → UInt8) (length : UInt16) (ch : UInt8) :
    ((rtRingbufferPutForce s.rb ptr length.toNat).1.view =
      overwrite s.rb.bufferSize s.rb.view ((range length.toNat).map ptr) ↔ ¬s.rb.Overruns length.toNat) ∧
    (rtRingbufferPutcharForce s.rb ch).1.view = overwrite s.rb.bufferSize s.rb.view [ch] := by
  have hinv : ∃ used, Filled s.rb used := by
    refine h.invariant ?_ ?_
    · rintro s ⟨pool, rb, hinit, rfl⟩
      exact ⟨0, (rtRingbufferInit_filled hsize hsmall hinit).1⟩
    · rintro s op s' hfilled - rfl
      exact op.filled hfilled
  obtain ⟨used, hfilled⟩ := hinv
  obtain ⟨hafter, hview⟩ := hfilled.putForce ptr length.toNat
  refine ⟨⟨fun heq hbad => ?_, hview⟩, (hfilled.putcharForce ch).2⟩
  -- The buffer is empty, but should be full.
  rw [if_pos hbad] at hafter
  have hlen := congrArg List.length heq
  rw [hafter.length_view, length_overwrite, hfilled.length_view, List.length_map, List.length_range] at hlen
  obtain ⟨-, -, hover⟩ := hbad
  rw [hfilled.spaceLen] at hover
  omega

/-- Three bytes are stored in a buffer of four, and a block of four is put. -/
theorem put_force_iff_run : ∃ s : RbRun, Reachable (rbSystem 4) always s ∧ s.rb.view = [1, 2, 3] ∧ s.rb.Overruns 4 ∧
    ((rtRingbufferPutForce s.rb (fun i => UInt8.ofNat (i + 4)) (4 : UInt16).toNat).1.view =
      overwrite s.rb.bufferSize s.rb.view ((range (4 : UInt16).toNat).map fun i => UInt8.ofNat (i + 4)) ↔
        ¬s.rb.Overruns (4 : UInt16).toNat) := by
  have hinit : (rbSystem 4).init ⟨⟨fun _ => 0, false, 0, false, 0, 4⟩, 0, [], [], 0, []⟩ := ⟨fun _ => 0, _, rfl, rfl⟩
  have hrun : ∃ s : RbRun, Reachable (rbSystem 4) always s ∧ s.rb.view = [1, 2, 3] ∧ s.rb.Overruns 4 := by
    refine exists_reachable_of_run (f := fun s op => some (RbOp.exec s op)) hinit
      [.put (fun i => UInt8.ofNat (i + 1)) 3] ?_ fun _ _ _ => Option.some.inj
    decide
  obtain ⟨s, hs, hview, hover⟩ := hrun
  exact ⟨s, hs, hview, hover, (put_force_iff (by decide) (by decide) hs _ 4 0).1⟩

/-- The block leaves the buffer empty. -/
theorem put_force_empties : ∃ s : RbRun, Reachable (rbSystem 4) always s ∧ s.rb.view = [1, 2, 3] ∧
    (rtRingbufferPutForce s.rb (fun i => UInt8.ofNat (i + 4)) (4 : UInt16).toNat).1.view = [] ∧
    overwrite s.rb.bufferSize s.rb.view ((range (4 : UInt16).toNat).map fun i => UInt8.ofNat (i + 4)) =
      [4, 5, 6, 7] := by
  have hinit : (rbSystem 4).init ⟨⟨fun _ => 0, false, 0, false, 0, 4⟩, 0, [], [], 0, []⟩ := ⟨fun _ => 0, _, rfl, rfl⟩
  refine exists_reachable_of_run (f := fun s op => some (RbOp.exec s op)) hinit
    [.put (fun i => UInt8.ofNat (i + 1)) 3] ?_ fun _ _ _ => Option.some.inj
  decide

end

end RtThread
