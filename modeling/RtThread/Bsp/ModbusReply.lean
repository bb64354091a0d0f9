import RtThread.Bsp.Modbus
import RtThread.Kernel.Model
import RtThread.Lib.Loop

/-!
# Decoding a Modbus reply

The model of `rtu_data_anlys` in `hardware/master.c`. The array of words that a reply is decoded into is
a function of the index. The loop over the bytes of a reply counts in a byte; `dataPass` is one pass of
it, with the step and the body of the function code.
-/

namespace RtThread.Bsp

open Lib Function Nat

/-- Read coils. -/
def READ_COIL : UInt8 := 1
/-- Read inputs. -/
def READ_DI : UInt8 := 2
/-- The code of a reply that is not understood. -/
def PROTOCOL_ERR : ℤ := 1

/-- The words that a reply is decoded into, the buffer with the reply, and the count of received
bytes. -/
structure Decoding where
  dest : ℕ → UInt16
  source : Bytes
  receCount2 : UInt8

/-- The loop over the bits of a byte, for both kinds of bits, after `n` passes. -/
def bitLoop (source_p base : ℕ) (d : Decoding) : ℕ → Decoding
  | 0 => d
  | tmp2 + 1 =>
    let d := bitLoop source_p base d tmp2
    { d with
      dest := update d.dest (base + tmp2) (1 &&& d.source (source_p + 3)).toUInt16
      source := update d.source (source_p + 3) (d.source (source_p + 3) >>> 1) }

/-- One pass of a loop that goes through the data bytes of a reply with the byte `tmp1`. -/
def dataPass (source_p : ℕ) (step : UInt8) (body : UInt8 → Decoding → Decoding) :
    UInt8 × Decoding → Except Fault ((UInt8 × Decoding) ⊕ Decoding)
  | (tmp1, d) =>
    if tmp1 < d.source (source_p + 2) then .ok (.inl (tmp1 + step, body tmp1 d)) else .ok (.inr d)

/-- The body of the loops of `READ_COIL` and `READ_DI`. -/
def bitsBody (source_p start : ℕ) (tmp1 : UInt8) (d : Decoding) : Decoding :=
  bitLoop source_p (start + tmp1.toNat * 8) d 8

/-- The body of the loops of `READ_HLD_REG` and function 4. -/
def registerBody (source_p start : ℕ) (tmp1 : UInt8) (d : Decoding) : Decoding :=
  { d with
    dest := update d.dest (start + tmp1.toNat / 2)
      ((d.source (source_p + tmp1.toNat + 3)).toUInt16 * 256 +
        (d.source (source_p + tmp1.toNat + 4)).toUInt16) }

/-- The loop of a function code, and -1 for the others. -/
def dataLoop (function : UInt8) (source_p start : ℕ) :
    Option (UInt8 × Decoding → Except Fault ((UInt8 × Decoding) ⊕ Decoding)) :=
  if function = READ_COIL then some (dataPass source_p 1 (bitsBody source_p start))
  else if function = READ_DI then some (dataPass source_p 1 (bitsBody source_p start))
  else if function = READ_HLD_REG then some (dataPass source_p 2 (registerBody source_p start))
  else if function = 4 then some (dataPass source_p 2 (registerBody source_p start))
  else none

/-- `rtu_data_anlys`: the check is compared, and then the loop of the function code is run. -/
def rtuDataAnlys (fuel : ℕ) (d : Decoding) (source_p : ℕ) (data_start_address fr_lenth : UInt16) :
    Except Fault (ℤ × Decoding) :=
  if crcMatches d.source source_p fr_lenth then
    match dataLoop (d.source (source_p + 1)) source_p data_start_address.toNat with
    -- `PROTOCOL_EXCEPTION` and the default
    | none => .ok (-1 * PROTOCOL_ERR, d)
    | some body => do
      let d ← loop .fuel body fuel (0, d)
      .ok (0, { d with receCount2 := 0 })
  else .ok (0, d)

/-! ## What a reply says -/

variable (m : Bytes)

/-- The number of data bytes that the reply says it has. -/
def byteCount (source_p : ℕ) : ℕ := (m (source_p + 2)).toNat

/-- The data byte number `i` of a reply. -/
def dataByte (source_p i : ℕ) : UInt8 := m (source_p + 3 + i)

/-- The reply is one to a request for bits. -/
def ofBits (source_p : ℕ) : Prop :=
  m (source_p + 1) = READ_COIL ∨ m (source_p + 1) = READ_DI

instance (m : Bytes) (source_p : ℕ) : Decidable (ofBits m source_p) :=
  inferInstanceAs (Decidable (_ ∨ _))

/-- The reply is one to a request for registers. -/
def ofRegisters (source_p : ℕ) : Prop :=
  m (source_p + 1) = READ_HLD_REG ∨ m (source_p + 1) = 4

/-- A reply with a correct check, to one of the four requests, that is as long as it says. -/
structure ReplyFrame (m : Bytes) (source_p : ℕ) (fr_lenth : UInt16) : Prop where
  crc : crcMatches m source_p fr_lenth = true
  function : ofBits m source_p ∨ ofRegisters m source_p
  length : fr_lenth.toNat = byteCount m source_p + 5

/-- A bit of a byte, as the word that it is stored in. -/
def bitOf (byte : UInt8) (j : ℕ) : UInt16 := if byte.toNat.testBit j then 1 else 0

/-- Every bit or register of the reply is at its place. -/
def Stored (source_p start : ℕ) (dest : ℕ → UInt16) : Prop :=
  if ofBits m source_p then
    ∀ i < byteCount m source_p, ∀ j < 8,
      dest (start + (8 * i + j)) = bitOf (dataByte m source_p i) j
  else
    ∀ k, 2 * k + 1 < byteCount m source_p → dest (start + k) =
      (dataByte m source_p (2 * k)).toUInt16 * 256 + (dataByte m source_p (2 * k + 1)).toUInt16

theorem toNat_add_of_lt {a b : UInt8} (h : a.toNat + b.toNat < 256) :
    (a + b).toNat = a.toNat + b.toNat := by
  rw [UInt8.toNat_add, mod_eq_of_lt h]

variable {source_p : ℕ} {step tmp1 : UInt8} {body : UInt8 → Decoding → Decoding} {d d' : Decoding}

theorem exists_returns_dataPass {I : UInt8 → Decoding → Prop} {Q : Decoding → Prop}
    (hcount : ∀ tmp1 d', I tmp1 d' → d'.source (source_p + 2) = d.source (source_p + 2))
    (hpass : ∀ tmp1 d', I tmp1 d' → tmp1.toNat < byteCount d.source source_p →
      I (tmp1 + step) (body tmp1 d') ∧ tmp1.toNat < (tmp1 + step).toNat)
    (hleave : ∀ tmp1 d', I tmp1 d' → byteCount d.source source_p ≤ tmp1.toNat → Q d') (hI : I 0 d) :
    ∃ d', Returns .fuel (dataPass source_p step body) (0, d) d' ∧ Q d' := by
  apply exists_returns (I := fun s : UInt8 × Decoding => I s.1 s.2) (fun s => 256 - s.1.toNat)
  · rintro ⟨tmp1, d'⟩ h
    have hlt_iff : tmp1 < d'.source (source_p + 2) ↔ tmp1.toNat < byteCount d.source source_p := by
      rw [hcount tmp1 d' h]
      exact UInt8.lt_iff_toNat_lt
    by_cases hlt : tmp1 < d'.source (source_p + 2)
    · left
      obtain ⟨hnext, hgrows⟩ := hpass tmp1 d' h (hlt_iff.mp hlt)
      refine ⟨_, if_pos hlt, hnext, ?_⟩
      have : tmp1.toNat < 256 := tmp1.toNat_lt
      show 256 - (tmp1 + step).toNat < 256 - tmp1.toNat
      omega
    · right
      exact ⟨d', if_neg hlt, hleave tmp1 d' h (not_lt.mp fun h => hlt (hlt_iff.mpr h))⟩
  · exact hI

theorem dataPass_eq_inl {s : UInt8 × Decoding} : dataPass source_p step body (tmp1, d) = .ok (.inl s) ↔
      tmp1 < d.source (source_p + 2) ∧ (tmp1 + step, body tmp1 d) = s := by
  rw [dataPass]
  split_ifs with hlt <;> simp [hlt]

theorem dataPass_eq_inr : dataPass source_p step body (tmp1, d) = .ok (.inr d') ↔
      ¬tmp1 < d.source (source_p + 2) ∧ d = d' := by
  rw [dataPass]
  split_ifs with hlt <;> simp [hlt]

theorem multiple_of_comes (hstep : step = 1 ∨ step = 2)
    (h : Comes (dataPass source_p step body) (0, d) (tmp1, d'))
    (hkeep : ∀ tmp1 d, (body tmp1 d).source (source_p + 2) = d.source (source_p + 2)) :
    d'.source (source_p + 2) = d.source (source_p + 2) ∧ tmp1.toNat % step.toNat = 0 := by
  generalize hs : (tmp1, d') = s at h
  induction h generalizing tmp1 d' with
  | start =>
    cases hs
    exact ⟨rfl, Nat.zero_mod _⟩
  | @pass s s' _ hpass ih =>
    subst hs
    obtain ⟨-, heq⟩ := dataPass_eq_inl.mp hpass
    obtain ⟨rfl, rfl⟩ := Prod.mk.inj heq
    obtain ⟨hcount, hmod⟩ := ih rfl
    refine ⟨(hkeep _ _).trans hcount, ?_⟩
    rcases hstep with rfl | rfl <;> simp [UInt8.toNat_add] at hmod ⊢ <;> omega

/-! ## Bits -/

section Bits

variable {base start : ℕ}

theorem one_and_toUInt16 {x byte : UInt8} {n : ℕ} (h : x.toNat = byte.toNat / 2^n) :
    (1 &&& x).toUInt16 = bitOf byte n := by
  apply UInt16.toNat_inj.mp
  rw [UInt8.toNat_toUInt16, UInt8.toNat_and, UInt8.toNat_one, one_and_eq_mod_two, h, bitOf,
    testBit_eq_decide_div_mod_eq]
  rcases mod_two_eq_zero_or_one (byte.toNat / 2^n) with h0 | h1
  · simp [h0]
  · simp [h1]

/-- What `n` passes of the loop over the bits have done. -/
structure BitsDone (source_p base : ℕ) (d : Decoding) (n : ℕ) (d' : Decoding) : Prop where
  byte : (d'.source (source_p + 3)).toNat = (d.source (source_p + 3)).toNat / 2^n
  source : ∀ a ≠ source_p + 3, d'.source a = d.source a
  bits : ∀ j < n, d'.dest (base + j) = bitOf (d.source (source_p + 3)) j
  dest : ∀ a, a < base ∨ base + n ≤ a → d'.dest a = d.dest a

theorem bitsDone_bitLoop (n : ℕ) : BitsDone source_p base d n (bitLoop source_p base d n) := by
  induction n with
  | zero =>
    exact { byte := by simp [bitLoop], source := fun _ _ => rfl, bits := by simp,
            dest := fun _ _ => rfl }
  | succ n ih =>
    constructor
    · simp only [bitLoop, update_self]
      rw [UInt8.toNat_shiftRight]
      show (_ : ℕ) >>> 1 = _
      rw [ih.byte, Nat.shiftRight_eq_div_pow, Nat.div_div_eq_div_mul, ← Nat.pow_add]
    · intro a ha
      simp only [bitLoop, update_of_ne ha]
      exact ih.source a ha
    · intro j hj
      simp only [bitLoop]
      rcases Nat.lt_succ_iff_lt_or_eq.mp hj with hlt | rfl
      · rw [update_of_ne (by omega)]
        exact ih.bits j hlt
      · rw [update_self]
        exact one_and_toUInt16 ih.byte
    · intro a ha
      simp only [bitLoop]
      rw [update_of_ne (by omega)]
      exact ih.dest a (by omega)

theorem BitsDone.byte_eq_zero (h : BitsDone source_p base d 8 d') :
    d'.source (source_p + 3) = 0 := by
  apply UInt8.toNat_inj.mp
  have hlt : (d.source (source_p + 3)).toNat < 256 := UInt8.toNat_lt _
  rw [h.byte, UInt8.toNat_zero]
  omega

/-- The state of the loop over the bytes, for bits: those of the first byte have arrived, and behind
them there are zeros. -/
structure BitsLoop (source_p start : ℕ) (d : Decoding) (tmp1 : UInt8) (d' : Decoding) : Prop where
  source : ∀ a ≠ source_p + 3, d'.source a = d.source a
  byte : d'.source (source_p + 3) = if tmp1.toNat = 0 then d.source (source_p + 3) else 0
  dest : ∀ i < tmp1.toNat, ∀ j < 8, d'.dest (start + (8 * i + j)) =
    if i = 0 then bitOf (d.source (source_p + 3)) j else 0

theorem BitsLoop.pass (h : BitsLoop source_p start d tmp1 d')
    (hnext : (tmp1 + 1).toNat = tmp1.toNat + 1) :
    BitsLoop source_p start d (tmp1 + 1) (bitsBody source_p start tmp1 d') := by
  have hdone : BitsDone source_p (start + tmp1.toNat * 8) d' 8 (bitsBody source_p start tmp1 d') :=
    bitsDone_bitLoop 8
  constructor
  · intro a ha
    exact (hdone.source a ha).trans (h.source a ha)
  · rw [if_neg (by omega)]
    exact hdone.byte_eq_zero
  · intro i hi j hj
    rcases Nat.lt_succ_iff_lt_or_eq.mp (hnext ▸ hi) with hlt | rfl
    · -- An earlier byte: the pass writes behind its elements.
      exact (hdone.dest _ (by omega)).trans (h.dest i hlt j hj)
    · have hbit := hdone.bits j hj
      rw [h.byte] at hbit
      rw [show start + (8 * tmp1.toNat + j) = start + tmp1.toNat * 8 + j by omega, hbit]
      split
      · rfl
      · simp [bitOf]

/-- For bits the loop reads byte 3 in every pass and shifts it out: its bits arrive, and then
zeros. -/
theorem exists_returns_bits (source_p start : ℕ) (d : Decoding) :
    ∃ d', Returns .fuel (dataPass source_p 1 (bitsBody source_p start)) (0, d) d' ∧
      ∀ i < byteCount d.source source_p, ∀ j < 8, d'.dest (start + (8 * i + j)) =
        if i = 0 then bitOf (d.source (source_p + 3)) j else 0 := by
  have hcount : byteCount d.source source_p < 256 := UInt8.toNat_lt _
  apply exists_returns_dataPass (I := BitsLoop source_p start d)
  · intro tmp1 d' h
    exact h.source _ (by omega)
  · intro tmp1 d' h hlt
    have hnext : (tmp1 + 1).toNat = tmp1.toNat + 1 :=
      toNat_add_of_lt (show tmp1.toNat + 1 < 256 by omega)
    exact ⟨h.pass hnext, by omega⟩
  · intro tmp1 d' h hge i hi j hj
    exact h.dest i (by omega) j hj
  · exact { source := fun _ _ => rfl, byte := rfl, dest := fun i hi => absurd hi (not_lt_zero i) }

end Bits

/-! ## Registers -/

section Registers

variable {start : ℕ}

/-- The register number `k` of a reply, high byte first. -/
def registerOf (source_p k : ℕ) : UInt16 :=
  (dataByte m source_p (2 * k)).toUInt16 * 256 + (dataByte m source_p (2 * k + 1)).toUInt16

/-- The state of the loop over the bytes, for registers. -/
structure RegistersLoop (source_p start : ℕ) (d : Decoding) (tmp1 : UInt8) (d' : Decoding) : Prop where
  even : tmp1.toNat % 2 = 0
  source : d'.source = d.source
  dest : ∀ k, 2 * k < tmp1.toNat → d'.dest (start + k) = registerOf d.source source_p k

theorem RegistersLoop.pass (h : RegistersLoop source_p start d tmp1 d')
    (hnext : (tmp1 + 2).toNat = tmp1.toNat + 2) :
    RegistersLoop source_p start d (tmp1 + 2) (registerBody source_p start tmp1 d') := by
  have heven := h.even
  constructor
  · omega
  · exact h.source
  · intro k hk
    simp only [registerBody]
    by_cases hlt : 2 * k < tmp1.toNat
    · rw [update_of_ne (by omega)]
      exact h.dest k hlt
    · have hk' : 2 * k = tmp1.toNat := by omega
      rw [show start + k = start + tmp1.toNat / 2 by omega, update_self, h.source,
        registerOf, dataByte, dataByte, hk', show source_p + tmp1.toNat + 3 =
          source_p + 3 + tmp1.toNat by omega, show source_p + tmp1.toNat + 4 =
          source_p + 3 + (tmp1.toNat + 1) by omega]

/-- For registers the loop counts in steps of two, and every register arrives. -/
theorem exists_returns_registers (source_p start : ℕ) (d : Decoding)
    (hcount : byteCount d.source source_p ≠ 255) :
    ∃ d', Returns .fuel (dataPass source_p 2 (registerBody source_p start)) (0, d) d' ∧
      ∀ k, 2 * k < byteCount d.source source_p → d'.dest (start + k) = registerOf d.source source_p k := by
  have hbound : byteCount d.source source_p < 256 := UInt8.toNat_lt _
  apply exists_returns_dataPass (I := RegistersLoop source_p start d)
  · intro tmp1 d' h
    rw [h.source]
  · intro tmp1 d' h hlt
    have hnext : (tmp1 + 2).toNat = tmp1.toNat + 2 :=
      toNat_add_of_lt (show tmp1.toNat + 2 < 256 by omega)
    exact ⟨h.pass hnext, by omega⟩
  · intro tmp1 d' h hge k hk
    exact h.dest k (by omega)
  · exact { even := rfl, source := rfl, dest := fun k hk => absurd hk (not_lt_zero _) }

/-- A byte that counts in steps of two never reaches 255. -/
theorem not_returns_registers (hcount : byteCount d.source source_p = 255) :
    ¬ Returns .fuel (dataPass source_p 2 (registerBody source_p start)) (0, d) d' := by
  apply not_returns_of_invariant (I := Comes (dataPass source_p 2 (registerBody source_p start)) (0, d))
  · rintro ⟨tmp1, d'⟩ hcomes
    obtain ⟨hkept, heven⟩ := multiple_of_comes (.inr rfl) hcomes fun _ _ => rfl
    have hlt : tmp1 < d'.source (source_p + 2) := by
      have : tmp1.toNat < 256 := tmp1.toNat_lt
      change tmp1.toNat % 2 = 0 at heven
      rw [hkept, UInt8.lt_iff_toNat_lt, show (d.source (source_p + 2)).toNat = 255 from hcount]
      omega
    exact ⟨_, dataPass_eq_inl.mpr ⟨hlt, rfl⟩, hcomes.pass (dataPass_eq_inl.mpr ⟨hlt, rfl⟩)⟩
  · exact .start

end Registers

/-! ## Replies -/

/-- What the bytes of a reply must be for decoding it: of bits only those of the first byte are found,
and 255 bytes of registers are never done with. -/
def Decodable (source_p : ℕ) : Prop :=
  if ofBits m source_p then ∀ i, 0 < i → i < byteCount m source_p → dataByte m source_p i = 0
  else byteCount m source_p ≠ 255

theorem eq_zero_of_bitOf {byte : UInt8} (h : ∀ j < 8, bitOf byte j = 0) : byte = 0 := by
  apply UInt8.toNat_inj.mp
  rw [UInt8.toNat_zero]
  apply eq_of_testBit_eq
  intro j
  rw [zero_testBit]
  by_cases hj : j < 8
  · have hbit := h j hj
    unfold bitOf at hbit
    split at hbit
    · exact absurd hbit (by decide)
    · rename_i hclear
      exact Bool.eq_false_of_not_eq_true hclear
  · apply testBit_lt_two_pow
    calc byte.toNat < 2^8 := byte.toNat_lt
      _ ≤ 2^j := Nat.pow_le_pow_right (by omega) (by omega)

variable {data_start_address fr_lenth : UInt16}
  {pass : UInt8 × Decoding → Except Fault ((UInt8 × Decoding) ⊕ Decoding)}

section Loop

variable (hcrc : crcMatches d.source source_p fr_lenth = true)
  (hbody : dataLoop (d.source (source_p + 1)) source_p data_start_address.toNat = some pass)

include hcrc hbody

/-- With a correct check the function does what its loop does. -/
theorem rtuDataAnlys_ok_iff {r : ℤ} :
    (∃ fuel, rtuDataAnlys fuel d source_p data_start_address fr_lenth = .ok (r, d')) ↔
      r = 0 ∧ ∃ d₁, Returns .fuel pass (0, d) d₁ ∧ d' = { d₁ with receCount2 := 0 } := by
  constructor
  · rintro ⟨fuel, h⟩
    simp only [rtuDataAnlys, hcrc, if_true, hbody] at h
    cases hloop : loop .fuel pass fuel (0, d) with
    | error e =>
      rw [hloop] at h
      cases h
    | ok d₁ =>
      rw [hloop] at h
      obtain ⟨rfl, rfl⟩ := Prod.mk.inj (Except.ok.inj h)
      exact ⟨rfl, d₁, ⟨fuel, hloop⟩, rfl⟩
  · rintro ⟨rfl, d₁, ⟨fuel, hloop⟩, rfl⟩
    refine ⟨fuel, ?_⟩
    simp only [rtuDataAnlys, hcrc, if_true, hbody, hloop]
    rfl

theorem rtuDataAnlys_of_returns (hreturns : Returns .fuel pass (0, d) d') :
    ∃ fuel r, rtuDataAnlys fuel d source_p data_start_address fr_lenth = .ok r := by
  obtain ⟨fuel, hok⟩ := (rtuDataAnlys_ok_iff hcrc hbody).mpr ⟨rfl, d', hreturns, rfl⟩
  exact ⟨fuel, _, hok⟩

end Loop

theorem dataLoop_of_bits {m : Bytes} (start : ℕ) (h : ofBits m source_p) :
    dataLoop (m (source_p + 1)) source_p start =
      some (dataPass source_p 1 (bitsBody source_p start)) := by
  rcases h with h | h
  · rw [h]
    rfl
  · rw [h]
    rfl

theorem dataLoop_of_registers {m : Bytes} (start : ℕ) (h : ofRegisters m source_p) :
    dataLoop (m (source_p + 1)) source_p start =
      some (dataPass source_p 2 (registerBody source_p start)) := by
  rcases h with h | h
  · rw [h]
    rfl
  · rw [h]
    rfl

theorem ofRegisters.not_ofBits {m : Bytes} (h : ofRegisters m source_p) : ¬ ofBits m source_p := by
  unfold ofBits
  rcases h with h | h
  · rw [h]
    decide
  · rw [h]
    decide

/-- A reply is decoded completely exactly if its bits are all in the first byte, or its registers are
not in 255 bytes. -/
theorem rtu_reply_decoding {d : Decoding} {source_p : ℕ} (data_start_address : UInt16)
    {fr_lenth : UInt16} (hreply : ReplyFrame d.source source_p fr_lenth) :
    (∃ fuel d', rtuDataAnlys fuel d source_p data_start_address fr_lenth = .ok (0, d') ∧
      Stored d.source source_p data_start_address.toNat d'.dest) ↔ Decodable d.source source_p := by
  unfold Stored Decodable
  rcases hreply.function with hbits | hregisters
  · have hbody := dataLoop_of_bits data_start_address.toNat hbits
    obtain ⟨d₁, hreturns, hdest⟩ := exists_returns_bits source_p data_start_address.toNat d
    simp only [if_pos hbits]
    constructor
    · rintro ⟨fuel, d', hok, hstored⟩ i hi hlt
      obtain ⟨-, d₂, hreturns', rfl⟩ := (rtuDataAnlys_ok_iff hreply.crc hbody).mp ⟨fuel, hok⟩
      obtain rfl := hreturns.unique hreturns'
      apply eq_zero_of_bitOf
      intro j hj
      rw [← hstored i hlt j hj]
      exact (hdest i hlt j hj).trans (if_neg (by omega))
    · intro hzero
      obtain ⟨fuel, hok⟩ := (rtuDataAnlys_ok_iff hreply.crc hbody).mpr ⟨rfl, d₁, hreturns, rfl⟩
      refine ⟨fuel, _, hok, ?_⟩
      intro i hi j hj
      refine (hdest i hi j hj).trans ?_
      split
      · next h => rw [h, dataByte, add_zero]
      · rw [hzero i (by omega) hi]
        simp [bitOf]
  · have hbody := dataLoop_of_registers data_start_address.toNat hregisters
    simp only [if_neg hregisters.not_ofBits]
    constructor
    · rintro ⟨fuel, d', hok, -⟩ hcount
      obtain ⟨-, d₂, hreturns, -⟩ := (rtuDataAnlys_ok_iff hreply.crc hbody).mp ⟨fuel, hok⟩
      exact not_returns_registers hcount hreturns
    · intro hcount
      obtain ⟨d₁, hreturns, hdest⟩ :=
        exists_returns_registers source_p data_start_address.toNat d hcount
      obtain ⟨fuel, hok⟩ := (rtuDataAnlys_ok_iff hreply.crc hbody).mpr ⟨rfl, d₁, hreturns, rfl⟩
      exact ⟨fuel, _, hok, fun k hk => hdest k (by omega)⟩

/-- A buffer with the given bytes, to be decoded into an array of zeros. -/
def received (bytes : List UInt8) : Decoding :=
  { dest := fun _ => 0, source := fun a => bytes.getD a 0, receCount2 := 0 }

/-- A reply with one byte of bits. -/
theorem rtu_reply_decoding_oneByte : ReplyFrame (received [1, 1, 1, 5, 0x91, 0x8B]).source 0 6 ∧
    ∃ fuel d', rtuDataAnlys fuel (received [1, 1, 1, 5, 0x91, 0x8B]) 0 0 6 = .ok (0, d') ∧
      Stored (received [1, 1, 1, 5, 0x91, 0x8B]).source 0 0 d'.dest := by
  have hreply : ReplyFrame (received [1, 1, 1, 5, 0x91, 0x8B]).source 0 6 :=
    { crc := by decide +kernel, function := .inl (.inl rfl), length := rfl }
  refine ⟨hreply, (rtu_reply_decoding 0 hreply).mpr ?_⟩
  intro i hi hlt
  change i < 1 at hlt
  omega

/-- The bits of a second byte do not arrive: coil 8 is on and is stored as off. -/
theorem second_byte_of_coils_lost : ReplyFrame (received [1, 1, 2, 1, 3, 0xF8, 0x6D]).source 0 7 ∧
    ¬ ∃ fuel d', rtuDataAnlys fuel (received [1, 1, 2, 1, 3, 0xF8, 0x6D]) 0 0 7 = .ok (0, d') ∧
      Stored (received [1, 1, 2, 1, 3, 0xF8, 0x6D]).source 0 0 d'.dest := by
  have hbits : ofBits (received [1, 1, 2, 1, 3, 0xF8, 0x6D]).source 0 := .inl rfl
  have hreply : ReplyFrame (received [1, 1, 2, 1, 3, 0xF8, 0x6D]).source 0 7 :=
    { crc := by decide +kernel, function := .inl hbits, length := rfl }
  refine ⟨hreply, ?_⟩
  rintro ⟨fuel, d', hok, hstored⟩
  obtain ⟨d₁, hreturns, hdest⟩ := exists_returns_bits 0 0 (received [1, 1, 2, 1, 3, 0xF8, 0x6D])
  obtain ⟨-, d₂, hreturns', rfl⟩ :=
    (rtuDataAnlys_ok_iff hreply.crc (dataLoop_of_bits (0 : UInt16).toNat hbits)).mp ⟨fuel, hok⟩
  obtain rfl := hreturns.unique hreturns'
  rw [Stored, if_pos hbits] at hstored
  have hone : d₁.dest 8 = 1 := hstored 1 (by decide) 0 (by decide)
  have hzero : d₁.dest 8 = 0 := hdest 1 (by decide) 0 (by decide)
  exact absurd (hone.symm.trans hzero) (by decide)

/-! ## What a frame makes the function read -/

/-- Two buffers have the same frame of `n` bytes. -/
def SameFrame (m m' : Bytes) (source_p n : ℕ) : Prop := ∀ i < n, m' (source_p + i) = m (source_p + i)

/-- A call ends, and its results are the value returned, the words, and the count of received bytes. -/
def EndsWith (d : Decoding) (source_p : ℕ) (data_start_address fr_lenth : UInt16)
    (out : ℤ × (ℕ → UInt16) × UInt8) : Prop :=
  ∃ fuel d', rtuDataAnlys fuel d source_p data_start_address fr_lenth = .ok (out.1, d') ∧
    d'.dest = out.2.1 ∧ d'.receCount2 = out.2.2

/-- A call, with the computation of the check, reads nothing outside the frame: its results do not
depend on the bytes there. -/
def ReadsFrameOnly (d : Decoding) (source_p : ℕ) (data_start_address fr_lenth : UInt16) : Prop :=
  ∀ m' out, SameFrame d.source m' source_p fr_lenth.toNat → EndsWith d source_p data_start_address fr_lenth out →
    EndsWith { d with source := m' } source_p data_start_address fr_lenth out

/-- The frame reaches up to the last data byte that its count asks for, and the count can be reached. -/
def Reaches (source_p : ℕ) (fr_lenth : UInt16) : Prop :=
  if ofBits m source_p then 0 < byteCount m source_p → 3 < fr_lenth.toNat
  else ofRegisters m source_p → 0 < byteCount m source_p →
    byteCount m source_p ≠ 255 ∧ (byteCount m source_p + 1) / 2 * 2 + 2 < fr_lenth.toNat

section Reads

variable {m m' : Bytes} {start n : ℕ}

theorem crcLoop_congr {a : ℕ} {crc : UInt8 × UInt8} (h : ∀ i < n, m' (a + i) = m (a + i)) :
    crcLoop m' a n crc = crcLoop m a n crc := by
  induction n generalizing a crc with
  | zero => rfl
  | succ n ih =>
    rw [crcLoop, crcLoop, ← add_zero a, h 0 (by omega), add_zero]
    refine ih fun i hi => ?_
    rw [add_assoc, add_comm 1]
    exact h (i + 1) (by omega)

theorem crcMatches_congr (hlen : 2 ≤ fr_lenth.toNat) (h : SameFrame m m' source_p fr_lenth.toNat) :
    crcMatches m' source_p fr_lenth = crcMatches m source_p fr_lenth := by
  have hsub : (fr_lenth - 2).toNat = fr_lenth.toNat - 2 := UInt16.toNat_sub_of_le _ _ hlen
  unfold crcMatches crc16
  rw [Nat.add_sub_assoc hlen, Nat.add_sub_assoc (by omega), h _ (by omega), h _ (by omega), hsub,
    crcLoop_congr fun i hi => h i (by omega)]

/-- A frame that is only a check has the check of no bytes. -/
theorem function_of_two (hcrc : crcMatches m source_p fr_lenth = true) (hlen : fr_lenth.toNat = 2) :
    m (source_p + 1) = 0xFF := by
  obtain rfl : fr_lenth = 2 := UInt16.toNat_inj.mp hlen
  have hempty : crc16 m source_p (2 - 2) = 0xFFFF := by
    rw [crc16, show (2 - 2 : UInt16).toNat = 0 from rfl, crcLoop]
    decide
  have hcheck : (m source_p).toUInt16 * 256 + (m (source_p + 1)).toUInt16 = 0xFFFF := by
    rw [← hempty]
    exact eq_of_beq hcrc
  have hnat := congrArg UInt16.toNat hcheck
  have hhi := (m source_p).toNat_lt
  have hlo := (m (source_p + 1)).toNat_lt
  simp only [UInt16.toNat_add, UInt16.toNat_mul, UInt8.toNat_toUInt16, UInt16.reduceToNat] at hnat
  apply UInt8.toNat_inj.mp
  change _ = 255
  omega

theorem two_lt_of_function (hcrc : crcMatches m source_p fr_lenth = true) (hlen : 2 ≤ fr_lenth.toNat)
    (hfunction : ofBits m source_p ∨ ofRegisters m source_p) : 2 < fr_lenth.toNat := by
  by_contra hshort
  have hff := function_of_two hcrc (by omega)
  simp only [ofBits, ofRegisters, hff] at hfunction
  revert hfunction
  decide

/-- Two states of the decoding that differ outside the frame at most. -/
structure Alike (source_p n : ℕ) (d d' : Decoding) : Prop where
  frame : SameFrame d.source d'.source source_p n
  dest : d'.dest = d.dest
  count : d'.receCount2 = d.receCount2

theorem Alike.bitLoop (h : Alike source_p n d d') (hn : 3 < n) (base k : ℕ) :
    Alike source_p n (bitLoop source_p base d k) (bitLoop source_p base d' k) := by
  induction k with
  | zero => exact h
  | succ k ih =>
    have hbyte := ih.frame 3 hn
    refine ⟨fun i hi => ?_, ?_, ih.count⟩
    · change update _ _ _ (source_p + i) = update _ _ _ (source_p + i)
      rw [update_apply, update_apply, hbyte, ih.frame i hi]
    · change update _ _ _ = update _ _ _
      rw [hbyte, ih.dest]

theorem Alike.registerBody (h : Alike source_p n d d') (hn : tmp1.toNat + 4 < n) :
    Alike source_p n (registerBody source_p start tmp1 d) (registerBody source_p start tmp1 d') := by
  refine ⟨h.frame, ?_, h.count⟩
  change update _ _ _ = update _ _ _
  rw [add_assoc, add_assoc, h.frame _ (by omega), h.frame _ hn, h.dest]

/-- A loop whose passes read inside the frame only ends in the same way when the bytes outside change. -/
theorem readsFrameOnly_of_pass (hlen : 2 < fr_lenth.toNat)
    (hcrc : crcMatches d.source source_p fr_lenth = true)
    (hbody : dataLoop (d.source (source_p + 1)) source_p data_start_address.toNat =
      some (dataPass source_p step body)) (hstep : step = 1 ∨ step = 2)
    (hkeep : ∀ tmp1 d, (body tmp1 d).source (source_p + 2) = d.source (source_p + 2))
    (halike : ∀ tmp1 d₁ d₂, tmp1.toNat < byteCount d.source source_p → tmp1.toNat % step.toNat = 0 →
      Alike source_p fr_lenth.toNat d₁ d₂ → Alike source_p fr_lenth.toNat (body tmp1 d₁) (body tmp1 d₂)) :
    ReadsFrameOnly d source_p data_start_address fr_lenth := by
  rintro m' ⟨r, dest, count⟩ hframe ⟨fuel, d', hok, rfl, rfl⟩
  obtain ⟨rfl, d₁, ⟨n, hloop⟩, rfl⟩ := (rtuDataAnlys_ok_iff hcrc hbody).mp ⟨fuel, hok⟩
  -- The two loops go in step, with the same words.
  have hrel : ∃ d₂, loop .fuel (dataPass source_p step body) n (0, { d with source := m' }) = .ok d₂ ∧
      Alike source_p fr_lenth.toNat d₁ d₂ := by
    refine loop_rel (R := fun s t => t.1 = s.1 ∧ Alike source_p fr_lenth.toNat s.2 t.2 ∧
      Comes (dataPass source_p step body) (0, d) s) ?_ ?_ ⟨rfl, ⟨hframe, rfl, rfl⟩, .start⟩ hloop
    · rintro ⟨_, d₁⟩ ⟨tmp1, d₂⟩ s' ⟨rfl, hd, hcomes⟩ hpass
      obtain ⟨hlt, rfl⟩ := dataPass_eq_inl.mp hpass
      obtain ⟨hcount, hmod⟩ := multiple_of_comes hstep hcomes hkeep
      have hmore : tmp1.toNat < byteCount d.source source_p := by
        rw [hcount] at hlt
        exact UInt8.lt_iff_toNat_lt.mp hlt
      refine ⟨_, dataPass_eq_inl.mpr ⟨?_, rfl⟩, rfl, halike tmp1 d₁ d₂ hmore hmod hd, hcomes.pass hpass⟩
      rwa [hd.frame 2 hlen]
    · rintro ⟨_, d₁⟩ ⟨tmp1, d₂⟩ r ⟨rfl, hd, -⟩ hpass
      obtain ⟨hge, rfl⟩ := dataPass_eq_inr.mp hpass
      exact ⟨d₂, dataPass_eq_inr.mpr ⟨by rwa [hd.frame 2 hlen], rfl⟩, hd⟩
  obtain ⟨d₂, hloop', hd⟩ := hrel
  have hcrc' : crcMatches m' source_p fr_lenth = true := (crcMatches_congr (by omega) hframe).trans hcrc
  have hbody' : dataLoop (m' (source_p + 1)) source_p data_start_address.toNat =
      some (dataPass source_p step body) := by
    rwa [hframe 1 (by omega)]
  obtain ⟨fuel', hok'⟩ := (rtuDataAnlys_ok_iff (d := { d with source := m' }) hcrc' hbody').mpr
    ⟨rfl, d₂, ⟨n, hloop'⟩, rfl⟩
  exact ⟨fuel', { d₂ with receCount2 := 0 }, hok', hd.dest, rfl⟩

theorem sameFrame_update (m : Bytes) (x : UInt8) {a : ℕ} (ha : n ≤ a) :
    SameFrame m (update m (source_p + a) x) source_p n := fun i hi => update_of_ne (by omega) ..

/-- A word that depends on the bytes outside the frame shows that they are read. -/
theorem not_readsFrameOnly {k : ℕ} {w : Bytes → UInt16} (hlen : 2 < fr_lenth.toNat)
    (hcrc : crcMatches d.source source_p fr_lenth = true)
    (hbody : dataLoop (d.source (source_p + 1)) source_p data_start_address.toNat = some pass)
    (hword : ∀ m', m' (source_p + 2) = d.source (source_p + 2) → ∃ d', Returns .fuel pass
      (0, { d with source := m' }) d' ∧ d'.dest k = w m')
    (hframe : SameFrame d.source m' source_p fr_lenth.toNat) (hne : w m' ≠ w d.source) :
    ¬ReadsFrameOnly d source_p data_start_address fr_lenth := by
  intro hreads
  have hcrc' := (crcMatches_congr (by omega) hframe).trans hcrc
  have hbody' : dataLoop (m' (source_p + 1)) source_p data_start_address.toNat = some pass := by
    rwa [hframe 1 (by omega)]
  obtain ⟨d₁, hreturns, hdest⟩ := hword d.source rfl
  obtain ⟨d₂, hreturns', hdest'⟩ := hword m' (hframe 2 hlen)
  obtain ⟨fuel, hok⟩ := (rtuDataAnlys_ok_iff hcrc hbody).mpr ⟨rfl, d₁, hreturns, rfl⟩
  obtain ⟨fuel', d₃, hok', hsame, -⟩ := hreads m' (0, d₁.dest, 0) hframe ⟨fuel, _, hok, rfl, rfl⟩
  obtain ⟨-, d₄, hreturns₄, rfl⟩ :=
    (rtuDataAnlys_ok_iff (d := { d with source := m' }) hcrc' hbody').mp ⟨fuel', hok'⟩
  obtain rfl := hreturns'.unique hreturns₄
  have hsame : d₂.dest = d₁.dest := hsame
  rw [hsame, hdest] at hdest'
  exact hne hdest'.symm

theorem registerOf_update_ne (m : Bytes) (source_p k : ℕ) :
    registerOf (update m (source_p + (2 * k + 4)) (m (source_p + (2 * k + 4)) + 1)) source_p k ≠
      registerOf m source_p k := by
  intro heq
  have hnat := congrArg UInt16.toNat heq
  have hhi : source_p + 3 + 2 * k ≠ source_p + (2 * k + 4) := by omega
  simp only [registerOf, dataByte, update_of_ne hhi,
    show source_p + 3 + (2 * k + 1) = source_p + (2 * k + 4) by omega, update_self, UInt16.toNat_add,
    UInt16.toNat_mul, UInt8.toNat_toUInt16, UInt8.toNat_add, UInt16.reduceToNat, UInt8.reduceToNat] at hnat
  have h1 := (m (source_p + 3 + 2 * k)).toNat_lt
  have h2 := (m (source_p + (2 * k + 4))).toNat_lt
  omega

section Bounded

variable (hlen : 2 ≤ fr_lenth.toNat) (hcrc : crcMatches d.source source_p fr_lenth = true)

include hlen hcrc

/-- A call that decodes bits reads byte 3 of the frame, if the count is not zero. -/
theorem bits_bounded_iff (hbits : ofBits d.source source_p) :
    ((∃ fuel r, rtuDataAnlys fuel d source_p data_start_address fr_lenth = .ok r) ∧
      ReadsFrameOnly d source_p data_start_address fr_lenth) ↔
      (0 < byteCount d.source source_p → 3 < fr_lenth.toNat) := by
  have hbody := dataLoop_of_bits data_start_address.toNat hbits
  have hheader := two_lt_of_function hcrc hlen (.inl hbits)
  constructor
  · -- A word has the last bit of byte 3.
    rintro ⟨-, hreads⟩ hcount
    by_contra hshort
    refine not_readsFrameOnly (k := data_start_address.toNat) (w := fun m' => bitOf (m' (source_p + 3)) 0)
      hheader hcrc hbody ?_ (sameFrame_update _ (d.source (source_p + 3) ^^^ 1) (not_lt.mp hshort)) ?_ hreads
    · intro m' hsame
      have hsame : byteCount m' source_p = byteCount d.source source_p := congrArg UInt8.toNat hsame
      obtain ⟨d', hreturns, hdest⟩ :=
        exists_returns_bits source_p data_start_address.toNat { d with source := m' }
      exact ⟨d', hreturns, hdest 0 (hsame ▸ hcount) 0 (by decide)⟩
    · rw [update_self, bitOf, bitOf, UInt8.toNat_xor, Nat.testBit_xor]
      cases (d.source (source_p + 3)).toNat.testBit 0 <;> decide
  · intro hlong
    obtain ⟨d₁, hreturns, -⟩ := exists_returns_bits source_p data_start_address.toNat d
    refine ⟨rtuDataAnlys_of_returns hcrc hbody hreturns, readsFrameOnly_of_pass hheader hcrc hbody (.inl rfl) ?_ ?_⟩
    · exact fun _ _ => (bitsDone_bitLoop 8).source _ (by omega)
    · exact fun tmp1 d₁ d₂ hlt _ h => h.bitLoop (hlong (by omega)) _ 8

/-- A call that decodes registers reads pairs of bytes up to the count, if that can be reached. -/
theorem registers_bounded_iff (hregs : ofRegisters d.source source_p) :
    ((∃ fuel r, rtuDataAnlys fuel d source_p data_start_address fr_lenth = .ok r) ∧
      ReadsFrameOnly d source_p data_start_address fr_lenth) ↔
      (0 < byteCount d.source source_p →
        byteCount d.source source_p ≠ 255 ∧ (byteCount d.source source_p + 1) / 2 * 2 + 2 < fr_lenth.toNat) := by
  have hbody := dataLoop_of_registers data_start_address.toNat hregs
  have hheader := two_lt_of_function hcrc hlen (.inr hregs)
  constructor
  · rintro ⟨⟨fuel, r, hok⟩, hreads⟩ hcount
    have h255 : byteCount d.source source_p ≠ 255 := by
      intro h255
      obtain ⟨-, d₁, hreturns, -⟩ := (rtuDataAnlys_ok_iff hcrc hbody).mp ⟨fuel, hok⟩
      exact not_returns_registers h255 hreturns
    refine ⟨h255, ?_⟩
    by_contra hshort
    -- The last register has the byte behind the last pair of data bytes.
    obtain ⟨k, hk⟩ : ∃ k, (byteCount d.source source_p + 1) / 2 = k + 1 := ⟨_, (Nat.succ_pred (by omega)).symm⟩
    have houtside : fr_lenth.toNat ≤ 2 * k + 4 := by omega
    refine not_readsFrameOnly (k := data_start_address.toNat + k) (w := fun m' => registerOf m' source_p k)
      hheader hcrc hbody ?_ (sameFrame_update _ _ houtside) (registerOf_update_ne d.source source_p k) hreads
    intro m' hsame
    have hsame : byteCount m' source_p = byteCount d.source source_p := congrArg UInt8.toNat hsame
    obtain ⟨d', hreturns, hdest⟩ := exists_returns_registers source_p data_start_address.toNat
      { d with source := m' } (hsame ▸ h255)
    have hk : 2 * k < byteCount m' source_p := by omega
    exact ⟨d', hreturns, hdest k hk⟩
  · intro hlong
    have h255 : byteCount d.source source_p ≠ 255 := fun h => (hlong (by omega)).1 h
    obtain ⟨d₁, hreturns, -⟩ := exists_returns_registers source_p data_start_address.toNat d h255
    refine ⟨rtuDataAnlys_of_returns hcrc hbody hreturns,
      readsFrameOnly_of_pass hheader hcrc hbody (.inr rfl) (fun _ _ => rfl) ?_⟩
    intro tmp1 d₁ d₂ hlt heven h
    have := (hlong (by omega)).2
    change tmp1.toNat % 2 = 0 at heven
    exact h.registerBody (by omega)

/-- A call with any other function code starts no loop. -/
theorem other_bounded (hbits : ¬ofBits d.source source_p) (hregs : ¬ofRegisters d.source source_p) :
    (∃ fuel r, rtuDataAnlys fuel d source_p data_start_address fr_lenth = .ok r) ∧
      ReadsFrameOnly d source_p data_start_address fr_lenth := by
  have hnone : dataLoop (d.source (source_p + 1)) source_p data_start_address.toNat = none := by
    simp only [ofBits, ofRegisters, not_or] at hbits hregs
    simp [dataLoop, hbits, hregs]
  have hok : ∀ m', SameFrame d.source m' source_p fr_lenth.toNat → ∀ fuel,
      rtuDataAnlys fuel { d with source := m' } source_p data_start_address fr_lenth =
        .ok (-1 * PROTOCOL_ERR, { d with source := m' }) := by
    intro m' hframe fuel
    have hnone' : dataLoop (m' (source_p + 1)) source_p data_start_address.toNat = none := by
      rwa [hframe 1 (by omega)]
    simp only [rtuDataAnlys, crcMatches_congr hlen hframe, hcrc, if_true, hnone']
  refine ⟨⟨0, _, hok d.source (fun _ _ => rfl) 0⟩, ?_⟩
  rintro m' ⟨r, dest, count⟩ hframe ⟨fuel, d', hok', rfl, rfl⟩
  obtain ⟨rfl, rfl⟩ := Prod.mk.inj (Except.ok.inj ((hok d.source (fun _ _ => rfl) fuel).symm.trans hok'))
  exact ⟨0, _, hok m' hframe 0, rfl, rfl⟩

end Bounded

end Reads

/-- On a frame of at least two bytes with a correct check, the function ends and reads nothing outside
the frame, exactly if the frame reaches up to the last data byte that its count asks for, and the count
is not one of 255 bytes of registers. -/
theorem rtu_reply_bounded {d : Decoding} {source_p : ℕ} (data_start_address : UInt16) {fr_lenth : UInt16}
    (hlen : 2 ≤ fr_lenth.toNat) (hcrc : crcMatches d.source source_p fr_lenth = true) :
    ((∃ fuel r, rtuDataAnlys fuel d source_p data_start_address fr_lenth = .ok r) ∧
      ReadsFrameOnly d source_p data_start_address fr_lenth) ↔ Reaches d.source source_p fr_lenth := by
  unfold Reaches
  by_cases hbits : ofBits d.source source_p
  · rw [if_pos hbits]
    exact bits_bounded_iff hlen hcrc hbits
  rw [if_neg hbits]
  by_cases hregs : ofRegisters d.source source_p
  · simp only [hregs, true_imp_iff]
    exact registers_bounded_iff hlen hcrc hregs
  · exact iff_of_true (other_bounded hlen hcrc hbits hregs) (absurd · hregs)

/-- A reply with one byte of bits, which the frame contains. -/
theorem rtu_reply_bounded_oneByte :
    crcMatches (received [1, 1, 1, 5, 0x91, 0x8B]).source 0 6 = true ∧
    (∃ fuel r, rtuDataAnlys fuel (received [1, 1, 1, 5, 0x91, 0x8B]) 0 0 6 = .ok r) ∧
      ReadsFrameOnly (received [1, 1, 1, 5, 0x91, 0x8B]) 0 0 6 := by
  have hcrc : crcMatches (received [1, 1, 1, 5, 0x91, 0x8B]).source 0 6 = true := by decide +kernel
  have hreaches : Reaches (received [1, 1, 1, 5, 0x91, 0x8B]).source 0 6 := by
    rw [Reaches, if_pos (by decide)]
    exact fun _ => by decide
  exact ⟨hcrc, (rtu_reply_bounded 0 (by decide) hcrc).mpr hreaches⟩

/-- A frame of five bytes that asks for 255 bytes of registers makes the function run forever. -/
theorem long_count_never_ends : crcMatches (received [1, 3, 255, 0x60, 0xB0]).source 0 5 = true ∧
    ∀ fuel r, rtuDataAnlys fuel (received [1, 3, 255, 0x60, 0xB0]) 0 0 5 ≠ .ok r := by
  have hcrc : crcMatches (received [1, 3, 255, 0x60, 0xB0]).source 0 5 = true := by decide +kernel
  have hregisters : ofRegisters (received [1, 3, 255, 0x60, 0xB0]).source 0 := .inl rfl
  refine ⟨hcrc, fun fuel ⟨r, d'⟩ hok => ?_⟩
  obtain ⟨-, d₁, hreturns, -⟩ :=
    (rtuDataAnlys_ok_iff hcrc (dataLoop_of_registers (0 : UInt16).toNat hregisters)).mp ⟨fuel, hok⟩
  exact not_returns_registers rfl hreturns

end RtThread.Bsp
