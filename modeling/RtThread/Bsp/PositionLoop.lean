import Mathlib.Algebra.Order.Field.Basic
import Mathlib.Data.Int.ModEq
import Mathlib.Tactic.Linarith

/-!
# The position loop of the screw

The model of `pid_thread_entry` in `applications/screw.c` and of `SeqIntPID` in `applications/pid.c`.
The position is the difference of the counters of two encoder timers, reduced to one turn of 4096
counts. The error is brought back to half a turn at most by one correction. Integers have the widths
of the source; an expression of type `int` is computed in `ℤ`, with the remainder of C. What the loop
does with the error is computed in `float`; nothing here depends on rounding, so the arithmetic is
that of any type with the operations that are used.
-/

namespace RtThread.Bsp

/-- A quarter of the counts of one turn. -/
def Parameter : UInt16 := 1024

/-- The integer part of `SeqIntPID`: the error `Err`. -/
def seqIntErr (GiveValue ActualValue : UInt16) : Int16 :=
  let turn : ℤ := 4 * Parameter.toNat
  let Err := Int16.ofInt (((GiveValue.toNat - ActualValue.toNat : ℤ) + turn).tmod turn)
  if 2 * (Parameter.toNat : ℤ) < Err.toInt then Int16.ofInt (Err.toInt - turn) else Err

variable (count count1 : UInt16)

/-- The position: `count_1` of `pid_thread_entry`, from the counters of the two timers. -/
def count_1 : UInt16 :=
  let difference := count - count1
  UInt16.ofNat ((difference.toNat + 4096) % 4096)

/-- The numbers that one call of `SeqIntPID` leaves for the next. -/
structure SeqInt (F : Type*) where
  seqIntPIDErrADD : F
  seqIntErrBack : F

/-- The state of the loop: the target and what the last pass has computed. -/
structure PidThread (F : Type*) extends SeqInt F where
  desireValue : Int16
  resultValue : F

section Loop

variable {F : Type*}

section Model

variable [Add F] [Sub F] [Mul F] [IntCast F] [LT F] [DecidableLT F]

/-- `SeqIntPID`: the integral is left out while the error is large. -/
def seqIntPID (Kp Ki Kd : F) (GiveValue ActualValue : UInt16) (s : SeqInt F) : F × SeqInt F :=
  let Err := (seqIntErr GiveValue ActualValue).toInt
  let KpWork := Kp * (Err : F)
  let KiWork := Ki * s.seqIntPIDErrADD
  let KdWork := Kd * ((Err : F) - s.seqIntErrBack)
  let result := if 100 < |Err| then KpWork + KdWork else KpWork + KiWork + KdWork
  (result, { seqIntPIDErrADD := s.seqIntPIDErrADD + (Err : F), seqIntErrBack := (Err : F) })

/-- The limit on the command. -/
def limited (ResultValue : F) : F :=
  if ((1800 : ℤ) : F) < ResultValue then ((1800 : ℤ) : F)
  else if ResultValue < ((-1800 : ℤ) : F) then ((-1800 : ℤ) : F)
  else ResultValue

/-- One pass of `pid_thread_entry`, with the two counters that it reads. The command that it sends is
`resultValue`. -/
def pidThreadEntry (s : PidThread F) (CNT4 CNT8 : UInt16) : PidThread F :=
  let (result, kept) := seqIntPID ((4 : ℤ) : F) ((0 : ℤ) : F) ((50 : ℤ) : F) s.desireValue.toUInt16
    (count_1 CNT4 CNT8) s.toSeqInt
  { s with toSeqInt := kept, resultValue := limited result }

end Model

/-! ## The error -/

theorem toNat_count_1 :
    ((count_1 count count1).toNat : ℤ) = ((count.toNat : ℤ) - count1.toNat) % 4096 := by
  have hsub : ((count - count1).toNat : ℤ) = ((count.toNat : ℤ) - count1.toNat) % 65536 := by
    rw [UInt16.toNat_sub]
    have := count1.toNat_lt
    omega
  have hsmall : ((count - count1).toNat + 4096) % 4096 < 2^16 := by omega
  unfold count_1
  simp only [UInt16.toNat_ofNat', Nat.mod_eq_of_lt hsmall]
  -- One turn divides the range of the counters, so the wrap of the difference does not show.
  omega

theorem toNat_toUInt16_modEq (desire : Int16) :
    (desire.toUInt16.toNat : ℤ) ≡ desire.toInt [ZMOD 65536] := by
  have h : desire.toInt = (desire.toUInt16.toNat : ℤ).bmod 65536 := BitVec.toInt_eq_toNat_bmod _
  rw [h]
  exact (Int.bmod_emod).symm

theorem seqIntErr_eq (GiveValue ActualValue : UInt16) (hactual : ActualValue.toNat < 4096) :
    (seqIntErr GiveValue ActualValue).toInt =
      let e := ((GiveValue.toNat : ℤ) - ActualValue.toNat) % 4096
      if 2048 < e then e - 4096 else e := by
  have hturn : (4 * (Parameter.toNat : ℤ)) = 4096 := rfl
  have hhalf : (2 * (Parameter.toNat : ℤ)) = 2048 := rfl
  have hrem : ((GiveValue.toNat - ActualValue.toNat : ℤ) + 4096).tmod 4096 =
      ((GiveValue.toNat : ℤ) - ActualValue.toNat) % 4096 := by
    rw [Int.tmod_eq_emod_of_nonneg (by omega)]
    omega
  have hfits : ∀ e : ℤ, -2^15 ≤ e → e < 2^15 → (Int16.ofInt e).toInt = e := fun e h h' =>
    Int16.toInt_ofInt_of_le h h'
  simp only [seqIntErr, hturn, hhalf, hrem]
  rw [hfits _ (by omega) (by omega)]
  split
  · exact hfits _ (by omega) (by omega)
  · exact hfits _ (by omega) (by omega)

theorem toNat_count_1_lt : (count_1 count count1).toNat < 4096 := by
  have := toNat_count_1 count count1
  omega

theorem seqIntErr_bounds (GiveValue count count1 : UInt16) :
    -2048 < (seqIntErr GiveValue (count_1 count count1)).toInt ∧
      (seqIntErr GiveValue (count_1 count count1)).toInt ≤ 2048 := by
  rw [seqIntErr_eq _ _ (toNat_count_1_lt count count1)]
  dsimp only
  split <;> omega

theorem seqIntErr_modEq (desire : Int16) (count count1 : UInt16) :
    (seqIntErr desire.toUInt16 (count_1 count count1)).toInt ≡
      desire.toInt - ((count.toNat : ℤ) - count1.toNat) [ZMOD 4096] := by
  have hgive : (desire.toUInt16.toNat : ℤ) % 4096 = desire.toInt % 4096 :=
    (toNat_toUInt16_modEq desire).of_dvd (by norm_num)
  have hactual := toNat_count_1 count count1
  rw [seqIntErr_eq _ _ (toNat_count_1_lt count count1), hactual]
  unfold Int.ModEq
  generalize (desire.toUInt16.toNat : ℤ) = give at hgive
  generalize desire.toInt = target at hgive
  dsimp only
  split <;> omega

/-- The error of a pass is the way from the position to the target and within half a turn. -/
theorem position_loop_error [Add F] [Sub F] [Mul F] [IntCast F] [LT F] [DecidableLT F]
    (s : PidThread F) (CNT4 CNT8 : UInt16) :
    ∃ Err : ℤ, (pidThreadEntry s CNT4 CNT8).seqIntErrBack = (Err : F) ∧
      Err = (seqIntErr s.desireValue.toUInt16 (count_1 CNT4 CNT8)).toInt ∧
      Err ≡ s.desireValue.toInt - ((CNT4.toNat : ℤ) - CNT8.toNat) [ZMOD 4096] ∧
      -2048 < Err ∧ Err ≤ 2048 := by
  refine ⟨_, rfl, rfl, seqIntErr_modEq s.desireValue CNT4 CNT8, ?_⟩
  exact seqIntErr_bounds _ CNT4 CNT8

end Loop

end RtThread.Bsp
