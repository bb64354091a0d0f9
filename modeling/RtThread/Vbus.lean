import Mathlib.Data.Int.Notation
import Mathlib.Data.Nat.Notation
import Mathlib.Logic.Function.Basic
import RtThread.Lib.Run

/-!
# Channels of the VBus

The model of `_chn0_actor`, `rt_vbus_request_chn` and `rt_vbus_close_chn` in `components/vbus/vbus.c`,
with flow control. A request is two steps, one before its wait and one after it. Whether there is
memory, whether a reply can be sent and how a wait ends is given with the step. A packet is its bytes
and those behind it.

The number in an acknowledged `SET` is not checked. A request that fails while its session is
`ESTABLISHING` frees the channel in the session, which is that of an earlier request, or channel `0`, if
no channel was chosen for this one.
-/

namespace RtThread

open Lib Option

/-- The number of channels. -/
def RT_VBUS_CHANNEL_NR : ℕ := 32

/-- The states of a channel. -/
inductive ChnStatus
  | available | closed | establishing | established | suspend | closing
  deriving DecidableEq

/-- The channel connects two parties. -/
def ChnStatus.Connected (x : ChnStatus) : Prop := x = .established ∨ x = .suspend

instance (x : ChnStatus) : Decidable x.Connected := inferInstanceAs (Decidable (_ ∨ _))

/-- The states of a session. -/
inductive SessionSt
  | available | listening | establishing
  deriving DecidableEq

/-- `struct rt_vbus_conn_session`, with the name of its request. -/
structure VbusSession where
  chnr : ℤ
  st : SessionSt
  name : List UInt8

/-- `_chn_status` and `_sess`. -/
structure Vbus where
  status : ℤ → ChnStatus
  sess : List VbusSession

/-- A channel number that the table has. -/
def ValidChn (chnr : ℤ) : Prop := 1 ≤ chnr ∧ chnr < RT_VBUS_CHANNEL_NR

instance (chnr : ℤ) : Decidable (ValidChn chnr) := inferInstanceAs (Decidable (_ ∧ _))

/-- The packets of channel 0. -/
inductive Chn0Cmd
  | enable (name : List UInt8)
  | set (name : List UInt8) (chnr : ℤ)
  | ackSet (name : List UInt8) (chnr : ℤ)
  | ackDisable (chnr : ℤ)
  | disable (chnr : ℤ)
  | suspend (chnr : ℤ)
  | resume (chnr : ℤ)
  | nakEnable (name : List UInt8)
  | other
  deriving DecidableEq

/-- The command of a packet. -/
def chn0Cmd (dp : List UInt8) : Chn0Cmd :=
  let byte i : ℤ := (dp.getD i 0).toNat
  let name i := (dp.drop i).takeWhile (· ≠ 0)
  match dp.getD 0 0, dp.getD 1 0 with
  | 0, _ => .enable (name 1)
  | 1, _ => .disable (byte 1)
  | 2, _ => .set (name 1) (byte ((name 1).length + 2))
  | 3, 2 => .ackSet (name 2) (byte ((name 2).length + 3))
  | 3, 1 => .ackDisable (byte 2)
  | 4, 0 => .nakEnable (name 2)
  | 5, _ => .suspend (byte 1)
  | 6, _ => .resume (byte 1)
  | _, _ => .other

/-- An assignment to `_chn_status`, and the sessions afterwards. -/
abbrev VbusEffect := Option (ℤ × ChnStatus) × List VbusSession

namespace Vbus

variable (s : Vbus)

/-- `_sess_find`. -/
def sessFind (name : List UInt8) (st : SessionSt) : Option ℕ :=
  s.sess.findIdx? fun x => x.st = st ∧ x.name = name

/-- The channel of a session is set. -/
def setChnr (i : ℕ) (chnr : ℤ) : List VbusSession := s.sess.modify i fun x => { x with chnr := chnr }

/-- `_chn0_actor`, unless it breaks off. Its reply is sent or not. -/
def chn0Actor (posted : Bool) : Chn0Cmd → Option VbusEffect
  | .enable name => do
    let i ← s.sessFind name .listening
    let chnr ← (List.range RT_VBUS_CHANNEL_NR).find? fun c : ℕ => s.status c = .available
    if posted then
      some (some (chnr, .establishing), s.sess.modify i fun x => { x with st := .establishing, chnr := chnr })
    else none
  | .set name chnr => do
    let i ← s.sessFind name .establishing
    if ValidChn chnr ∧ s.status chnr = .available ∧ posted then
      some (some (chnr, .established), s.setChnr i chnr)
    else none
  | .ackSet name chnr => do
    let i ← s.sessFind name .establishing
    some (some (chnr, .established), s.setChnr i chnr)
  | .ackDisable chnr => if ValidChn chnr then some (some (chnr, .available), s.sess) else none
  | .disable chnr => if ValidChn chnr then some (some (chnr, .closing), s.sess) else none
  | .suspend chnr =>
    if ValidChn chnr ∧ s.status chnr = .established then some (some (chnr, .suspend), s.sess) else none
  | .resume chnr =>
    if ValidChn chnr ∧ s.status chnr = .suspend then some (some (chnr, .established), s.sess) else none
  | .nakEnable name => do
    let i ← s.sessFind name .establishing
    some (none, s.setChnr i (-8))
  | .other => none

/-- `rt_vbus_close_chn`, unless it stops at its assertion. -/
def closeChn (chnr : ℤ) : Option VbusEffect :=
  if ValidChn chnr then
    if s.status chnr = .closed ∨ s.status chnr = .closing then some (some (chnr, .available), s.sess)
    else if (s.status chnr).Connected then some (some (chnr, .closing), s.sess)
    else none
  else none

end Vbus

/-- The steps, with what the rest of the system replies. -/
inductive VbusAct
  | packet (dp : List UInt8) (posted : Bool)
  /-- `rt_vbus_request_chn` up to its wait. -/
  | request (name : List UInt8) (isServer allocated : Bool)
  /-- The rest of `rt_vbus_request_chn` with the session `i`. -/
  | requestEnd (i : ℕ) (failed : Bool)
  | close (chnr : UInt8)

/-- What a step does to the sessions and to one channel. -/
def Vbus.effect (s : Vbus) : VbusAct → Option VbusEffect
  | .packet dp posted => s.chn0Actor posted (chn0Cmd dp)
  | .request name isServer allocated => do
    let i ← s.sess.findIdx? (·.st = .available)
    if isServer || allocated then
      some (none, s.sess.modify i fun x =>
        { x with st := if isServer then .listening else .establishing, name := name })
    else none
  | .requestEnd i failed => do
    let x ← s.sess[i]?
    some (if failed ∧ x.st = .establishing then some (x.chnr, .available) else none,
      s.sess.set i { x with st := .available })
  | .close chnr => s.closeChn chnr.toNat

/-- A step, unless it writes outside `_chn_status`. -/
def Vbus.exec (s : Vbus) (a : VbusAct) : Option Vbus :=
  match s.effect a with
  | none => some s
  | some (none, sess) => some { s with sess := sess }
  | some (some (chnr, x), sess) =>
    if 0 ≤ chnr ∧ chnr < RT_VBUS_CHANNEL_NR then some ⟨Function.update s.status chnr x, sess⟩ else none

/-- The state after `rt_vbus_init`, and the steps. -/
def vbusSystem : System Vbus VbusAct where
  init s := s = ⟨fun i => if i = 0 then .established else .available,
    List.replicate (RT_VBUS_CHANNEL_NR / 2) ⟨0, .available, []⟩⟩
  step s a s' := s.exec a = some s'

/-- An acknowledged `SET` has a channel number in range, and a request that fails while its session is
`ESTABLISHING` has one of a channel that is not connected. -/
def VbusAct.Sound (s : Vbus) : VbusAct → Prop
  | .packet dp _ =>
    match chn0Cmd dp with
    | .ackSet name chnr => s.sessFind name .establishing ≠ none → ValidChn chnr
    | _ => True
  | .requestEnd i failed => ∀ x ∈ s.sess[i]?, failed → x.st = .establishing →
    ValidChn x.chnr ∧ ¬(s.status x.chnr).Connected
  | .request _ _ _ | .close _ => True

/-- The step is a `DISABLE`, an acknowledged `DISABLE` or a close of the channel. -/
def VbusAct.Closes (chnr : ℤ) : VbusAct → Prop
  | .packet dp _ => chn0Cmd dp = .disable chnr ∨ chn0Cmd dp = .ackDisable chnr
  | .close c => (c.toNat : ℤ) = chnr
  | .request _ _ _ | .requestEnd _ _ => False

instance (s : Vbus) (a : VbusAct) : Decidable (a.Sound s) := by
  unfold VbusAct.Sound
  split
  · split <;> infer_instance
  all_goals infer_instance

section

variable {s : Vbus} {chnr : ℤ} {x : ChnStatus} {sess : List VbusSession} (hzero : s.status 0 = .established)
include hzero

/-- A packet changes the channel that it names. -/
theorem Vbus.chn0Actor_assigns {posted : Bool} {cmd : Chn0Cmd}
    (hsound : ∀ name, cmd = .ackSet name chnr → s.sessFind name .establishing ≠ none → ValidChn chnr)
    (h : s.chn0Actor posted cmd = some (some (chnr, x), sess)) : ValidChn chnr ∧
      ((s.status chnr).Connected → x.Connected ∨ cmd = .disable chnr ∨ cmd = .ackDisable chnr) := by
  cases cmd with
  | enable name =>
    obtain ⟨i, -, h⟩ := bind_eq_some_iff.mp h
    obtain ⟨c, hfind, h⟩ := bind_eq_some_iff.mp h
    obtain ⟨-, h⟩ := ite_none_right_eq_some.mp h
    cases h
    have hlt := List.mem_range.mp (List.mem_of_find?_eq_some hfind)
    have hfree : s.status c = .available := by simpa using List.find?_some hfind
    refine ⟨⟨?_, by omega⟩, fun hconnected => ?_⟩
    · -- Channel `0` is not available.
      have hne : c ≠ 0 := by
        rintro rfl
        exact absurd (hfree.symm.trans hzero) (by decide)
      omega
    · rw [hfree] at hconnected
      exact absurd hconnected (by decide)
  | set name c =>
    obtain ⟨i, -, h⟩ := bind_eq_some_iff.mp h
    obtain ⟨⟨hvalid, -⟩, h⟩ := ite_none_right_eq_some.mp h
    cases h
    exact ⟨hvalid, fun _ => .inl (by decide)⟩
  | ackSet name c =>
    obtain ⟨i, hi, h⟩ := bind_eq_some_iff.mp h
    cases h
    exact ⟨hsound name rfl (by simp [hi]), fun _ => .inl (by decide)⟩
  | ackDisable c | disable c =>
    obtain ⟨hvalid, h⟩ := ite_none_right_eq_some.mp h
    cases h
    exact ⟨hvalid, fun _ => .inr (by simp)⟩
  | suspend c | resume c =>
    obtain ⟨⟨hvalid, -⟩, h⟩ := ite_none_right_eq_some.mp h
    cases h
    exact ⟨hvalid, fun _ => .inl (by decide)⟩
  | nakEnable name =>
    obtain ⟨i, -, h⟩ := bind_eq_some_iff.mp h
    cases h
  | other => cases h

theorem Vbus.effect_assigns {a : VbusAct} (ha : a.Sound s) (h : s.effect a = some (some (chnr, x), sess)) :
    ValidChn chnr ∧ ((s.status chnr).Connected → x.Connected ∨ a.Closes chnr) := by
  cases a with
  | packet dp posted =>
    refine chn0Actor_assigns hzero (fun name hcmd => ?_) h
    simpa only [VbusAct.Sound, hcmd] using ha
  | request name isServer allocated =>
    obtain ⟨i, -, h⟩ := bind_eq_some_iff.mp h
    obtain ⟨-, h⟩ := ite_none_right_eq_some.mp h
    cases h
  | requestEnd i failed =>
    obtain ⟨y, hy, h⟩ := bind_eq_some_iff.mp h
    obtain ⟨hassign, -⟩ := Prod.mk.inj (some.inj h)
    obtain ⟨⟨hfailed, hst⟩, hassign⟩ := ite_none_right_eq_some.mp hassign
    cases hassign
    obtain ⟨hvalid, hfree⟩ := ha y hy hfailed hst
    exact ⟨hvalid, fun hconnected => absurd hconnected hfree⟩
  | close c =>
    obtain ⟨hvalid, h⟩ := ite_none_right_eq_some.mp h
    split_ifs at h <;> (cases h; exact ⟨hvalid, fun _ => .inr rfl⟩)

end

/-- Channel `0` stays established, and a step assigns to no other channel than one from `1` on, which stays
connected unless the step closes it. -/
theorem vbus_channels_isolated {s : Vbus} (h : Reachable vbusSystem (fun s a => a.Sound s) s) :
    s.status 0 = .established ∧ ∀ a : VbusAct, a.Sound s → ∀ chnr x sess,
      s.effect a = some (some (chnr, x), sess) →
        ValidChn chnr ∧ ((s.status chnr).Connected → x.Connected ∨ a.Closes chnr) := by
  have hzero : s.status 0 = .established := by
    refine h.invariant ?_ ?_
    · rintro s rfl
      rfl
    · intro s a s' hzero ha hs
      change s.exec a = some s' at hs
      unfold Vbus.exec at hs
      split at hs
      · exact some.inj hs ▸ hzero
      · exact some.inj hs ▸ hzero
      · next chnr x sess heffect =>
        have hvalid := (Vbus.effect_assigns hzero ha heffect).1
        have hne : 0 ≠ chnr := by
          rintro rfl
          exact absurd hvalid.1 (by decide)
        obtain ⟨-, hs⟩ := ite_none_right_eq_some.mp hs
        exact some.inj hs ▸ (Function.update_of_ne hne ..).trans hzero
  exact ⟨hzero, fun a ha chnr x sess => Vbus.effect_assigns hzero ha⟩

/-- A server gets channel `1`. -/
theorem vbus_channels_isolated_one : ∃ s : Vbus, Reachable vbusSystem (fun s a => a.Sound s) s ∧
    s.status 1 = .established ∧ s.status 0 = .established := by
  refine exists_reachable_and ?_ fun s hs _ => (vbus_channels_isolated hs).1
  refine exists_reachable_of_exec rfl
    [.request [97] true true, .packet [0, 97, 0] true, .packet [3, 2, 97, 0, 1] true] ?_
  decide

/-- A request that no one answers frees channel `0`. -/
theorem vbus_channel_zero_freed : ∃ s : Vbus, Reachable vbusSystem always s ∧ s.status 0 = .available := by
  refine exists_reachable_of_exec rfl [.request [97] false true, .requestEnd 0 true] ?_
  decide

end RtThread
