import RtThread.Kernel.Model
import RtThread.Lib.Run

/-!
# Opening and closing devices

The model of `rt_device_init`, `rt_device_open` and `rt_device_close` of `src/device.c`. A device
counts its users in `ref_count`, a byte, and says in the bit `RT_DEVICE_OFLAG_OPEN` of `open_flag`
whether it has one. A call is given what the driver's callbacks reply, with the open flags that the
open callback leaves behind. A reply of `-RT_ENOSYS` is passed on to the caller, but counts as a
success (`accepted`). The state of a run has one ghost component, the number of opens that have not
been closed.
-/

namespace RtThread

open Lib

/-- A device that can be opened once. -/
def RT_DEVICE_FLAG_STANDALONE : BitVec 16 := 0x008
/-- A device that is initialised. -/
def RT_DEVICE_FLAG_ACTIVATED : BitVec 16 := 0x010
/-- The open flags of a closed device. -/
def RT_DEVICE_OFLAG_CLOSE : BitVec 16 := 0x000
/-- The bit of the open flags that says that the device is open. -/
def RT_DEVICE_OFLAG_OPEN : BitVec 16 := 0x008
/-- The open flags that a caller may give. -/
def RT_DEVICE_OFLAG_MASK : BitVec 16 := 0xf0f

/-- `struct rt_device`, with the callbacks it has. -/
structure Device where
  flag : BitVec 16
  openFlag : BitVec 16
  /-- A byte. -/
  refCount : ℕ
  hasInit : Bool
  hasOpen : Bool
  hasClose : Bool
  deriving DecidableEq

/-- What the open or the close callback replies, and the open flags that it leaves. -/
structure Reply where
  result : ℤ
  openFlag : BitVec 16

/-- The results that the open flags and the count treat as a success. -/
def accepted (result : ℤ) : Prop := result = RT_EOK ∨ result = -RT_ENOSYS

instance : DecidablePred accepted := fun _ => inferInstanceAs (Decidable (_ ∨ _))

namespace Device

variable (d : Device)

/-- The device is initialised. -/
def activated : Prop := d.flag &&& RT_DEVICE_FLAG_ACTIVATED ≠ 0

/-- The device says that it is open. -/
def isOpen : Prop := d.openFlag &&& RT_DEVICE_OFLAG_OPEN ≠ 0

/-- The device can be opened once. -/
def standalone : Prop := d.flag &&& RT_DEVICE_FLAG_STANDALONE ≠ 0

instance : Decidable d.activated := inferInstanceAs (Decidable (_ ≠ _))
instance : Decidable d.isOpen := inferInstanceAs (Decidable (_ ≠ _))
instance : Decidable d.standalone := inferInstanceAs (Decidable (_ ≠ _))

/-- `rt_device_register`, as far as the fields of the device go. -/
def rtDeviceRegister (flags : BitVec 16) : Device :=
  { d with flag := flags, refCount := 0, openFlag := 0 }

/-- The device is initialised, if it has not been before. -/
def activate : Device :=
  if d.activated then d else { d with flag := d.flag ||| RT_DEVICE_FLAG_ACTIVATED }

/-- The init callback is invoked with the reply `init`, which is an error. -/
def initFails (init : ℤ) : Prop := ¬d.activated ∧ d.hasInit ∧ init ≠ RT_EOK

instance (init : ℤ) : Decidable (d.initFails init) := inferInstanceAs (Decidable (_ ∧ _ ∧ _))

/-- `rt_device_init`, if the init callback replies `init`. -/
def rtDeviceInit (init : ℤ) : ℤ × Device :=
  if d.hasInit ∧ ¬d.activated then
    if init ≠ RT_EOK then (init, d) else (init, d.activate)
  else (RT_EOK, d)

/-- `rt_device_open`, if the callbacks reply `init` and `reply`. -/
def rtDeviceOpen (oflag : BitVec 16) (init : ℤ) (reply : Reply) : Except Fault (ℤ × Device) :=
  if d.initFails init then .ok (init, d)
  else
    let d := d.activate
    if d.standalone ∧ d.isOpen then .ok (-RT_EBUSY, d)
    else
      let result := if d.hasOpen then reply.result else RT_EOK
      let flags := if d.hasOpen then reply.openFlag else oflag &&& RT_DEVICE_OFLAG_MASK
      if accepted result then
        let count := (d.refCount + 1) % 2 ^ 8
        if count = 0 then .error .assertion
        else .ok (result, { d with openFlag := flags ||| RT_DEVICE_OFLAG_OPEN, refCount := count })
      else .ok (result, { d with openFlag := flags })

/-- A call of `rt_device_close` gets as far as the close callback. -/
def callsClose : Prop := d.refCount = 1 ∧ d.hasClose

instance : Decidable d.callsClose := inferInstanceAs (Decidable (_ ∧ _))

/-- `rt_device_close`, if the close callback replies `reply`: what it returns, the device, and
whether it has invoked the callback. -/
def rtDeviceClose (reply : Reply) : ℤ × Device × Bool :=
  if d.refCount = 0 then (-RT_ERROR, d, false)
  else
    let d := { d with refCount := d.refCount - 1 }
    if d.refCount ≠ 0 then (RT_EOK, d, false)
    else
      let result := if d.hasClose then reply.result else RT_EOK
      let d := if d.hasClose then { d with openFlag := reply.openFlag } else d
      if accepted result then (result, { d with openFlag := RT_DEVICE_OFLAG_CLOSE }, d.hasClose)
      else (result, d, d.hasClose)

/-- The count agrees with the open flag and with the number of users. -/
structure Counts (held : ℕ) : Prop where
  isOpen_iff : d.isOpen ↔ 0 < d.refCount
  refCount_eq : d.refCount = held
  refCount_lt : d.refCount < 2 ^ 8

variable {d} {held : ℕ} {oflag : BitVec 16} {init r : ℤ} {reply : Reply} {d' : Device} {called : Bool}

@[simp] theorem activate_openFlag : d.activate.openFlag = d.openFlag := by
  unfold activate
  split <;> rfl

@[simp] theorem activate_refCount : d.activate.refCount = d.refCount := by
  unfold activate
  split <;> rfl

theorem or_open_and_open (flags : BitVec 16) :
    (flags ||| RT_DEVICE_OFLAG_OPEN) &&& RT_DEVICE_OFLAG_OPEN ≠ 0 := by
  have hbit : (flags ||| RT_DEVICE_OFLAG_OPEN) &&& RT_DEVICE_OFLAG_OPEN = RT_DEVICE_OFLAG_OPEN := by
    ext i hi
    simp only [BitVec.getElem_and, BitVec.getElem_or]
    cases flags[i] <;> cases RT_DEVICE_OFLAG_OPEN[i] <;> rfl
  rw [hbit]
  decide

theorem Counts.of_eq (h : d.Counts held) (hflags : d'.openFlag = d.openFlag)
    (hcount : d'.refCount = d.refCount) : d'.Counts held := by
  refine ⟨?_, by rw [hcount, h.refCount_eq], by rw [hcount]; exact h.refCount_lt⟩
  unfold isOpen
  rw [hflags, hcount]
  exact h.isOpen_iff

theorem Counts.closed (hflags : d.openFlag = RT_DEVICE_OFLAG_CLOSE) (hcount : d.refCount = 0) :
    d.Counts 0 := by
  refine ⟨⟨fun hopen => absurd ?_ hopen, fun hpos => ?_⟩, hcount, by omega⟩
  · rw [hflags]
    decide
  · omega

theorem rtDeviceInit_openFlag : (d.rtDeviceInit init).2.openFlag = d.openFlag := by
  unfold rtDeviceInit
  split_ifs <;> simp

theorem rtDeviceInit_refCount : (d.rtDeviceInit init).2.refCount = d.refCount := by
  unfold rtDeviceInit
  split_ifs <;> simp

/-- What a call of `rt_device_open` that returns has done: either it has refused and left the two
fields alone, or it counts one more user. -/
theorem open_cases (hlt : d.refCount < 2 ^ 8)
    (hreply : ¬accepted reply.result → reply.openFlag = d.openFlag)
    (h : d.rtDeviceOpen oflag init reply = .ok (r, d')) :
    (d'.openFlag = d.openFlag ∧ d'.refCount = d.refCount ∧ (d.initFails init ∨ ¬accepted r)) ∨
      (d'.isOpen ∧ d'.refCount = d.refCount + 1 ∧ d'.refCount < 2 ^ 8 ∧ ¬d.initFails init ∧
        accepted r) := by
  have hcount : (d.activate.refCount + 1) % 2 ^ 8 ≠ 0 →
      (d.activate.refCount + 1) % 2 ^ 8 = d.refCount + 1 := by
    rw [activate_refCount]
    omega
  have hmod : (d.activate.refCount + 1) % 2 ^ 8 < 2 ^ 8 := Nat.mod_lt _ (by decide)
  have haccept : accepted RT_EOK := by decide
  unfold rtDeviceOpen at h
  dsimp only at h
  split_ifs at h with hinit hbusy hopen haccepted hwrap hwrap'
  · cases h
    exact .inl ⟨rfl, rfl, .inl hinit⟩
  · cases h
    exact .inl ⟨activate_openFlag, activate_refCount, .inr (by decide)⟩
  · cases h
    exact .inr ⟨or_open_and_open _, hcount hwrap, hmod, hinit, haccepted⟩
  · cases h
    exact .inl ⟨hreply haccepted, activate_refCount, .inr haccepted⟩
  · cases h
    exact .inr ⟨or_open_and_open _, hcount hwrap', hmod, hinit, haccept⟩

/-- What a call of `rt_device_close` has done, if the close callback does not fail: nothing if there
is no user, and otherwise there is one user less. The callback is invoked for the last of them. -/
theorem close_cases (hreply : d.callsClose → accepted reply.result)
    (h : d.rtDeviceClose reply = (r, d', called)) :
    (d.refCount = 0 ∧ d' = d ∧ called = false ∧ r = -RT_ERROR) ∨
      (1 < d.refCount ∧ d' = { d with refCount := d.refCount - 1 } ∧ called = false ∧ r = RT_EOK) ∨
      (d.refCount = 1 ∧ d' = { d with refCount := 0, openFlag := RT_DEVICE_OFLAG_CLOSE } ∧
        called = d.hasClose ∧ accepted r) := by
  have haccept : accepted RT_EOK := by decide
  unfold rtDeviceClose at h
  dsimp only at h
  split_ifs at h with hzero hmore hclose haccepted
  · cases h
    exact .inl ⟨hzero, rfl, rfl, rfl⟩
  · cases h
    exact .inr (.inl ⟨by omega, rfl, rfl, rfl⟩)
  · cases h
    have hone : d.refCount = 1 := by omega
    refine .inr (.inr ⟨hone, ?_, rfl, haccepted⟩)
    simp [hone]
  · exact absurd (hreply ⟨by omega, hclose⟩) haccepted
  · cases h
    have hone : d.refCount = 1 := by omega
    refine .inr (.inr ⟨hone, ?_, rfl, haccept⟩)
    simp [hone]

end Device

/-! ## Runs -/

/-- A call, with the replies of the callbacks that it may invoke. -/
inductive DeviceAct
  | init (init : ℤ)
  | open (oflag : BitVec 16) (init : ℤ) (reply : Reply)
  | close (reply : Reply)

/-- A device and the number of opens that have not been closed. -/
structure Opened where
  device : Device
  held : ℕ
  deriving DecidableEq

/-- A call that returns. An open that is not refused is one more, and a close that has an open to
close is one less. -/
def Opened.exec (s : Opened) : DeviceAct → Option Opened
  | .init init => some { s with device := (s.device.rtDeviceInit init).2 }
  | .open oflag init reply =>
    match s.device.rtDeviceOpen oflag init reply with
    | .error _ => none
    | .ok (r, d) =>
      some ⟨d, if ¬s.device.initFails init ∧ accepted r then s.held + 1 else s.held⟩
  | .close reply => some ⟨(s.device.rtDeviceClose reply).2.1, s.held - 1⟩

/-- A driver whose callback fails has left the open flags alone. -/
def Reply.Honest (reply : Reply) (d : Device) : Prop :=
  ¬accepted reply.result → reply.openFlag = d.openFlag

instance (reply : Reply) (d : Device) : Decidable (reply.Honest d) :=
  inferInstanceAs (Decidable (_ → _))

/-- The replies that a driver gives. -/
def DeviceAct.Honest (d : Device) : DeviceAct → Prop
  | .init _ => True
  | .open _ _ reply => reply.Honest d
  | .close reply => reply.Honest d

instance (d : Device) : DecidablePred (DeviceAct.Honest d) := fun a => by
  cases a <;> unfold DeviceAct.Honest <;> infer_instance

/-- Sequences of calls about a device that has been registered. -/
def deviceSystem : System Opened DeviceAct where
  init s := ∃ d : Device, ∃ flags, s = ⟨d.rtDeviceRegister flags, 0⟩
  step s a s' := a.Honest s.device ∧ s.exec a = some s'

/-- The close callback, where it is invoked, does not fail. -/
def DeviceAct.Closes (s : Opened) : DeviceAct → Prop
  | .close reply => s.device.callsClose → accepted reply.result
  | _ => True

instance (s : Opened) : DecidablePred (DeviceAct.Closes s) := fun a => by
  cases a <;> unfold DeviceAct.Closes <;> infer_instance

/-- A call keeps the count of the device equal to the number of opens. -/
theorem Opened.counts_step {s s' : Opened} {a : DeviceAct} (h : s.device.Counts s.held)
    (hreply : a.Honest s.device) (hclose : a.Closes s) (hs : s.exec a = some s') :
    s'.device.Counts s'.held := by
  cases a with
  | init init =>
    cases hs
    exact h.of_eq Device.rtDeviceInit_openFlag Device.rtDeviceInit_refCount
  | «open» oflag init reply =>
    unfold Opened.exec at hs
    dsimp only at hs
    split at hs
    case h_1 => cases hs
    case h_2 r d hopen =>
      cases hs
      obtain ⟨hflags, hcount, hrefused⟩ | ⟨hflags, hcount, hlt, hinit, haccepted⟩ :=
        Device.open_cases h.refCount_lt hreply hopen
      · have hno : ¬(¬s.device.initFails init ∧ accepted r) := by tauto
        rw [if_neg hno]
        exact h.of_eq hflags hcount
      · rw [if_pos ⟨hinit, haccepted⟩]
        have hpos : 0 < d.refCount := by omega
        exact ⟨⟨fun _ => hpos, fun _ => hflags⟩, by rw [hcount, h.refCount_eq], hlt⟩
  | close reply =>
    cases hs
    have hheld := h.refCount_eq
    have hlt := h.refCount_lt
    obtain ⟨r, d', called, hd⟩ : ∃ r d' called, s.device.rtDeviceClose reply = (r, d', called) :=
      ⟨_, _, _, rfl⟩
    show (s.device.rtDeviceClose reply).2.1.Counts (s.held - 1)
    rw [hd]
    obtain ⟨hzero, rfl, -⟩ | ⟨hmore, rfl, -⟩ | ⟨hone, rfl, -⟩ := Device.close_cases hclose hd
    · -- Nobody has the device open, and nothing happens.
      have hnone : s.held - 1 = s.held := by omega
      rw [hnone]
      exact h
    · -- There are other users, so that the device stays open.
      have hpos : 0 < s.device.refCount - 1 := by omega
      refine ⟨⟨fun _ => hpos, fun _ => h.isOpen_iff.mpr (by omega)⟩, ?_, ?_⟩
      · show s.device.refCount - 1 = s.held - 1
        omega
      · show s.device.refCount - 1 < 2 ^ 8
        omega
    · have hnone : s.held - 1 = 0 := by omega
      rw [hnone]
      exact Device.Counts.closed rfl rfl

theorem Opened.counts_of_reachable {s : Opened}
    (h : Reachable deviceSystem (fun s a => a.Closes s) s) : s.device.Counts s.held := by
  refine h.invariant ?_ ?_
  · rintro s ⟨d, flags, rfl⟩
    exact Device.Counts.closed rfl rfl
  · rintro s a s' hcounts hclose ⟨hreply, hs⟩
    exact counts_step hcounts hreply hclose hs

/-- In every sequence of calls in which no close callback fails, the device is marked as open exactly
while it has users, the close callback is invoked only when the last open is closed, and a call that
returns an error leaves the count and the open flags alone, unless the error is `-RT_ENOSYS`. -/
theorem device_open_counting {s : Opened} (h : Reachable deviceSystem (fun s a => a.Closes s) s) :
    (s.device.isOpen ↔ 0 < s.device.refCount) ∧
      (∀ reply, (s.device.rtDeviceClose reply).2.2 = true → s.held = 1) ∧
      (∀ oflag init reply r d', reply.Honest s.device →
        s.device.rtDeviceOpen oflag init reply = .ok (r, d') → r ≠ RT_EOK → r ≠ -RT_ENOSYS →
        d'.refCount = s.device.refCount ∧ d'.openFlag = s.device.openFlag) ∧
      (∀ reply r d' called, (s.device.callsClose → accepted reply.result) →
        s.device.rtDeviceClose reply = (r, d', called) → r ≠ RT_EOK → r ≠ -RT_ENOSYS →
        d'.refCount = s.device.refCount ∧ d'.openFlag = s.device.openFlag) := by
  have hcounts := Opened.counts_of_reachable h
  refine ⟨hcounts.isOpen_iff, fun reply hcalled => ?_, ?_, ?_⟩
  · -- The callback is behind two tests of the count, whatever it replies.
    rw [← hcounts.refCount_eq]
    unfold Device.rtDeviceClose at hcalled
    dsimp only at hcalled
    split_ifs at hcalled <;> omega
  · intro oflag init reply r d' hreply hopen hok hnosys
    obtain ⟨hflags, hcount, -⟩ | ⟨-, -, -, -, haccepted⟩ :=
      Device.open_cases hcounts.refCount_lt hreply hopen
    · exact ⟨hcount, hflags⟩
    · exact absurd haccepted (not_or.mpr ⟨hok, hnosys⟩)
  · intro reply r d' called hreply hclose hok hnosys
    obtain ⟨-, rfl, -⟩ | ⟨-, -, -, hr⟩ | ⟨-, -, -, haccepted⟩ := Device.close_cases hreply hclose
    · exact ⟨rfl, rfl⟩
    · exact absurd hr hok
    · exact absurd haccepted (not_or.mpr ⟨hok, hnosys⟩)

/-- The device of a driver with all three callbacks. -/
def plainDevice : Device := ⟨0, 0, 0, true, true, true⟩

/-- Two opens and a close leave one open, and the next close is the one that invokes the callback. -/
theorem device_open_counting_twice :
    ∃ s, Reachable deviceSystem (fun s a => a.Closes s) s ∧
      (s.held = 1 ∧ (s.device.rtDeviceClose ⟨RT_EOK, 0⟩).2.2 = true) ∧
      (s.device.isOpen ↔ 0 < s.device.refCount) := by
  have hreach : ∃ s, Reachable deviceSystem (fun s a => a.Closes s) s ∧
      s.held = 1 ∧ (s.device.rtDeviceClose ⟨RT_EOK, 0⟩).2.2 = true := by
    refine exists_reachable_of_run (f := fun s a => if a.Honest s.device then s.exec a else none)
      (s := ⟨plainDevice.rtDeviceRegister 0, 0⟩) ⟨_, _, rfl⟩
      [.open 0 RT_EOK ⟨RT_EOK, 0⟩, .open 0 RT_EOK ⟨-RT_ENOSYS, 0⟩, .close ⟨RT_EOK, 0⟩] ?_ ?_
    · decide
    · intro s a s' hs
      split_ifs at hs with hreply
      exact ⟨hreply, hs⟩
  obtain ⟨s, hs, hp⟩ := hreach
  exact ⟨s, hs, hp, (device_open_counting hs).1⟩

/-- An open callback that replies `-RT_ENOSYS` makes `rt_device_open` return an error and count a
user all the same. -/
theorem open_nosys :
    ∃ s : Opened, Reachable deviceSystem always s ∧ ∃ reply r d', reply.Honest s.device ∧
      s.device.rtDeviceOpen 0 RT_EOK reply = .ok (r, d') ∧ r < 0 ∧
      d'.refCount ≠ s.device.refCount := by
  refine ⟨⟨plainDevice.rtDeviceRegister 0, 0⟩, Reachable.init ⟨_, _, rfl⟩, ⟨-RT_ENOSYS, 0⟩, -RT_ENOSYS,
    ⟨RT_DEVICE_FLAG_ACTIVATED, RT_DEVICE_OFLAG_OPEN, 1, true, true, true⟩, by decide, ?_, by decide,
    by decide⟩
  exact ok_of_toOption (by decide)

end RtThread
