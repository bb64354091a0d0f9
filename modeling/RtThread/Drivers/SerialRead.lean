import RtThread.Drivers.Pipe
import RtThread.Drivers.Serial

/-!
# Blocking reads and their wake-ups

`serial_fops_read` reads what the receive FIFO has, and if that is nothing waits on the queue of the
device. The interrupt puts characters into the FIFO and then wakes the queue. A pipe does the same
with its ring buffer (`Drivers/Pipe.lean`). Both test, queue and suspend in separate sections, so a
wake-up may come in between and is lost then.
-/

namespace RtThread

open Lib Function Option

/-- Where a thread or an interrupt is. -/
inductive SerialPc
  | idle
  /-- In the loop of `_serial_int_rx`, called by `serial_fops_read` for `count` bytes, with `length`
  left. -/
  | pass (count length : ℕ)
  | wait (count : ℕ) (w : WaitPc)
  /-- `rt_hw_serial_isr` gets characters. -/
  | receiving
  /-- It has got them all, and `serial_fops_rx_ind` wakes the queue. -/
  | indicate (w : WakePc)
  deriving DecidableEq

/-- The FIFO of a device that has been opened with `serial_fops_open` for reading, its wait queue,
and its threads and interrupts. -/
structure SerialSys (n : ℕ) where
  fifo : SerialRxFifo
  wq : Wqueues Unit n
  pc : Fin n → SerialPc

/-- The steps of the reader and the interrupts. -/
inductive SerialAct (n : ℕ)
  /-- The reader calls `serial_fops_read`. -/
  | read (count : ℕ)
  /-- An interrupt comes. -/
  | interrupt (t : Fin n)
  /-- It gets a character. -/
  | receive (t : Fin n) (ch : UInt8)
  /-- A thread or an interrupt goes on. -/
  | run (t : Fin n)

namespace SerialSys

variable {n : ℕ} (s : SerialSys n) (t : Fin n)

/-- The thread goes to a place. -/
def goto (pc : SerialPc) : SerialSys n := { s with pc := update s.pc t pc }

/-- `_serial_int_rx` returns, and `serial_fops_read` returns with it if something has been read. -/
def passed (count length : ℕ) : SerialSys n := s.goto t (if count - length = 0 then .wait count .add else .idle)

/-- One section, at the place where the thread is. -/
def run : Option (SerialSys n) :=
  match s.pc t with
  | .idle => none
  | .pass count length =>
    if length = 0 then some (s.passed t count length)
    else
      match serialIntRxPass s.fifo with
      | none => some (s.passed t count length)
      | some (_, fifo) => some { s.goto t (.pass count (length - 1)) with fifo := fifo }
  | .wait count w =>
    (s.wq.rtWqueueWait () t w).map fun r => { s.goto t (r.2.elim (.pass count count) (.wait count)) with wq := r.1 }
  | .receiving => some (s.goto t (.indicate .check))
  | .indicate w =>
    let r := s.wq.rtWqueueWakeup () w
    some { s.goto t (r.2.elim .idle .indicate) with wq := r.1 }

end SerialSys

variable {n : ℕ} (r : Fin n) (s : SerialSys n)

/-- The state after the step, if it can be taken. The reader is `r`. -/
def SerialAct.exec : SerialAct n → Option (SerialSys n)
  | .read count => if s.pc r = .idle then some (s.goto r (.pass count count)) else none
  | .interrupt t => if s.pc t = .idle ∧ t ≠ r then some (s.goto t .receiving) else none
  | .receive t ch =>
    if s.pc t = .receiving then some { s.goto t .receiving with fifo := rtHwSerialIsrRxInd s.fifo ch } else none
  | .run t => s.run t

/-- The runs of an open device with the reader `r`. -/
def serialReader (n bufsz : ℕ) (r : Fin n) : System (SerialSys n) (SerialAct n) where
  init s := s = ⟨.opened bufsz, ⟨fun _ => [], fun _ => false⟩, fun _ => .idle⟩
  step s a s' := a.exec r s = some s'

namespace SerialPc

/-- The part in a wake-up of the queue. An interrupt that gets characters is going to look at the
queue. -/
def wakes : SerialPc → Option WakePc
  | .receiving => some .check
  | .indicate w => some w
  | _ => none

/-- The way of a read to the queue. -/
def waiting : SerialPc → Waiting
  | .wait _ w => w.waiting
  | _ => .away

/-- The number of bytes that a read asks for. -/
def reading : SerialPc → Option ℕ
  | .pass count _ | .wait count _ => some count
  | _ => none

end SerialPc

/-- The places of the threads and the interrupts. -/
def serialPlaces : Places SerialPc := ⟨SerialPc.waiting, SerialPc.wakes⟩

/-- A read would find a character. -/
def SerialSys.Ready : Prop := serialIntRxPass s.fifo ≠ none

instance {n : ℕ} (s : SerialSys n) : Decidable s.Ready :=
  decidable_of_iff ((serialIntRxPass s.fifo).isSome = true) isSome_iff_ne_none

/-- The reader asks for something. No interrupt looks at the queue while the reader is on its way
there and there are characters, unless another one will; and none takes the reader from the queue
before it is suspended. -/
def SerialAct.watched : SerialAct n → Prop
  | .read count => count ≠ 0
  | .run t =>
    (s.pc t = .indicate .check → (s.pc r).waiting = .decided → s.Ready → ∃ u, u ≠ t ∧ (s.pc u).wakes = some .check) ∧
    (s.pc t = .indicate .scan → (s.pc r).waiting ≠ .listed)
  | .interrupt _ | .receive _ _ => True

instance {n : ℕ} (r : Fin n) (s : SerialSys n) (a : SerialAct n) : Decidable (a.watched r s) := by
  cases a <;> unfold SerialAct.watched <;> infer_instance

/-- Only `r` reads, its reads ask for something, and its wake-up is covered. -/
structure SerialSys.Kept {n : ℕ} (r : Fin n) (s : SerialSys n) : Prop where
  reading : ∀ t count, (s.pc t).reading = some count → t = r ∧ count ≠ 0
  kept : serialPlaces.Kept () r s.pc s.wq s.Ready

section

variable {n : ℕ} {s s' : SerialSys n} {r t : Fin n}

namespace SerialSys.Kept

theorem next (h : s.Kept r) {p : SerialPc} (hpc : s'.pc = update s.pc t p)
    (hreading : ∀ count, p.reading = some count → t = r ∧ count ≠ 0)
    (hkept : serialPlaces.Kept () r (update s.pc t p) s'.wq s'.Ready) : s'.Kept r := by
  refine ⟨?_, hpc ▸ hkept⟩
  rw [hpc]
  exact (forall_update_iff s.pc (p := fun u p => ∀ count, p.reading = some count → u = r ∧ count ≠ 0)).mpr
    ⟨hreading, fun u _ => h.reading u⟩

theorem reads (h : s.Kept r) {p : SerialPc} {count : ℕ} (hpc : s.pc t = p) (hp : p.reading = some count) :
    t = r ∧ count ≠ 0 :=
  h.reading t count (hpc ▸ hp)

theorem pass {count length : ℕ} (h : s.Kept r) (hpc : s.pc t = .pass count length) (hs : s.run t = some s') :
    s'.Kept r := by
  obtain ⟨rfl, hcount⟩ := h.reads hpc rfl
  have hidle : (s.goto t .idle).Kept t := h.next rfl (fun _ hc => by cases hc) (.away h.kept.nodes rfl)
  unfold SerialSys.run at hs
  rw [hpc] at hs
  dsimp only at hs
  -- The loop ends when all is read, or at an empty FIFO, where the reader may have to wait.
  by_cases hzero : length = 0
  · rw [if_pos hzero] at hs
    cases hs
    unfold SerialSys.passed
    rw [if_neg (by omega)]
    exact hidle
  · rw [if_neg hzero] at hs
    cases hrx : serialIntRxPass s.fifo with
    | none =>
      rw [hrx] at hs
      cases hs
      unfold SerialSys.passed
      split_ifs
      · exact h.next rfl (fun c hc => ⟨rfl, some.inj hc ▸ hcount⟩) (h.kept.decides rfl fun hready => hready hrx)
      · exact hidle
    | some byte =>
      rw [hrx] at hs
      cases hs
      exact h.next rfl (fun c hc => ⟨rfl, some.inj hc ▸ hcount⟩) (.away h.kept.nodes rfl)

theorem wait {count : ℕ} {w : WaitPc} (h : s.Kept r) (hpc : s.pc t = .wait count w) (hs : s.run t = some s') :
    s'.Kept r := by
  obtain ⟨rfl, hcount⟩ := h.reads hpc rfl
  unfold SerialSys.run at hs
  rw [hpc] at hs
  obtain ⟨⟨wq, o⟩, hwait, rfl⟩ := map_eq_some_iff.mp hs
  refine h.next rfl (fun c hc => ⟨rfl, ?_⟩) (h.kept.wait hwait hpc rfl rfl (fun _ => rfl) rfl)
  have heq : c = count := by
    cases o <;> exact (some.inj hc).symm
  rw [heq]
  exact hcount

theorem run (h : s.Kept r) (hwatched : (SerialAct.run t).watched r s) (hs : s.run t = some s') : s'.Kept r := by
  -- The reader's own steps are above; an interrupt receives and then wakes.
  cases hpc : s.pc t with
  | idle =>
    unfold SerialSys.run at hs
    rw [hpc] at hs
    cases hs
  | pass count length => exact h.pass hpc hs
  | wait count w => exact h.wait hpc hs
  | receiving =>
    unfold SerialSys.run at hs
    rw [hpc] at hs
    cases hs
    exact h.next rfl (fun _ hc => by cases hc) (h.kept.other hpc rfl (fun _ hw => hw) rfl id Or.inl)
  | indicate w =>
    unfold SerialSys.run at hs
    rw [hpc] at hs
    cases hs
    refine h.next rfl (fun c hc => ?_) (h.kept.wake hpc rfl rfl (fun _ => rfl) rfl ?_ ?_)
    · cases ho : (s.wq.rtWqueueWakeup () w).2 <;> rw [ho] at hc <;> cases hc
    · rintro rfl
      exact hwatched.1 hpc
    · rintro rfl
      exact hwatched.2 hpc

theorem exec {a : SerialAct n} (h : s.Kept r) (hwatched : a.watched r s) (hs : a.exec r s = some s') : s'.Kept r := by
  rw [SerialAct.exec.eq_def] at hs
  cases a with
  | read count =>
    split_ifs at hs
    cases hs
    exact h.next rfl (fun c hc => ⟨rfl, some.inj hc ▸ hwatched⟩) (.away h.kept.nodes rfl)
  | interrupt t =>
    dsimp only at hs
    split_ifs at hs with hguard
    cases hs
    exact h.next rfl (fun _ hc => by cases hc) (h.kept.other hguard.1 rfl (fun _ hw => by cases hw) rfl id Or.inl)
  | receive t ch =>
    dsimp only at hs
    split_ifs at hs with hguard
    cases hs
    exact h.next rfl (fun _ hc => by cases hc) (h.kept.other hguard rfl (fun _ hw => hw) rfl id fun _ => Or.inr rfl)
  | run t => exact h.run hwatched hs

theorem of_reachable {bufsz : ℕ} (h : Reachable (serialReader n bufsz r) (SerialAct.watched r) s) : s.Kept r := by
  refine h.invariant ?_ fun _ _ _ hkept hwatched hs => hkept.exec hwatched hs
  rintro s rfl
  refine ⟨fun t count hc => ?_, fun u hu => ?_, Wakeup.Covered.of_away rfl⟩
  · cases hc
  · cases hu

end SerialSys.Kept

end

/-- The reader `r` of a pipe is suspended on the queue, there are bytes, and no wake-up of the
readers is under way. -/
def PipeSys.Lost (s : PipeSys n) : Prop :=
  (s.pc r).waiting = .asleep ∧ s.wq.suspended r = true ∧ 0 < s.dev.dataLen ∧ ∀ t, (s.pc t).wakes = none

/-- The reader `r` of a serial device is suspended on the queue, there are characters, and no
wake-up is under way. -/
def SerialSys.Lost : Prop :=
  (s.pc r).waiting = .asleep ∧ s.wq.suspended r = true ∧ s.Ready ∧ ∀ t, (s.pc t).wakes = none

instance {n : ℕ} (r : Fin n) (s : PipeSys n) : Decidable (s.Lost r) := by
  unfold PipeSys.Lost
  infer_instance

instance {n : ℕ} (r : Fin n) (s : SerialSys n) : Decidable (s.Lost r) := by
  unfold SerialSys.Lost
  infer_instance

/-- A blocking read of a pipe or of a serial device does not sleep beside its data, in every run in
which it asks for something, no wake-up looks at the queue between its test and its entry in the
queue, and none takes it from the queue before it is suspended. -/
theorem reader_woken {n bufsz : ℕ} (r : Fin n) :
    (∀ s : PipeSys n, Reachable (pipeReader n bufsz r) (PipeAct.watched r) s → ¬s.Lost r) ∧
      ∀ s : SerialSys n, Reachable (serialReader n bufsz r) (SerialAct.watched r) s → ¬s.Lost r := by
  constructor
  · intro s h
    exact (SoleReader.of_reachable h).kept.not_lost
  · intro s h
    exact (SerialSys.Kept.of_reachable h).kept.not_lost

/-- Executing a step of a pipe with the reader `r`. -/
def PipeAct.execBy (s : PipeSys n) (a : PipeAct n) : Option (PipeSys n) :=
  if a.readsBy r then a.exec s else none

theorem PipeAct.step_of_execBy {n bufsz : ℕ} {r : Fin n} {s s' : PipeSys n} {a : PipeAct n} (h : a.execBy r s = some s') :
    (pipeReader n bufsz r).step s a s' := by
  unfold PipeAct.execBy at h
  split_ifs at h with hreads
  exact ⟨hreads, h⟩

/-- Two runs in which the reader waits, is woken and reads. -/
theorem reader_woken_run :
    (∃ s : PipeSys 2, Reachable (pipeReader 2 4 1) (PipeAct.watched 1) s ∧ s.returned = [7] ∧ ¬s.Lost 1) ∧
      ∃ s : SerialSys 2, Reachable (serialReader 2 4 1) (SerialAct.watched 1) s ∧ s.fifo.getIndex = 1 ∧ ¬s.Lost 1 := by
  have hpipe : ∃ s : PipeSys 2, Reachable (pipeReader 2 4 1) (PipeAct.watched 1) s ∧ s.returned = [7] := by
    have hinit : (pipeReader 2 4 1).init _ := ⟨by decide, fun _ => 0, _, rfl, rfl⟩
    refine exists_reachable_of_run (f := PipeAct.execBy 1) hinit
      [.open .wronly fun _ => 0, .read 1 ⟨fun _ => 0, 3⟩, .run 1, .run 1, .run 1, .run 1, .run 1,
        .write 0 (fun _ => 7) 1, .run 0, .run 0, .run 0, .run 0, .run 1, .run 1, .run 1] ?_
        fun _ _ _ => PipeAct.step_of_execBy
    decide
  have hserial : ∃ s : SerialSys 2, Reachable (serialReader 2 4 1) (SerialAct.watched 1) s ∧ s.fifo.getIndex = 1 := by
    refine exists_reachable_of_exec rfl
      [.read 3, .run 1, .run 1, .run 1, .interrupt 0, .receive 0 7, .run 0, .run 0, .run 0, .run 1, .run 1, .run 1] ?_
    decide
  obtain ⟨s, hs, hreturned⟩ := hpipe
  obtain ⟨s', hs', hget⟩ := hserial
  exact ⟨⟨s, hs, hreturned, (reader_woken 1).1 s hs⟩, s', hs', hget, (reader_woken 1).2 s' hs'⟩

/-- The data and the wake-up come after the test of the reader and before it is on the queue: it is
suspended beside the data, and no wake-up is to follow. -/
theorem reader_sleeps : (∃ s : PipeSys 2, Reachable (pipeReader 2 4 1) always s ∧ s.Lost 1) ∧
      ∃ s : SerialSys 2, Reachable (serialReader 2 4 1) always s ∧ s.Lost 1 := by
  constructor
  · have hinit : (pipeReader 2 4 1).init _ := ⟨by decide, fun _ => 0, _, rfl, rfl⟩
    refine exists_reachable_of_run (f := PipeAct.execBy 1) hinit
      [.open .wronly fun _ => 0, .read 1 ⟨fun _ => 0, 3⟩, .run 1, .run 1, .run 1,
        .write 0 (fun _ => 7) 1, .run 0, .run 0, .run 0, .run 1, .run 1] ?_
        fun _ _ _ => PipeAct.step_of_execBy
    decide
  · refine exists_reachable_of_exec rfl
      [.read 3, .run 1, .interrupt 0, .receive 0 7, .run 0, .run 0, .run 1, .run 1] ?_
    decide

end RtThread
