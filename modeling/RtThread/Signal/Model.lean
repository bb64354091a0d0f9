import RtThread.Kernel.Model
import RtThread.Lib.Run
import RtThread.Lib.Slist

/-!
# Signals

The model of `src/signal.c`. A thread has the words `sig_pending` and `sig_mask`, in which a bit that
is clear means that the signal is blocked, its handlers, and the pointer `si_list` to the first node
with information on a pending signal. The nodes are blocks of a memory pool. A node is 12 bytes long,
with the member `list` behind the information; `list.next` points to the member `list` of the next
node, while `si_list` points to the node itself.

There are any number of threads `τ`, and any number of threads and interrupts `σ` that send signals.
The steps are the sections with interrupts off, and what the functions do between them. A handler runs
with interrupts on, so the steps of the other functions may come between its call and its return; the
node and the number of its signal are on the stack of `rt_thread_handle_sig`, a `Frame`. When a thread
is scheduled is left open: a thread may handle signals at any time, and a thread that waits for a
signal may go on at any time.
-/

namespace RtThread.Signal

open Lib Function

/-- The error code in the information on a signal. -/
def RT_EINTR : ℤ := 9
/-- The number of signals. -/
def RT_SIG_MAX : ℕ := 32
/-- The code of a signal that a thread sends. -/
def SI_USER : ℕ := 1

/-- A set of signals. -/
abbrev Sigset := BitVec 32

/-- The bit of a signal. -/
def sigMask (sig : ℕ) : Sigset := 1#32 <<< sig

/-- `sig_valid`. -/
def sigValid (sig : ℤ) : Bool := 0 ≤ sig && sig < RT_SIG_MAX

/-- `siginfo_t`. -/
structure Siginfo where
  signo : ℕ
  code : ℕ
  errno : ℤ
  value : ℕ
  deriving DecidableEq

/-- The information that `rt_thread_kill` sends. -/
def killInfo (sig : ℕ) : Siginfo := ⟨sig, SI_USER, RT_EINTR, 0⟩

/-- A handler, as the vectors hold it. -/
inductive Handler (H : Type)
  | null
  | default
  | user (h : H)
  deriving DecidableEq

/-- What a program installs for a signal. -/
inductive Disposition (H : Type)
  | ign
  | dfl
  | handler (h : H)

/-- A handler that runs: the node and the number of its signal. -/
structure Frame where
  node : ℕ
  signo : ℕ

/-- What `struct rt_thread` holds for signals, the calls of handlers on the thread's stack, and the
set that the thread waits for in `rt_signal_wait`, which it does with `RT_THREAD_STAT_SIGNAL_WAIT`. -/
structure Thread (H : Type) where
  pending : Sigset
  mask : Sigset
  siList : ℕ
  vectors : Option (ℕ → Handler H)
  error : ℤ
  waiting : Option Sigset
  frames : List Frame

/-- Where a call of `rt_thread_kill` is. -/
inductive Stage
  /-- The signal was pending already, and the list is searched from this pointer. -/
  | walk (node : ℕ)
  | alloc
  /-- The node is going to be appended. -/
  | append (node : ℕ)
  deriving DecidableEq

/-- A call of `rt_thread_kill`. -/
structure Send (τ : Type) where
  tid : τ
  sig : ℕ
  stage : Stage
  deriving DecidableEq

/-- A call of a handler, with the words of the thread at that moment. -/
structure Invocation (τ : Type) where
  tid : τ
  signo : ℕ
  pending : Sigset
  mask : Sigset

/-- The threads, the nodes, the blocks of their pool that are free, the calls that send signals, and
the handlers that have been called. -/
structure Signals (τ σ H : Type) where
  thread : τ → Thread H
  blocks : List ℕ
  si : ℕ → Siginfo
  next : ℕ → ℕ
  pool : List ℕ
  sending : σ → Option (Send τ)
  called : List (Invocation τ)

/-- `rt_slist_entry(node, struct siginfo_node, list)`. -/
def entry (p : ℕ) : ℕ := sub32 p 8

/-- `&(si_node->list)`. -/
def member (a : ℕ) : ℕ := add32 a 8

namespace Signals

variable {τ σ H : Type} [DecidableEq τ] [DecidableEq σ] (s : Signals τ σ H) (t : τ)

/-- The fields of a thread are set. -/
def setThread (th : Thread H) : Signals τ σ H := { s with thread := update s.thread t th }

/-- `si_node->si` and `si_node->list.next`, if the pointer points to a node. -/
def readSi (a : ℕ) : Except Fault Siginfo := if a ∈ s.blocks then .ok (s.si a) else .error .wild
/-- The link of a node, which is wild outside the pool. -/
def readNext (a : ℕ) : Except Fault ℕ := if a ∈ s.blocks then .ok (s.next a) else .error .wild

/-! ## `rt_thread_kill` -/

variable (k : σ)

/-- The section at the start. -/
def killEnter (tid : τ) (sig : ℤ) : Signals τ σ H :=
  if sigValid sig then
    let th := s.thread tid
    if th.pending &&& sigMask sig.toNat ≠ 0 then
      { s with sending := update s.sending k (some ⟨tid, sig.toNat, .walk th.siList⟩) }
    else
      { s.setThread tid { th with pending := th.pending ||| sigMask sig.toNat } with
        sending := update s.sending k (some ⟨tid, sig.toNat, .alloc⟩) }
  else s

/-- The search for a node with the signal. The pointer `si_list` is taken for one to a member `list`. -/
def killLoop (sig : ℕ) : ℕ → ℕ → Except Fault (Option ℕ)
  | 0, _ => .error .fuel
  | fuel + 1, p =>
    if p = 0 then .ok none
    else do
      let si ← s.readSi (entry p)
      if si.signo = sig then .ok (some (entry p))
      else
        let p ← s.readNext (entry p)
        killLoop sig fuel p

variable (x : Send τ)

/-- The update of a signal that is pending already. -/
def killWalk (p : ℕ) : Except Fault (Signals τ σ H) := do
  match ← s.killLoop x.sig (s.blocks.length + 1) p with
  | some a =>
    .ok { s with si := update s.si a (killInfo x.sig), sending := update s.sending k none }
  | none => .ok { s with sending := update s.sending k (some { x with stage := .alloc }) }

/-- The allocation of a node, and its initialisation. -/
def killAlloc : Signals τ σ H :=
  match s.pool with
  | [] => { s with sending := update s.sending k none }
  | a :: pool =>
    { s with
      si := update s.si a (killInfo x.sig)
      next := update s.next a 0
      pool := pool
      sending := update s.sending k (some { x with stage := .append a }) }

/-- The walk to the last node of a list. -/
def slistLast : ℕ → ℕ → Except Fault ℕ
  | 0, _ => .error .fuel
  | fuel + 1, p => do
    let q ← s.readNext (entry p)
    if q = 0 then .ok p else slistLast fuel q

/-- The last section of `rt_thread_kill`: the node is appended. -/
def killAppend (a : ℕ) : Except Fault (Signals τ σ H) := do
  let th := s.thread x.tid
  if th.siList = 0 then
    .ok { s.setThread x.tid { th with siList := a } with sending := update s.sending k none }
  else
    let p ← s.slistLast s.blocks.length (member th.siList)
    .ok { s with
      next := update (update s.next (entry p) (member a)) a 0
      sending := update s.sending k none }

/-- The next step of a call of `rt_thread_kill`. -/
def killStep : Except Fault (Signals τ σ H) :=
  match x.stage with
  | .walk p => s.killWalk k x p
  | .alloc => .ok (s.killAlloc k x)
  | .append a => s.killAppend k x a

/-! ## The other functions -/

/-- `rt_signal_install`. -/
def install (sig : ℤ) (h : Disposition H) : Signals τ σ H :=
  if sigValid sig then
    let th := s.thread t
    let vectors := th.vectors.getD fun _ => .default
    let handler := match h with
      | .ign => .null
      | .dfl => .default
      | .handler h => .user h
    s.setThread t { th with vectors := some (update vectors sig.toNat handler) }
  else s

/-- `rt_signal_mask`. -/
def mask (sig : ℕ) : Signals τ σ H :=
  let th := s.thread t
  s.setThread t { th with mask := th.mask &&& ~~~sigMask sig }

/-- `rt_signal_unmask`, up to the delivery of the pending signals. -/
def unmask (sig : ℕ) : Signals τ σ H :=
  let th := s.thread t
  s.setThread t { th with mask := th.mask ||| sigMask sig }

/-- The loop of `rt_signal_wait`: the predecessor, which is null at first, and the node that is found. -/
def waitLoop (set : Sigset) : ℕ → ℕ → ℕ → Except Fault (Option (ℕ × ℕ))
  | 0, _, _ => .error .fuel
  | fuel + 1, prev, node =>
    if node = 0 then .ok none
    else do
      let si ← s.readSi node
      if sigMask si.signo &&& set ≠ 0 then .ok (some (prev, node))
      else
        let p ← s.readNext node
        waitLoop set fuel node (entry p)

/-- The part of `rt_signal_wait` behind `__done`, with the information that it returns. -/
def waitTake (set : Sigset) : Except Fault (Signals τ σ H × Option Siginfo) := do
  let th := s.thread t
  match ← s.waitLoop set (s.blocks.length + 1) 0 th.siList with
  | none => .ok (s, none)
  | some (prev, node) =>
    let th := { th with pending := th.pending &&& ~~~sigMask (s.si node).signo }
    let th := if prev ≠ 0 then th else { th with siList := s.next node }
    .ok ({ s.setThread t th with
      next := if prev ≠ 0 then update s.next prev (s.next node) else s.next
      pool := node :: s.pool }, some (s.si node))

/-- `rt_signal_wait` up to the suspension of the thread, with the information if it returns one. -/
def waitEnter (set : Sigset) (timeout : ℤ) : Except Fault (Signals τ σ H × Option Siginfo) :=
  let th := s.thread t
  if set = 0 then .ok (s, none)
  else if th.pending &&& set ≠ 0 then s.waitTake t set
  else if timeout = 0 then .ok (s, none)
  else .ok (s.setThread t { th with waiting := some set }, none)

/-- `rt_signal_wait` behind the suspension. -/
def waitResume (set : Sigset) : Except Fault (Signals τ σ H × Option Siginfo) :=
  let th := { s.thread t with waiting := none }
  if th.error = -RT_ETIMEOUT then .ok (s.setThread t { th with error := RT_EOK }, none)
  else (s.setThread t th).waitTake t set

/-- A round of the loop of `rt_thread_handle_sig`, up to the call of the handler. -/
def handleLoop : Except Fault (Signals τ σ H) :=
  let th := s.thread t
  if th.pending &&& th.mask = 0 then .ok s
  else if th.siList = 0 then .ok s
  else do
    let p ← s.readNext th.siList
    let si ← s.readSi th.siList
    match th.vectors with
    | none => .error .wild
    | some vectors =>
      .ok { s.setThread t { th with
              siList := if p = 0 then 0 else entry p
              frames := ⟨th.siList, si.signo⟩ :: th.frames } with
            called :=
              match vectors si.signo with
              | .null => s.called
              | _ => s.called ++ [⟨t, si.signo, th.pending, th.mask⟩] }

/-- `rt_thread_handle_sig`, up to the call of a handler. -/
def handle : Except Fault (Signals τ σ H) :=
  if (s.thread t).waiting = none then s.handleLoop t else .ok s

/-- `rt_thread_handle_sig` from the return of a handler to the call of the next one. -/
def handled (f : Frame) (frames : List Frame) : Except Fault (Signals τ σ H) :=
  let th := s.thread t
  let s : Signals τ σ H :=
    { s.setThread t { th with
        pending := th.pending &&& ~~~sigMask f.signo
        error := (s.si f.node).errno
        frames := frames } with
      pool := f.node :: s.pool }
  s.handleLoop t

end Signals

/-! ## Runs -/

/-- The steps of the functions. -/
inductive Act (τ σ H : Type)
  | kill (k : σ) (tid : τ) (sig : ℤ)
  | killStep (k : σ)
  | install (t : τ) (sig : ℤ) (h : Disposition H)
  | mask (t : τ) (sig : ℕ)
  | unmask (t : τ) (sig : ℕ)
  | wait (t : τ) (set : Sigset) (ticks : ℤ)
  | timeout (t : τ)
  | resume (t : τ)
  | handle (t : τ)
  | handled (t : τ)

section

variable {τ σ H : Type} [DecidableEq τ] [DecidableEq σ]

/-- What a step does, or nothing if it cannot be taken: a sender sends one signal at a time, and a
thread that waits does not call functions. -/
def Act.run (s : Signals τ σ H) : Act τ σ H → Option (Except Fault (Signals τ σ H))
  | .kill k tid sig => if s.sending k = none then some (.ok (s.killEnter k tid sig)) else none
  | .killStep k => (s.sending k).map (s.killStep k)
  | .install t sig h => if (s.thread t).waiting = none then some (.ok (s.install t sig h)) else none
  | .mask t sig => if (s.thread t).waiting = none ∧ sig < RT_SIG_MAX then some (.ok (s.mask t sig)) else none
  | .unmask t sig => if (s.thread t).waiting = none ∧ sig < RT_SIG_MAX then some (.ok (s.unmask t sig)) else none
  | .wait t set ticks =>
    if (s.thread t).waiting = none then some ((s.waitEnter t set ticks).map Prod.fst) else none
  | .timeout t =>
    if (s.thread t).waiting ≠ none then
      some (.ok (s.setThread t { s.thread t with error := -RT_ETIMEOUT }))
    else none
  | .resume t => (s.thread t).waiting.map fun set => (s.waitResume t set).map Prod.fst
  | .handle t => some (s.handle t)
  | .handled t =>
    match (s.thread t).waiting, (s.thread t).frames with
    | none, f :: frames => some (s.handled t f frames)
    | _, _ => none

/-- A step that does not fail. -/
def Act.exec (s : Signals τ σ H) (a : Act τ σ H) : Option (Signals τ σ H) :=
  (a.run s).bind Except.toOption

theorem Act.handled_run {s : Signals τ σ H} {t : τ} {r : Except Fault (Signals τ σ H)}
    (h : (Act.handled t).run s = some r) :
    ∃ f frames, (s.thread t).frames = f :: frames ∧ r = s.handled t f frames := by
  have hrun : (match (s.thread t).waiting, (s.thread t).frames with
    | none, f :: frames => some (s.handled t f frames)
    | _, _ => none) = some r := h
  split at hrun
  case h_1 f frames _ hf => exact ⟨f, frames, hf, (Option.some.inj hrun).symm⟩
  case h_2 => cases hrun

theorem Act.run_of_exec {s s' : Signals τ σ H} {a : Act τ σ H} (h : a.exec s = some s') :
    a.run s = some (.ok s') := by
  obtain ⟨r, hrun, hr⟩ := Option.bind_eq_some_iff.mp h
  rw [hrun, ok_of_toOption hr]

/-- The signal fields of a thread after `rt_thread_init`. -/
def Thread.init (H : Type) : Thread H := ⟨0, 0, 0, none, RT_EOK, none, []⟩

/-- After `rt_system_signal_init`: the threads are initialised, and all blocks of the pool are free. -/
structure Booted (s : Signals τ σ H) : Prop where
  thread : ∀ t, s.thread t = Thread.init H
  sending : ∀ k, s.sending k = none
  called : s.called = []
  pool : s.pool = s.blocks
  nodup : s.blocks.Nodup
  block : ∀ a ∈ s.blocks, 0 < a ∧ a + 12 ≤ 2^32
  /-- The blocks do not overlap, so the member `list` of a node is not at the address of another. -/
  apart : ∀ a ∈ s.blocks, member a ∉ s.blocks

/-- The state after `rt_system_signal_init`, with these blocks in the pool. -/
def Signals.boot (blocks : List ℕ) : Signals τ σ H :=
  ⟨fun _ => Thread.init H, blocks, fun _ => killInfo 0, fun _ => 0, blocks, fun _ => none, []⟩

theorem booted_boot : Booted (Signals.boot [100, 200] : Signals (Fin 1) (Fin 1) Unit) :=
  ⟨fun _ => rfl, fun _ => rfl, rfl, rfl, by decide, by decide, by decide⟩

/-- The runs from threads without signals. -/
def signalSystem (τ σ H : Type) [DecidableEq τ] [DecidableEq σ] : System (Signals τ σ H) (Act τ σ H) where
  init := Booted
  step s a s' := a.run s = some (.ok s')

end

end RtThread.Signal
