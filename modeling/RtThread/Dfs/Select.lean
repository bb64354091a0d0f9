import Mathlib.Data.Finset.Card
import Mathlib.Data.List.Range
import Mathlib.Tactic.Common

/-!
# `select` over `poll`

`select` of `components/dfs/src/select.c` with `poll_do` and `do_pollfd` of `poll.c`. The three sets
are merged into one array, and the answer is split again without a look at what was asked. Since
`do_pollfd` lets `POLLERR` and `POLLHUP` through for every descriptor, they can set bits that the
caller did not ask for. If there is no memory for the array, `select` returns -1 and leaves the sets
as they are.
-/

namespace RtThread

/-- The conditions of `poll`. -/
inductive PollBit
  | pollin
  | pollout
  | pollerr
  | pollhup
  | pollnval
  deriving DecidableEq

/-- What a descriptor answers: there is no file, its file has no `poll`, or the mask of `fops->poll`. -/
inductive PollAnswer
  | noFile
  | noPoll
  | mask (m : Finset PollBit)

open PollBit

/-- `do_pollfd`, for the events of the entry. -/
def doPollfd (events : Finset PollBit) : PollAnswer → Finset PollBit
  | .noFile => {pollnval}
  | .noPoll => {pollin, pollout} ∩ (events ∪ {pollerr, pollhup})
  | .mask m => m ∩ (events ∪ {pollerr, pollhup})

/-- One turn of the loop of `poll_do`, with what `poll_wait_timeout` returns behind it. -/
structure PollTurn where
  answer : ℕ → PollAnswer
  expired : Bool

/-- Whether the answer has the bit, which is one that nobody has to ask for. -/
def PollAnswer.Has (b : PollBit) : PollAnswer → Prop
  | .mask m => b ∈ m
  | _ => False

/-- `fds && FD_ISSET(fd, fds)` -/
def fdIsset (fds : Option (Finset ℕ)) (fd : ℕ) : Bool :=
  fds.any (fd ∈ ·)

/-- The number of bits that are set, none in a set that is absent. -/
def fdBits (fds : Option (Finset ℕ)) : ℤ :=
  fds.elim 0 (·.card)

/-- The arguments of `select`. -/
structure FdRequest where
  nfds : ℕ
  readfds : Option (Finset ℕ)
  writefds : Option (Finset ℕ)
  exceptfds : Option (Finset ℕ)

/-- The sets and the result, during the last loop of `select` and on return. -/
structure FdResult where
  readfds : Option (Finset ℕ)
  writefds : Option (Finset ℕ)
  exceptfds : Option (Finset ℕ)
  ret : ℤ
  deriving DecidableEq

/-- One of the three tests of the last loop: `FD_SET` and `ret++` if the set is there and `revents`
has one of the conditions. -/
def fdMark (cond revents : Finset PollBit) (fd : ℕ) : Option (Finset ℕ) × ℤ → Option (Finset ℕ) × ℤ
  | (some s, ret) => if revents ∩ cond = ∅ then (some s, ret) else (some (insert fd s), ret + 1)
  | (none, ret) => (none, ret)

/-- One turn of the last loop of `select`. -/
def FdResult.turn (revents : ℕ → Finset PollBit) (out : FdResult) (fd : ℕ) : FdResult :=
  let r := fdMark {pollin, pollhup} (revents fd) fd (out.readfds, out.ret)
  let w := fdMark {pollout} (revents fd) fd (out.writefds, r.2)
  let e := fdMark {pollerr} (revents fd) fd (out.exceptfds, w.2)
  ⟨r.1, w.1, e.1, e.2⟩

namespace FdRequest

variable (q : FdRequest)

/-- The descriptors of the array for `poll`. -/
def pollset : List ℕ :=
  (List.range q.nfds).filter fun fd =>
    fdIsset q.readfds fd || fdIsset q.writefds fd || fdIsset q.exceptfds fd

/-- The events that the array asks for: exceptions are not asked for. -/
def events (fd : ℕ) : Finset PollBit :=
  (if fdIsset q.readfds fd then {pollin} else ∅) ∪ if fdIsset q.writefds fd then {pollout} else ∅

/-- The masks that the turn leaves in the array. -/
def revents (turn : PollTurn) (fd : ℕ) : Finset PollBit :=
  doPollfd (q.events fd) (turn.answer fd)

/-- The number that `poll_do` counts in the turn. -/
def num (turn : PollTurn) : ℕ :=
  q.pollset.countP (q.revents turn · ≠ ∅)

/-- `poll_do` from a turn of its loop on: the turn at which it returns, if it does. -/
def pollDo : Bool → List PollTurn → Option PollTurn
  | _, [] => none
  | istimeout, turn :: turns =>
    if q.num turn ≠ 0 ∨ istimeout then some turn else pollDo turn.expired turns

/-- `select` behind `poll`. -/
def results (turn : PollTurn) : FdResult :=
  let cleared := ⟨q.readfds.map fun _ => ∅, q.writefds.map fun _ => ∅, q.exceptfds.map fun _ => ∅, 0⟩
  if 0 < q.num turn then q.pollset.foldl (FdResult.turn (q.revents turn)) cleared else cleared

/-- `select`, if it returns. The array is `allocated`, or there is no memory for it. -/
def select (allocated : Bool) (msec : ℤ) (turns : List PollTurn) : Option FdResult :=
  if q.pollset ≠ [] ∧ !allocated then some ⟨q.readfds, q.writefds, q.exceptfds, -1⟩
  else (q.pollDo (msec == 0) turns).map q.results

/-- The set that comes back is part of the one that went in, and has the descriptors asked for whose
mask has one of the conditions. -/
def Exact (turn : PollTurn) (cond : Finset PollBit) : Option (Finset ℕ) → Option (Finset ℕ) → Prop
  | some asked, some s =>
    s ⊆ asked ∧ ∀ fd, fd ∈ s ↔ fd ∈ asked ∧ fd < q.nfds ∧ q.revents turn fd ∩ cond ≠ ∅
  | none, none => True
  | _, _ => False

/-- The sets are exact, and the result is the number of bits in them. -/
structure Right (turn : PollTurn) (out : FdResult) : Prop where
  reading : q.Exact turn {pollin, pollhup} q.readfds out.readfds
  writing : q.Exact turn {pollout} q.writefds out.writefds
  exceptions : q.Exact turn {pollerr} q.exceptfds out.exceptfds
  count : out.ret = fdBits out.readfds + fdBits out.writefds + fdBits out.exceptfds

/-- The descriptors of the list whose mask has one of the conditions, if the set is there. -/
def found (turn : PollTurn) (cond : Finset PollBit) (l : List ℕ) (fds : Option (Finset ℕ)) :
    Option (Finset ℕ) :=
  fds.map fun _ => l.toFinset.filter (q.revents turn · ∩ cond ≠ ∅)

/-- What the last loop has put together behind the entries of the list. -/
def gathered (turn : PollTurn) (l : List ℕ) : FdResult :=
  let r := q.found turn {pollin, pollhup} l q.readfds
  let w := q.found turn {pollout} l q.writefds
  let e := q.found turn {pollerr} l q.exceptfds
  ⟨r, w, e, fdBits r + fdBits w + fdBits e⟩

variable (turn : PollTurn)

theorem fdMark_found (cond : Finset PollBit) {l : List ℕ} {fd : ℕ} (hnew : fd ∉ l)
    (fds : Option (Finset ℕ)) (n : ℤ) :
    fdMark cond (q.revents turn fd) fd (q.found turn cond l fds, n + fdBits (q.found turn cond l fds)) =
      (q.found turn cond (l ++ [fd]) fds, n + fdBits (q.found turn cond (l ++ [fd]) fds)) := by
  cases fds with
  | none => rfl
  | some s =>
    simp only [found, Option.map_some, fdMark, fdBits, Option.elim_some, List.toFinset_append,
      List.toFinset_cons, List.toFinset_nil, insert_empty_eq, Finset.filter_union,
      Finset.filter_singleton]
    by_cases hmask : q.revents turn fd ∩ cond = ∅
    · simp [hmask]
    · simp [hmask, Finset.union_comm _ {fd}, Int.add_assoc, hnew]

theorem turn_gathered {l : List ℕ} {fd : ℕ} (hnew : fd ∉ l) :
    FdResult.turn (q.revents turn) (q.gathered turn l) fd = q.gathered turn (l ++ [fd]) := by
  simp only [FdResult.turn, gathered]
  -- each test adds to the bits of its own set, which are brought to the end of the sum for it
  rw [Int.add_assoc, Int.add_comm, fdMark_found q turn _ hnew]
  dsimp only
  rw [Int.add_assoc, Int.add_comm, fdMark_found q turn _ hnew]
  dsimp only
  rw [Int.add_assoc, Int.add_comm, fdMark_found q turn _ hnew]

theorem foldl_gathered : ∀ {done l : List ℕ}, (done ++ l).Nodup →
    l.foldl (FdResult.turn (q.revents turn)) (q.gathered turn done) = q.gathered turn (done ++ l)
  | done, [], _ => by rw [List.append_nil]; rfl
  | done, fd :: l, hnodup => by
    have hnew : fd ∉ done := fun h => List.disjoint_of_nodup_append hnodup h List.mem_cons_self
    rw [List.foldl_cons, turn_gathered q turn hnew, foldl_gathered (by simpa using hnodup),
      List.append_assoc, List.singleton_append]

theorem results_eq : q.results turn = q.gathered turn q.pollset := by
  have hcleared : q.gathered turn [] = ⟨q.readfds.map fun _ => ∅, q.writefds.map fun _ => ∅,
      q.exceptfds.map fun _ => ∅, 0⟩ := by
    cases hr : q.readfds <;> cases hw : q.writefds <;> cases he : q.exceptfds <;>
      simp [gathered, found, fdBits, hr, hw, he]
  have hnodup : q.pollset.Nodup := List.nodup_range.filter _
  unfold results
  rw [← hcleared]
  split_ifs with hnum
  · exact foldl_gathered q turn hnodup
  · -- No descriptor has an answer.
    have hmask : ∀ fd ∈ q.pollset, q.revents turn fd = ∅ := by
      simpa [num, List.countP_eq_zero] using hnum
    have hnone : ∀ cond fds, q.found turn cond q.pollset fds = q.found turn cond [] fds := by
      intro cond fds
      unfold found
      rw [Finset.filter_eq_empty_iff.2 fun fd hfd => by simp [hmask fd (by simpa using hfd)]]
      rfl
    simp only [gathered, hnone]

theorem exact_found_iff (cond : Finset PollBit) (fds : Option (Finset ℕ))
    (hfds : ∀ fd < q.nfds, fdIsset fds fd → fd ∈ q.pollset) :
    q.Exact turn cond fds (q.found turn cond q.pollset fds) ↔
      ∀ fd ∈ q.pollset, ∀ b ∈ cond, b ∈ q.revents turn fd → fds.isSome → fdIsset fds fd := by
  cases fds with
  | none => simp [Exact, found]
  | some s =>
    have hlt : ∀ fd ∈ q.pollset, fd < q.nfds :=
      fun fd hfd => List.mem_range.1 (List.mem_filter.1 hfd).1
    simp only [Exact, found, Option.map_some, fdIsset, Option.any_some, decide_eq_true_eq] at hfds ⊢
    constructor
    · -- A bit that is set although nobody asked would not be in the set.
      intro h fd hfd b hb hmask _
      have hne := Finset.ne_empty_of_mem (Finset.mem_inter.2 ⟨hmask, hb⟩)
      exact h.1 (by simp [hfd, hne])
    · intro h
      have hmem : ∀ fd, fd ∈ q.pollset.toFinset.filter (q.revents turn · ∩ cond ≠ ∅) ↔
          fd ∈ s ∧ fd < q.nfds ∧ q.revents turn fd ∩ cond ≠ ∅ := by
        intro fd
        rw [Finset.mem_filter, List.mem_toFinset]
        refine ⟨fun hfd => ⟨?_, hlt fd hfd.1, hfd.2⟩, fun hfd => ⟨hfds fd hfd.2.1 hfd.1, hfd.2.2⟩⟩
        obtain ⟨b, hb⟩ := Finset.nonempty_iff_ne_empty.2 hfd.2
        exact h fd hfd.1 b (Finset.mem_inter.1 hb).2 (Finset.mem_inter.1 hb).1 rfl
      exact ⟨fun fd hfd => ((hmem fd).1 hfd).1, hmem⟩

variable {q turn}

theorem mem_revents_iff {b : PollBit} {fd : ℕ} (hb : b = pollerr ∨ b = pollhup) :
    b ∈ q.revents turn fd ↔ (turn.answer fd).Has b := by
  unfold revents doPollfd PollAnswer.Has
  rcases hb with rfl | rfl <;> cases turn.answer fd <;> simp

theorem fdIsset_of_mem_revents {fd : ℕ} :
    (pollin ∈ q.revents turn fd → fdIsset q.readfds fd) ∧
      (pollout ∈ q.revents turn fd → fdIsset q.writefds fd) := by
  unfold revents doPollfd events
  cases turn.answer fd <;> split_ifs <;> simp_all

theorem fdBits_nonneg (fds : Option (Finset ℕ)) : 0 ≤ fdBits fds := by
  cases fds with
  | none => exact le_refl 0
  | some s => exact Int.natCast_nonneg _

/-- What `select` returns without memory for the array is never the number of bits in the sets. -/
theorem not_right_of_error (q : FdRequest) : ¬q.Right turn ⟨q.readfds, q.writefds, q.exceptfds, -1⟩ := by
  intro h
  have hcount : -1 = fdBits q.readfds + fdBits q.writefds + fdBits q.exceptfds := h.count
  have hr := fdBits_nonneg q.readfds
  have hw := fdBits_nonneg q.writefds
  have he := fdBits_nonneg q.exceptfds
  omega

theorem right_gathered_iff : q.Right turn (q.gathered turn q.pollset) ↔ ∀ fd ∈ q.pollset,
    ((turn.answer fd).Has pollhup → q.readfds.isSome → fdIsset q.readfds fd) ∧
      ((turn.answer fd).Has pollerr → q.exceptfds.isSome → fdIsset q.exceptfds fd) := by
  have hread := q.exact_found_iff turn {pollin, pollhup} q.readfds (by simp +contextual [pollset])
  have hwrite := q.exact_found_iff turn {pollout} q.writefds (by simp +contextual [pollset])
  have hexcept := q.exact_found_iff turn {pollerr} q.exceptfds (by simp +contextual [pollset])
  constructor
  · intro h fd hfd
    exact ⟨fun hhup => hread.1 h.reading fd hfd pollhup (by decide)
        ((mem_revents_iff (.inr rfl)).2 hhup),
      fun herr => hexcept.1 h.exceptions fd hfd pollerr (by decide)
        ((mem_revents_iff (.inl rfl)).2 herr)⟩
  · intro h
    refine ⟨hread.2 ?_, hwrite.2 ?_, hexcept.2 ?_, rfl⟩
    · intro fd hfd b hb hmask hsome
      obtain rfl | rfl : b = pollin ∨ b = pollhup := by simpa using hb
      · exact fdIsset_of_mem_revents.1 hmask
      · exact (h fd hfd).1 ((mem_revents_iff (.inr rfl)).1 hmask) hsome
    · intro fd hfd b hb hmask _
      obtain rfl := Finset.mem_singleton.1 hb
      exact fdIsset_of_mem_revents.2 hmask
    · intro fd hfd b hb hmask hsome
      obtain rfl := Finset.mem_singleton.1 hb
      exact (h fd hfd).2 ((mem_revents_iff (.inl rfl)).1 hmask) hsome

/-- On return the sets are exact and counted if and only if there is memory for the array, if one is
needed, no descriptor of the array is hung up that is missing from a read set, and none has an error
that is missing from an exception set. -/
theorem select_exact_iff (q : FdRequest) (allocated : Bool) (msec : ℤ) {turns : List PollTurn}
    {turn : PollTurn}
    (hturn : q.pollset = [] ∨ allocated → q.pollDo (msec == 0) turns = some turn) :
    ∃ out, q.select allocated msec turns = some out ∧
      (q.Right turn out ↔ (q.pollset = [] ∨ allocated) ∧ ∀ fd ∈ q.pollset,
        ((turn.answer fd).Has pollhup → q.readfds.isSome → fdIsset q.readfds fd) ∧
          ((turn.answer fd).Has pollerr → q.exceptfds.isSome → fdIsset q.exceptfds fd)) := by
  unfold select
  by_cases hmem : q.pollset = [] ∨ allocated
  · have hgoes : ¬(q.pollset ≠ [] ∧ (!allocated) = true) := by
      rcases hmem with hnil | hallocated
      · exact fun h => h.1 hnil
      · simp [hallocated]
    rw [if_neg hgoes, hturn hmem, Option.map_some, results_eq]
    exact ⟨_, rfl, right_gathered_iff.trans (and_iff_right hmem).symm⟩
  · obtain ⟨hsome, hfailed⟩ := not_or.1 hmem
    rw [if_pos ⟨hsome, by simpa using hfailed⟩]
    exact ⟨_, rfl, iff_of_false q.not_right_of_error fun h => hmem h.1⟩

/-- A descriptor that is asked for reading is ready. -/
theorem select_exact_iff_read : ∃ out, select ⟨4, some {3}, none, none⟩ true 0
    [⟨fun _ => .mask {pollhup}, true⟩] = some out ∧
      Right ⟨4, some {3}, none, none⟩ ⟨fun _ => .mask {pollhup}, true⟩ out := by
  obtain ⟨out, hout, hright⟩ := @select_exact_iff ⟨4, some {3}, none, none⟩ true 0
    [⟨fun _ => .mask {pollhup}, true⟩] _ fun _ => rfl
  exact ⟨out, hout, hright.2 (by simp +contextual [pollset, fdIsset])⟩

/-- A hung-up descriptor that is only in the write set comes back in the read set. -/
theorem hangup_is_not_asked : select ⟨4, some ∅, some {3}, none⟩ true 0
    [⟨fun _ => .mask {pollhup}, true⟩] = some ⟨some {3}, some ∅, none, 1⟩ ∧
      ∀ turn, ¬Right ⟨4, some ∅, some {3}, none⟩ turn ⟨some {3}, some ∅, none, 1⟩ := by
  refine ⟨by decide +kernel, fun turn h => ?_⟩
  exact absurd (h.reading.1 (Finset.mem_singleton_self 3)) (Finset.notMem_empty 3)

end FdRequest

end RtThread
