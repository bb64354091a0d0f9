import RtThread.Dfs.Files
import RtThread.Lib.Tally

/-!
# References to descriptors

`open`, `close`, `read`, `write` and `lseek` of `components/dfs/src/dfs_posix.c`, called by any number
of threads. A call is a sequence of sections under `dfs_lock`: it takes a reference with `fd_get`, works
without the lock, and drops the reference with `fd_put`. `open` begins with `fd_new`, which takes the
reference of the open file itself, and a failed `open` or a successful `close` drops it. A step that
goes through a `NULL` pointer has no successor.

A call of `close` may find an entry that another `close` is about to release, or one that is not open
yet. It then drops a reference that is not its own. Where no `close` does so (`Descriptors.Closable`),
the count is the number of references.
-/

namespace RtThread.Dfs

open Lib Function

/-- Where a call is between its sections. -/
inductive Stage
  /-- `open` has made the entry. -/
  | made
  /-- `open` has its reference. -/
  | opening
  /-- `dfs_file_open` has succeeded. -/
  | opened
  /-- `dfs_file_open` has failed. -/
  | failed
  /-- The first of the two `fd_put` of a failed `open` is done. -/
  | failing
  /-- `read`, `write` or `lseek` has its reference. -/
  | inUse
  /-- `close` has its reference. -/
  | closing
  /-- `dfs_file_close` has failed. -/
  | refused
  /-- `dfs_file_close` has succeeded. -/
  | closed
  /-- The first of the two `fd_put` of a successful `close` is done. -/
  | released
  deriving DecidableEq

namespace Stage

/-- At this stage the call holds a reference to the entry. -/
def holds : Stage → Bool
  | made => false
  | failing => false
  | released => false
  | _ => true

/-- The call may be the one that drops the reference of the open file. -/
def owns : Stage → Bool
  | opened => false
  | inUse => false
  | refused => false
  | _ => true

/-- What comes after a `fd_put`, and whether this drops the reference of the open file. -/
def afterPut : Stage → Option (Option Stage × Bool)
  | opened => some (none, false)
  | failed => some (some failing, false)
  | failing => some (none, true)
  | inUse => some (none, false)
  | refused => some (none, false)
  | closed => some (some released, false)
  | released => some (none, true)
  | _ => none

end Stage

/-- The descriptors, the calls in progress, and the two ghost components. -/
structure Descriptors (τ : Type) where
  fds : ℕ → Fd
  pc : τ → Option (Stage × ℕ)
  taken : ℕ → Bool
  closes : ℕ → ℕ

/-- The sections of the calls. -/
inductive FdAct
  /-- `open`: `fd_new` -/
  | new
  /-- `open`: `fd_get` -/
  | get
  /-- `open`: `dfs_file_open` -/
  | work (c : OpenCall)
  /-- `read`, `write` and `lseek`: `fd_get` -/
  | enter (fd : ℤ)
  /-- `close`: `fd_get` -/
  | enterClose (fd : ℤ)
  /-- `close`: `dfs_file_close` -/
  | closeWork (reply : ℤ)
  /-- `fd_put` -/
  | put

/-- The weight of a call in the count of an entry. -/
def holdsEntry (d : ℕ) : Option (Stage × ℕ) → ℕ
  | none => 0
  | some (st, d') => if d' = d ∧ st.holds = true then 1 else 0

namespace Descriptors

variable {τ : Type} [DecidableEq τ]

/-- `fd_get` at the beginning of a call. -/
def enterAt (v : Volumes) (s : Descriptors τ) (i : τ) (st : Stage) (fd : ℤ) : Option (Descriptors τ) :=
  if s.pc i ≠ none then none
  else
    match fdGet v.fdMax s.fds fd with
    | (none, _) => some s
    | (some d, fds) => some { s with fds := fds, pc := update s.pc i (some (st, d)) }

/-- A section of a call by the thread `i`. -/
def exec (v : Volumes) (s : Descriptors τ) (i : τ) : FdAct → Option (Descriptors τ)
  | .new =>
    if s.pc i ≠ none then none
    else
      match freeFd v.fdMax s.fds with
      | none => some s
      | some d =>
        some { fds := (fdNew v.fdMax s.fds).2
               pc := update s.pc i (some (.made, d))
               taken := update s.taken d true
               closes := update s.closes d 0 }
  | .get =>
    match s.pc i with
    | some (.made, d) =>
      match fdGet v.fdMax s.fds (d + DFS_FD_OFFSET) with
      | (none, _) => none
      | (some d, fds) => some { s with fds := fds, pc := update s.pc i (some (.opening, d)) }
    | _ => none
  | .work c =>
    match s.pc i with
    | some (.opening, d) =>
      match v.dfsFileOpen c d s.fds with
      | .error _ => none
      | .ok (result, fds) =>
        some { s with fds := fds
                      pc := update s.pc i (some (if result < 0 then .failed else .opened, d)) }
    | _ => none
  | .enter fd => s.enterAt v i .inUse fd
  | .enterClose fd => s.enterAt v i .closing fd
  | .closeWork reply =>
    match s.pc i with
    | some (.closing, d) =>
      match Volumes.dfsFileClose reply d s.fds with
      | .error _ => none
      | .ok (result, fds) =>
        if result < 0 then some { s with fds := fds, pc := update s.pc i (some (.refused, d)) }
        else
          some { s with fds := fds
                        pc := update s.pc i (some (.closed, d))
                        closes := update s.closes d (s.closes d + 1) }
    | _ => none
  | .put =>
    match s.pc i with
    | none => none
    | some (st, d) =>
      match st.afterPut with
      | none => none
      | some (next, drops) =>
        some { s with fds := fdPut s.fds d
                      pc := update s.pc i (next.map (·, d))
                      taken := if drops then update s.taken d false else s.taken }

/-- The number of calls that have a reference to an entry. -/
def calls [Fintype τ] (s : Descriptors τ) (d : ℕ) : ℕ := weigh (holdsEntry d) s.pc

/-- A call of `close` gets its reference to an entry whose file is open and that no other call of `close`
is about to close. -/
def Closable (v : Volumes) (s : Descriptors τ) : FdAct → Prop
  | .enterClose fd => ∀ d ∈ entryOf v.fdMax s.fds fd,
      (s.fds d).path ≠ none ∧ ∀ j, s.pc j ≠ some (.closing, d)
  | _ => True

instance [Fintype τ] (v : Volumes) (s : Descriptors τ) : DecidablePred (Closable v s) := fun a => by
  cases a <;> unfold Closable <;> infer_instance

end Descriptors

/-! ## One entry -/

/-- What holds for an entry: its count, the state of the reference of its file, how often the file has been
closed, and the number of calls with a reference. -/
structure EntryInv (fd : Fd) (taken : Bool) (closes calls : ℕ) : Prop where
  count : fd.refCount = (if taken then 1 else 0) + calls
  cleared : fd.refCount = 0 → fd = .zero
  path : fd.path ≠ none → taken = true ∧ closes = 0
  closes_le : closes ≤ 1
  magic : taken = true → fd.magic = true

/-- What a stage of a call needs of the entry. -/
def Stage.Allows (taken : Bool) (path : Option Cstring) (closes : ℕ) : Stage → Prop
  | .made => taken = true ∧ path = none ∧ closes = 0
  | .opening => taken = true ∧ path = none ∧ closes = 0
  | .failed => taken = true ∧ path = none
  | .failing => taken = true ∧ path = none
  | .closed => taken = true ∧ path = none
  | .released => taken = true ∧ path = none
  | .closing => taken = true ∧ path ≠ none
  | _ => True

theorem Stage.holds_or_owns (st : Stage) : st.holds = true ∨ st.owns = true := by
  cases st <;> simp [holds, owns]

theorem Stage.allows_of_not_owns {st : Stage} (h : st.owns = false) (taken : Bool)
    (path : Option Cstring) (closes : ℕ) : st.Allows taken path closes := by
  cases st <;> trivial

theorem Stage.Allows.taken {st : Stage} {taken : Bool} {path : Option Cstring} {closes : ℕ}
    (h : st.Allows taken path closes) (howns : st.owns = true) : taken = true := by
  cases st <;> first | exact h.1 | cases howns

theorem Stage.Allows.eq_closing {st : Stage} {taken : Bool} {path : Option Cstring} {closes : ℕ}
    (h : st.Allows taken path closes) (howns : st.owns = true) (hpath : path ≠ none) :
    st = .closing := by
  cases st with
  | closing => rfl
  | made => exact absurd h.2.1 hpath
  | opening => exact absurd h.2.1 hpath
  | failed | failing | closed | released => exact absurd h.2 hpath
  | opened => cases howns
  | inUse => cases howns
  | refused => cases howns

namespace EntryInv

variable {fd fd' : Fd} {taken taken' : Bool} {closes closes' calls calls' : ℕ}

theorem get (h : EntryInv fd taken closes calls) (hmagic : fd.magic = true) :
    EntryInv fd.get taken closes (calls + 1) := by
  have hcount := h.count
  constructor
  · show fd.refCount + 1 = _
    push_cast
    omega
  · intro (hzero : fd.refCount + 1 = 0)
    omega
  · exact h.path
  · exact h.closes_le
  · exact fun _ => hmagic

theorem put_refCount (fd : Fd) : fd.put.refCount = fd.refCount - 1 := by
  unfold Fd.put
  dsimp only
  split
  · next h => exact h.symm
  · rfl

/-- Dropping a reference keeps the entry in order. -/
theorem put (h : EntryInv fd taken closes calls)
    (hrefs : ((if taken then 1 else 0) + calls : ℕ) = (if taken' then 1 else 0) + calls' + 1)
    (htaken : taken' = true → taken = true) (hpath : fd.path ≠ none → taken' = true) :
    EntryInv fd.put taken' closes calls' := by
  have hcount : fd.put.refCount = (if taken' then 1 else 0) + calls' := by
    rw [put_refCount, h.count]
    split at hrefs <;> split at hrefs <;> simp_all <;> omega
  have hput : fd.put = .zero ∨
      (fd.put.refCount ≠ 0 ∧ fd.put = { fd with refCount := fd.refCount - 1 }) := by
    unfold Fd.put
    dsimp only
    split
    · exact .inl rfl
    · next hne => exact .inr ⟨hne, rfl⟩
  constructor
  · exact hcount
  · intro hzero
    rcases hput with heq | ⟨hne, -⟩
    · exact heq
    · exact absurd hzero hne
  · intro hne
    rcases hput with heq | ⟨-, heq⟩
    · rw [heq] at hne
      exact absurd rfl hne
    · rw [heq] at hne
      exact ⟨hpath hne, (h.path hne).2⟩
  · exact h.closes_le
  · intro htaken'
    rcases hput with heq | ⟨-, heq⟩
    · rw [heq, htaken'] at hcount
      have : (0 : ℤ) = 1 + calls' := hcount
      omega
    · rw [heq]
      exact h.magic (htaken htaken')

theorem put_path_none (h : fd.path = none) : fd.put.path = none := by
  unfold Fd.put
  dsimp only
  split
  · rfl
  · exact h

theorem put_path (h : fd.put.refCount ≠ 0) : fd.put.path = fd.path := by
  rw [put_refCount] at h
  unfold Fd.put
  rw [if_neg h]

theorem work (h : EntryInv fd taken closes calls) (hrefs : fd'.refCount = fd.refCount)
    (hmagic : fd'.magic = fd.magic) (hnonzero : fd.refCount ≠ 0)
    (hpath : fd'.path ≠ none → taken = true ∧ closes' = 0) (hcloses : closes' ≤ 1) :
    EntryInv fd' taken closes' calls := by
  constructor
  · rw [hrefs, h.count]
  · intro hzero
    exact absurd (hrefs ▸ hzero) hnonzero
  · exact hpath
  · exact hcloses
  · rw [hmagic]
    exact h.magic

end EntryInv

theorem dfsFileOpen_effect {v : Volumes} {c : OpenCall} {d : ℕ} {t t' : ℕ → Fd} {result : ℤ}
    (h : v.dfsFileOpen c d t = .ok (result, t')) :
    ∃ fd, t' = update t d fd ∧ fd.refCount = (t d).refCount ∧ fd.magic = (t d).magic ∧
      (result < 0 → (t d).path = none → fd.path = none) := by
  have hsame : t = update t d (t d) := (update_eq_self d t).symm
  unfold Volumes.dfsFileOpen at h
  split at h
  · cases h
    exact ⟨t d, hsame, rfl, rfl, fun _ h => h⟩
  · obtain ⟨b, -, hrest⟩ := of_bind_ok h
    cases b with
    | true =>
      cases hrest
      exact ⟨t d, hsame, rfl, rfl, fun _ h => h⟩
    | false =>
      have hopen := Except.ok.inj hrest
      unfold Volumes.openIn at hopen
      split at hopen
      · cases hopen
        exact ⟨t d, hsame, rfl, rfl, fun _ h => h⟩
      · split at hopen
        · cases hopen
          exact ⟨_, rfl, rfl, rfl, fun _ _ => rfl⟩
        · split at hopen
          · cases hopen
            exact ⟨_, rfl, rfl, rfl, fun _ _ => rfl⟩
          · cases hopen
            exact ⟨_, rfl, rfl, rfl, fun hneg => absurd hneg (by decide)⟩

theorem dfsFileClose_effect {reply : ℤ} {d : ℕ} {t t' : ℕ → Fd} {result : ℤ}
    (h : Volumes.dfsFileClose reply d t = .ok (result, t')) :
    if result < 0 then t' = t else t' = update t d { t d with path := none } := by
  unfold Volumes.dfsFileClose at h
  split at h
  · cases h
  · next fops _ =>
    generalize (if fops.hasClose = true then reply else 0) = r at h
    dsimp only at h
    split at h
    · next hneg =>
      cases h
      rw [if_pos hneg]
    · next hneg =>
      cases h
      rw [if_neg hneg]

/-! ## All entries -/

namespace Descriptors

variable {τ : Type} [Fintype τ] {v : Volumes} {s s' : Descriptors τ} {i : τ} {d : ℕ} {st : Stage}

/-- Every entry is counted right, each call finds the entry as its stage needs it, and at most one call
owns an entry. -/
structure Inv (s : Descriptors τ) : Prop where
  entry : ∀ d, EntryInv (s.fds d) (s.taken d) (s.closes d) (s.calls d)
  stage : ∀ {i st d}, s.pc i = some (st, d) → st.Allows (s.taken d) (s.fds d).path (s.closes d)
  unique : ∀ {i j st st' d}, s.pc i = some (st, d) → st.owns = true → s.pc j = some (st', d) →
    st'.owns = true → i = j

theorem Inv.one_le (h : s.Inv) (hpc : s.pc i = some (st, d)) : 1 ≤ (s.fds d).refCount := by
  have hcount := (h.entry d).count
  rcases st.holds_or_owns with hholds | howns
  · have hle : holdsEntry d (s.pc i) ≤ s.calls d := le_weigh i
    rw [hpc] at hle
    simp only [holdsEntry, hholds, and_self, if_true] at hle
    split at hcount <;> omega
  · rw [(h.stage hpc).taken howns] at hcount
    simp only [if_true] at hcount
    omega

theorem Inv.not_owns (h : s.Inv) (hpc : s.pc i = some (st, d)) (howns : st.owns = true) :
    ∀ j st', j ≠ i → s.pc j = some (st', d) → st'.owns = true → False := by
  intro j st' hji hj howns'
  exact hji (h.unique hj howns' hpc howns)

variable [DecidableEq τ]

/-- The rule for a section: one thread goes to its next stage, and one entry changes. -/
theorem Inv.move (h : s.Inv) (next : Option Stage) (fd : Fd) (taken : Bool) (closes calls : ℕ)
    (hpc : ∀ st e, s.pc i = some (st, e) → e = d)
    (hcalls : calls + holdsEntry d (s.pc i) = s.calls d + holdsEntry d (next.map (·, d)))
    (hentry : EntryInv fd taken closes calls)
    (hnext : ∀ st, next = some st → st.Allows taken fd.path closes)
    (hothers : ∀ j st, j ≠ i → s.pc j = some (st, d) → st.owns = true →
      st.Allows taken fd.path closes ∧ ∀ st', next = some st' → st'.owns = false) :
    Inv ({ fds := update s.fds d fd
           pc := update s.pc i (next.map (·, d))
           taken := update s.taken d taken
           closes := update s.closes d closes } : Descriptors τ) := by
  -- The thread itself is at `next` now, and the others are where they were.
  have hself : ∀ {st e}, next.map (·, d) = some (st, e) → next = some st ∧ e = d := by
    intro st e hst
    obtain ⟨st', hst', heq⟩ := Option.map_eq_some_iff.mp hst
    cases heq
    exact ⟨hst', rfl⟩
  constructor
  · intro e
    unfold Descriptors.calls
    by_cases he : e = d
    · subst he
      have hweigh := weigh_update (w := holdsEntry e) (f := s.pc) i (next.map (·, e))
      have hcalls' : weigh (holdsEntry e) (update s.pc i (next.map (·, e))) = calls := by
        unfold Descriptors.calls at hcalls
        omega
      rw [hcalls']
      simpa using hentry
    · have hweigh := weigh_update (w := holdsEntry e) (f := s.pc) i (next.map (·, d))
      have hold : holdsEntry e (s.pc i) = 0 := by
        cases hi : s.pc i with
        | none => rfl
        | some p => simp [holdsEntry, hpc p.1 p.2 hi, Ne.symm he]
      have hnew : holdsEntry e (next.map (·, d)) = 0 := by
        cases next with
        | none => rfl
        | some st => simp [holdsEntry, Ne.symm he]
      rw [hold, hnew, add_zero, add_zero] at hweigh
      have hcalls' : weigh (holdsEntry e) (update s.pc i (next.map (·, d))) = s.calls e := hweigh
      rw [hcalls']
      simpa [he] using h.entry e
  · intro j st e hj
    dsimp only at hj
    by_cases hji : j = i
    · subst hji
      rw [update_self] at hj
      obtain ⟨hst, rfl⟩ := hself hj
      simpa using hnext st hst
    · rw [update_of_ne hji] at hj
      by_cases he : e = d
      · subst he
        by_cases howns : st.owns = true
        · simpa using (hothers j st hji hj howns).1
        · exact Stage.allows_of_not_owns (by simpa using howns) _ _ _
      · simpa [he] using h.stage hj
  · intro j k st st' e hj howns hk howns'
    dsimp only at hj hk
    by_cases hji : j = i
    · subst hji
      rw [update_self] at hj
      obtain ⟨hst, rfl⟩ := hself hj
      by_cases hkj : k = j
      · exact hkj.symm
      · rw [update_of_ne hkj] at hk
        rw [(hothers k st' hkj hk howns').2 st hst] at howns
        cases howns
    · rw [update_of_ne hji] at hj
      by_cases hki : k = i
      · subst hki
        rw [update_self] at hk
        obtain ⟨hst, rfl⟩ := hself hk
        rw [(hothers j st hji hj howns).2 st' hst] at howns'
        cases howns'
      · rw [update_of_ne hki] at hk
        exact h.unique hj howns hk howns'

theorem Inv.move_entry (h : s.Inv) (next : Option Stage) (fd : Fd) (calls : ℕ)
    (hpc : ∀ st e, s.pc i = some (st, e) → e = d)
    (hcalls : calls + holdsEntry d (s.pc i) = s.calls d + holdsEntry d (next.map (·, d)))
    (hentry : EntryInv fd (s.taken d) (s.closes d) calls)
    (hnext : ∀ st, next = some st → st.Allows (s.taken d) fd.path (s.closes d))
    (hothers : ∀ j st, j ≠ i → s.pc j = some (st, d) → st.owns = true →
      st.Allows (s.taken d) fd.path (s.closes d) ∧ ∀ st', next = some st' → st'.owns = false) :
    Inv ({ s with fds := update s.fds d fd
                  pc := update s.pc i (next.map (·, d)) } : Descriptors τ) := by
  have hmove := h.move next fd _ _ calls hpc hcalls hentry hnext hothers
  rwa [update_eq_self, update_eq_self] at hmove

/-! ## The sections -/

section

variable (h : s.Inv)
include h

/-- The section of `fd_new`. -/
theorem Inv.new (hexec : s.exec v i .new = some s') : s'.Inv := by
  simp only [exec] at hexec
  split at hexec
  · cases hexec
  next hpc =>
  split at hexec
  · cases hexec
    exact h
  next e hfree =>
  -- The entry is free, so that no call refers to it and it is all zero.
  obtain ⟨-, hle⟩ := freeFd_eq_some hfree
  have hpc : s.pc i = none := not_not.mp hpc
  have hentry := h.entry e
  have hcount := hentry.count
  have hcalls : s.calls e = 0 := by
    split at hcount <;> omega
  have hzero : s.fds e = .zero := hentry.cleared (by split at hcount <;> omega)
  have hfds : (fdNew v.fdMax s.fds).2 = update s.fds e ⟨true, 1, none, none, none⟩ := by
    simp only [fdNew, hfree, hzero, Fd.zero]
  cases hexec
  rw [hfds]
  refine h.move (some .made) ⟨true, 1, none, none, none⟩ true 0 0 ?_ ?_ ?_ ?_ ?_
  · intro st e' hst
    rw [hpc] at hst
    cases hst
  · simp [hpc, hcalls, holdsEntry, Stage.holds]
  · exact ⟨rfl, fun h => absurd h (by decide), fun h => absurd rfl h, Nat.zero_le 1, fun _ => rfl⟩
  · intro st hst
    cases hst
    exact ⟨rfl, rfl, rfl⟩
  · intro j st _ hj _
    have := h.one_le hj
    omega

/-- The section of `fd_get` in `open`. -/
theorem Inv.get (hexec : s.exec v i .get = some s') : s'.Inv := by
  simp only [exec] at hexec
  split at hexec
  swap
  · cases hexec
  next e hpc =>
  unfold fdGet at hexec
  split at hexec
  · cases hexec
  next e' fds hget =>
  split at hget
  · cases hget
  next e'' hentry =>
  obtain ⟨hindex, -, hmagic⟩ := entryOf_eq_some_iff.mp hentry
  obtain rfl : e = e'' := by exact_mod_cast (add_right_cancel hindex)
  cases hget
  cases hexec
  have hstage := h.stage hpc
  refine h.move_entry (some .opening) (s.fds e).get (s.calls e + 1) ?_ ?_
    ((h.entry e).get hmagic) ?_ ?_
  · intro st e' hst
    rw [hpc] at hst
    cases hst
    rfl
  · simp [hpc, holdsEntry, Stage.holds]
  · intro st hst
    cases hst
    exact hstage
  · intro j st hji hj howns
    exact (h.not_owns hpc rfl j st hji hj howns).elim

theorem Inv.work {c : OpenCall} (hexec : s.exec v i (.work c) = some s') : s'.Inv := by
  simp only [exec] at hexec
  split at hexec
  swap
  · cases hexec
  next e hpc =>
  split at hexec
  · cases hexec
  next result fds hopen =>
  obtain ⟨fd, rfl, hrefs, hmagic, hfail⟩ := dfsFileOpen_effect hopen
  obtain ⟨htaken, hpath, hcloses⟩ := h.stage hpc
  have hpos := h.one_le hpc
  cases hexec
  refine h.move_entry (some (if result < 0 then .failed else .opened)) fd (s.calls e) ?_ ?_ ?_ ?_ ?_
  · intro st e' hst
    rw [hpc] at hst
    cases hst
    rfl
  · rw [hpc]
    split <;> simp [holdsEntry, Stage.holds]
  · exact (h.entry e).work hrefs hmagic (by omega) (fun _ => ⟨htaken, hcloses⟩) (h.entry e).closes_le
  · intro st hst
    cases hst
    split
    · next hneg => exact ⟨htaken, hfail hneg hpath⟩
    · trivial
  · intro j st hji hj howns
    exact (h.not_owns hpc rfl j st hji hj howns).elim

/-- The section of `fd_get` at the start of a call. -/
theorem Inv.enterAt {fd : ℤ} (hholds : st.holds = true)
    (hstage : ∀ d ∈ entryOf v.fdMax s.fds fd, st.Allows (s.taken d) (s.fds d).path (s.closes d))
    (hothers : ∀ d ∈ entryOf v.fdMax s.fds fd, ∀ j st', s.pc j = some (st', d) → st'.owns = true →
      st.owns = false) (hexec : s.enterAt v i st fd = some s') : s'.Inv := by
  unfold Descriptors.enterAt at hexec
  split at hexec
  · cases hexec
  next hpc =>
  have hpc : s.pc i = none := not_not.mp hpc
  unfold fdGet at hexec
  split at hexec
  · cases hexec
    exact h
  next e fds hget =>
  split at hget
  · cases hget
  next e' hentry =>
  cases hget
  cases hexec
  obtain ⟨-, -, hmagic⟩ := entryOf_eq_some_iff.mp hentry
  refine h.move_entry (some st) (s.fds e).get (s.calls e + 1) ?_ ?_ ((h.entry e).get hmagic) ?_ ?_
  · intro st e' hst
    rw [hpc] at hst
    cases hst
  · simp [hpc, holdsEntry, hholds]
  · intro st' hst'
    cases hst'
    exact hstage e hentry
  · intro j st' _ hj howns
    refine ⟨h.stage hj, ?_⟩
    intro st'' hst''
    cases hst''
    exact hothers e hentry j st' hj howns

/-- `dfs_file_close` between the sections of `close`. -/
theorem Inv.closeWork {reply : ℤ} (hexec : s.exec v i (.closeWork reply) = some s') : s'.Inv := by
  simp only [exec] at hexec
  split at hexec
  swap
  · cases hexec
  next e hpc =>
  split at hexec
  · cases hexec
  next result fds hclose =>
  have heffect := dfsFileClose_effect hclose
  obtain ⟨htaken, hpath⟩ := h.stage hpc
  have hpos := h.one_le hpc
  have hself : ∀ st e', s.pc i = some (st, e') → e' = e := by
    intro st e' hst
    rw [hpc] at hst
    cases hst
    rfl
  split at hexec
  · next hneg =>
    rw [if_pos hneg] at heffect
    subst heffect
    cases hexec
    have hmove := h.move_entry (some .refused) (s.fds e) (s.calls e) hself
      (by simp [hpc, holdsEntry, Stage.holds]) (h.entry e) (by rintro st ⟨⟩; trivial)
      fun j st hji hj howns => (h.not_owns hpc rfl j st hji hj howns).elim
    rwa [update_eq_self] at hmove
  · next hneg =>
    rw [if_neg hneg] at heffect
    subst heffect
    cases hexec
    have hzero : s.closes e = 0 := ((h.entry e).path hpath).2
    have hmove := h.move (some .closed) { s.fds e with path := none } (s.taken e) (s.closes e + 1)
      (s.calls e) hself
      (by simp [hpc, holdsEntry, Stage.holds])
      ((h.entry e).work rfl rfl (by omega) (fun h => absurd rfl h) (by omega))
      (by rintro st ⟨⟩; exact ⟨htaken, rfl⟩)
      fun j st hji hj howns => (h.not_owns hpc rfl j st hji hj howns).elim
    rwa [update_eq_self (f := s.taken)] at hmove

/-- The last section of a call that does not own the reference of the open file. -/
theorem Inv.leave (hpc : s.pc i = some (st, d)) (howns : st.owns = false) :
    Inv ({ s with fds := fdPut s.fds d, pc := update s.pc i none } : Descriptors τ) := by
  have hholds : st.holds = true := by
    rcases st.holds_or_owns with hholds | howns'
    · exact hholds
    · rw [howns] at howns'
      cases howns'
  have hcalls : 1 ≤ s.calls d := by
    have hle : holdsEntry d (s.pc i) ≤ s.calls d := le_weigh i
    rw [hpc] at hle
    simpa [holdsEntry, hholds] using hle
  have hentry : EntryInv (s.fds d).put (s.taken d) (s.closes d) (s.calls d - 1) :=
    (h.entry d).put (by omega) (fun h => h) fun hpath => ((h.entry d).path hpath).1
  refine h.move_entry none (s.fds d).put (s.calls d - 1) ?_ ?_ hentry ?_ ?_
  · intro st e hst
    rw [hpc] at hst
    cases hst
    rfl
  · simp [hpc, holdsEntry, hholds]
    omega
  · intro st hst
    cases hst
  · -- The owner keeps the entry from being cleared, so that it finds the path as before.
    intro j st' _ hj howns'
    refine ⟨?_, fun st' hst' => by cases hst'⟩
    have hstage := h.stage hj
    have hcount := hentry.count
    rw [hstage.taken howns', if_pos rfl] at hcount
    rw [EntryInv.put_path (by omega)]
    exact hstage

theorem Inv.dropCall (hpc : s.pc i = some (st, d)) (howns : st.owns = true)
    (hholds : st.holds = true) (hpath : (s.fds d).path = none) {st' : Stage} (hnot : st'.holds = false)
    (hnext : st'.Allows (s.taken d) none (s.closes d)) :
    Inv ({ s with fds := fdPut s.fds d, pc := update s.pc i (some (st', d)) } :
      Descriptors τ) := by
  have hcalls : 1 ≤ s.calls d := by
    have hle : holdsEntry d (s.pc i) ≤ s.calls d := le_weigh i
    rw [hpc] at hle
    simpa [holdsEntry, hholds] using hle
  refine h.move_entry (some st') (s.fds d).put (s.calls d - 1) ?_ ?_ ?_ ?_ ?_
  · intro st e hst
    rw [hpc] at hst
    cases hst
    rfl
  · simp [hpc, holdsEntry, hholds, hnot]
    omega
  · exact (h.entry d).put (by omega) (fun h => h) fun hne => absurd hpath hne
  · intro st'' hst
    cases hst
    rw [EntryInv.put_path_none hpath]
    exact hnext
  · intro j st'' hji hj howns'
    exact (h.not_owns hpc howns j st'' hji hj howns').elim

theorem Inv.dropFile (hpc : s.pc i = some (st, d)) (howns : st.owns = true)
    (hnot : st.holds = false) (hpath : (s.fds d).path = none) :
    Inv ({ s with fds := fdPut s.fds d
                  pc := update s.pc i none
                  taken := update s.taken d false } : Descriptors τ) := by
  have htaken : s.taken d = true := (h.stage hpc).taken howns
  have hentry : EntryInv (s.fds d).put false (s.closes d) (s.calls d) := by
    apply (h.entry d).put
    · simp only [htaken, if_true, Bool.false_eq_true, if_false]
      omega
    · exact fun hfalse => absurd hfalse (by decide)
    · exact fun hne => absurd hpath hne
  have hmove := h.move none (s.fds d).put false (s.closes d) (s.calls d) (d := d) (i := i)
    (by
      intro st e hst
      rw [hpc] at hst
      cases hst
      rfl)
    (by simp [hpc, holdsEntry, hnot]) hentry (fun st hst => by cases hst)
    fun j st hji hj howns' => (h.not_owns hpc howns j st hji hj howns').elim
  rwa [update_eq_self (f := s.closes)] at hmove

theorem Inv.put (hexec : s.exec v i .put = some s') : s'.Inv := by
  simp only [exec] at hexec
  split at hexec
  · cases hexec
  next st e hpc =>
  have hstage := h.stage hpc
  cases st with
  | made => cases hexec
  | opening => cases hexec
  | closing => cases hexec
  | opened | inUse | refused =>
    cases hexec
    exact h.leave hpc rfl
  | failed | closed =>
    cases hexec
    exact h.dropCall hpc rfl rfl hstage.2 rfl ⟨hstage.1, rfl⟩
  | failing | released =>
    cases hexec
    exact h.dropFile hpc rfl rfl hstage.2

theorem Inv.step {a : FdAct} (hclosable : Closable v s a) (hexec : s.exec v i a = some s') :
    s'.Inv := by
  cases a with
  | new => exact h.new hexec
  | get => exact h.get hexec
  | work c => exact h.work hexec
  | enter fd =>
    refine h.enterAt rfl ?_ ?_ hexec
    · intro d _
      trivial
    · intro d _ j st' _ _
      rfl
  | enterClose fd =>
    refine h.enterAt rfl ?_ ?_ hexec
    · intro d hd
      obtain ⟨hpath, -⟩ := hclosable d hd
      exact ⟨((h.entry d).path hpath).1, hpath⟩
    · -- The owner of an entry with an open file would be about to close it.
      intro d hd j st' hj howns
      obtain ⟨hpath, hnot⟩ := hclosable d hd
      obtain rfl := (h.stage hj).eq_closing howns hpath
      exact absurd hj (hnot j)
  | closeWork reply => exact h.closeWork hexec
  | put => exact h.put hexec

end

end Descriptors

/-! ## Runs -/

/-- The sections of the calls of the threads `τ` in any order, from the empty table. -/
def descriptorSystem (v : Volumes) (τ : Type) [DecidableEq τ] : System (Descriptors τ) (τ × FdAct) where
  init s := s = ⟨fun _ => .zero, fun _ => none, fun _ => false, fun _ => 0⟩
  step s a s' := s.exec v a.1 a.2 = some s'

section References

variable {v : Volumes} {τ : Type} [Fintype τ] [DecidableEq τ] {s : Descriptors τ}

theorem Descriptors.inv_of_reachable
    (h : Reachable (descriptorSystem v τ) (fun s a => s.Closable v a.2) s) : s.Inv := by
  refine h.invariant ?_ ?_
  · rintro s rfl
    constructor
    · intro d
      refine ⟨?_, fun _ => rfl, fun hne => absurd rfl hne, Nat.zero_le 1, fun h => by cases h⟩
      simp [Descriptors.calls, weigh, holdsEntry, Fd.zero]
    · intro i st d hpc
      cases hpc
    · intro i j st st' d hpc
      cases hpc
  · rintro s ⟨i, a⟩ s' hinv hclosable hstep
    exact hinv.step hclosable hstep

/-- In every interleaving of the sections in which a `close` gets its reference only to an entry whose file is
open and that no other `close` is about to close: the count of an entry is one for its file and one for each
call with a reference; no call refers to an entry that is free; the file of an entry is closed at most once;
and `open` finds the entry that it has made. -/
theorem dfs_descriptor_references
    (h : Reachable (descriptorSystem v τ) (fun s a => s.Closable v a.2) s) :
    (∀ d, (s.fds d).refCount = (if s.taken d then 1 else 0) + s.calls d) ∧
      (∀ d, (s.fds d).refCount ≤ 0 → s.fds d = .zero ∧ ∀ i st, s.pc i ≠ some (st, d)) ∧
      (∀ d, s.closes d ≤ 1) ∧ ∀ i d, s.pc i = some (.made, d) → (s.fds d).magic = true := by
  have hinv := Descriptors.inv_of_reachable h
  refine ⟨fun d => (hinv.entry d).count, fun d hle => ⟨?_, ?_⟩, fun d => (hinv.entry d).closes_le, ?_⟩
  · have hcount := (hinv.entry d).count
    exact (hinv.entry d).cleared (by split at hcount <;> omega)
  · intro i st hpc
    have := hinv.one_le hpc
    omega
  · intro i d hpc
    exact (hinv.entry d).magic (hinv.stage hpc).1

end References

/-- The sections of an `open` of `/a/f` that succeeds. -/
def openSections (i : Fin 2) : List (Fin 2 × FdAct) :=
  [(i, .new), (i, .get), (i, .work ⟨fileA, true, true, true, 0, none, none⟩), (i, .put)]

/-- A `read` that is still in progress when the file is closed keeps the entry. -/
theorem dfs_descriptor_references_read :
    ∃ s, Reachable (descriptorSystem volumesAB (Fin 2)) (fun s a => s.Closable volumesAB a.2) s ∧
      (s.closes 0 = 1 ∧ s.taken 0 = false ∧ (s.fds 0).refCount = 1) ∧ s.calls 0 = 1 := by
  have hreach : ∃ s, Reachable (descriptorSystem volumesAB (Fin 2))
      (fun s a => s.Closable volumesAB a.2) s ∧
      (s.closes 0 = 1 ∧ s.taken 0 = false ∧ (s.fds 0).refCount = 1) := by
    refine exists_reachable_of_exec rfl
      (openSections 0 ++ [(1, .enter 3), (0, .enterClose 3), (0, .closeWork 0), (0, .put), (0, .put)]) ?_
    decide +kernel
  obtain ⟨s, hs, hcloses, htaken, hcount⟩ := hreach
  have hrefs := (dfs_descriptor_references hs).1 0
  rw [hcount, htaken] at hrefs
  refine ⟨s, hs, ⟨hcloses, htaken, hcount⟩, ?_⟩
  simp only [Bool.false_eq_true, if_false] at hrefs
  omega

/-- Two calls of `close` that overlap: both succeed, and the entry is cleared while the second one still
refers to it. -/
theorem closed_twice :
    ∃ s : Descriptors (Fin 2), Reachable (descriptorSystem volumesAB (Fin 2)) always s ∧
      (s.closes 0 = 2 ∧ s.fds 0 = .zero ∧ s.pc 1 = some (.released, 0)) := by
  refine exists_reachable_of_exec rfl
    (openSections 0 ++ [(0, .enterClose 3), (1, .enterClose 3), (0, .closeWork 0), (1, .closeWork 0),
      (0, .put), (0, .put), (1, .put)]) ?_
  decide +kernel

end RtThread.Dfs
