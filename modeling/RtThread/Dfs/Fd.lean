import RtThread.Dfs.Mount

/-!
# File descriptors

The model of the table of file descriptors and of `fd_new`, `fd_get` and `fd_put` in
`components/dfs/src/dfs.c`. Each of the three is one section under `dfs_lock`. The table has `fdMax`
entries; a descriptor is the index of its entry with an offset.
-/

namespace RtThread.Dfs

open Lib Function List

/-- The descriptor of the first entry of the table. -/
def DFS_FD_OFFSET : ℤ := 3

/-- `struct dfs_fd`, as far as it is looked at. -/
structure Fd where
  /-- The magic number is `DFS_FD_MAGIC`. -/
  magic : Bool
  refCount : ℤ
  fops : Option FileOps
  path : Option Cstring
  /-- The entry of the file system, or what the operation `open` has put there. -/
  data : Option ℕ
  deriving DecidableEq

/-- An entry of the table before it is used. -/
def Fd.zero : Fd := { magic := false, refCount := 0, fops := none, path := none, data := none }

variable (fdMax : ℕ) (t : ℕ → Fd)

/-- The first entry without a reference. -/
def freeFd : Option ℕ :=
  (range fdMax).find? fun idx => ¬ 0 < (t idx).refCount

/-- `fd_new`: the first free entry with one reference, or -1. -/
def fdNew : ℤ × (ℕ → Fd) :=
  match freeFd fdMax t with
  | none => (-(1 + DFS_FD_OFFSET) + DFS_FD_OFFSET, t)
  | some idx => (idx + DFS_FD_OFFSET, update t idx { t idx with refCount := 1, magic := true })

/-- The entry of a descriptor, if it is in the table and has the magic number. -/
def entryOf (fd : ℤ) : Option ℕ :=
  let fd := fd - DFS_FD_OFFSET
  if fd < 0 ∨ fdMax ≤ fd then none
  else if (t fd.toNat).magic = false then none
  else some fd.toNat

/-- One reference more. -/
def Fd.get (d : Fd) : Fd := { d with refCount := d.refCount + 1 }

/-- `fd_get`: the entry of a descriptor, with one reference more. -/
def fdGet (fd : ℤ) : Option ℕ × (ℕ → Fd) :=
  match entryOf fdMax t fd with
  | none => (none, t)
  | some d => (some d, update t d (t d).get)

/-- One reference less, and the entry is cleared with the last one. -/
def Fd.put (d : Fd) : Fd :=
  let d := { d with refCount := d.refCount - 1 }
  if d.refCount = 0 then .zero else d

/-- `fd_put`: one reference less, and an entry without a reference is cleared. -/
def fdPut (d : ℕ) : ℕ → Fd := update t d (t d).put

section Table

variable {fdMax : ℕ} {t : ℕ → Fd} {d : ℕ} {fd : ℤ}

theorem freeFd_eq_some (h : freeFd fdMax t = some d) : d < fdMax ∧ (t d).refCount ≤ 0 := by
  have hcount := find?_some h
  have hmem := mem_of_find?_eq_some h
  rw [mem_range] at hmem
  exact ⟨hmem, by simpa using hcount⟩

theorem exists_freeFd (h : ∃ n < fdMax, (t n).refCount ≤ 0) : ∃ d, freeFd fdMax t = some d := by
  obtain ⟨n, hn, hcount⟩ := h
  apply Option.isSome_iff_exists.mp
  rw [freeFd, find?_isSome]
  exact ⟨n, mem_range.mpr hn, by simpa using hcount⟩

theorem entryOf_eq_some_iff :
    entryOf fdMax t fd = some d ↔ fd = d + DFS_FD_OFFSET ∧ d < fdMax ∧ (t d).magic = true := by
  unfold entryOf DFS_FD_OFFSET
  dsimp only
  constructor
  · intro h
    split at h
    · cases h
    · split at h
      · cases h
      · obtain rfl := Option.some.inj h
        next hmagic => exact ⟨by omega, by omega, by simpa using hmagic⟩
  · rintro ⟨rfl, hlt, hmagic⟩
    have hindex : ((d : ℤ) + 3 - 3).toNat = d := by omega
    rw [hindex, if_neg (by omega), if_neg (by simp [hmagic])]

end Table

end RtThread.Dfs
