import RtThread.Dfs.Fd
import RtThread.Dfs.MountTable

/-!
# Opening, closing and unlinking files

The model of `fd_is_open` in `components/dfs/src/dfs.c`, of `dfs_file_open`, `dfs_file_close` and
`dfs_file_unlink` in `dfs_file.c`, and of `open`, `close` and `unlink` in `dfs_posix.c`, called by one
thread. The mounted file systems do not change (`Volumes`). Whether there is memory and what the
operations of a file system return is given with the call. The flags of an open are left out: nothing
that is modelled depends on them.

`fd_is_open` takes a file for open if a descriptor has the operations of its file system and its path
inside the file system. `Apart` says where this is right.
-/

namespace RtThread.Dfs

open Lib Function List Option

/-- No such file. -/
def ENOENT : ℤ := 2
/-- Bad descriptor. -/
def EBADF : ℤ := 9
/-- No memory. -/
def ENOMEM : ℤ := 12
/-- The file is open. -/
def EBUSY : ℤ := 16
/-- Bad argument. -/
def EINVAL : ℤ := 22
/-- No such operation. -/
def ENOSYS : ℤ := 38

/-- The mounted file systems, with canonical paths, and the sizes and directories that do not change. -/
structure Volumes where
  table : List Filesystem
  wd : WorkingDirectory
  fdMax : ℕ
  canonical : ∀ {i q ops}, Mounts table i q ops → Canonical q.chars

/-- What a call returns, and the error number that it sets. -/
structure Returned where
  value : ℤ
  errno : Option ℤ
  deriving DecidableEq

/-- A call of `open`, and what it is replied. -/
structure OpenCall where
  path : Cstring
  /-- There is memory for the normalised path. -/
  allocated : Bool
  /-- The same in `fd_is_open`. -/
  checkAllocated : Bool
  /-- There is memory for the path of the descriptor. -/
  duplicated : Bool
  /-- What the operation `open` of the file system returns. -/
  reply : ℤ
  /-- The operations that it gives the descriptor, if it replaces them, as that of `devfs` does by those
  of the device. -/
  fops : Option FileOps
  /-- The data that it leaves in the descriptor. -/
  data : Option ℕ

/-- A call of `unlink`, and what it is replied. -/
structure UnlinkCall where
  path : Cstring
  allocated : Bool
  checkAllocated : Bool
  /-- The operation `unlink` of the file system. -/
  reply : ℤ

theorem subPath_notMem (q path : Cstring) : '\x00' ∉ subPath q.chars path.chars := by
  have hdrop : ∀ n, '\x00' ∉ path.chars.drop n := fun n hmem =>
    path.zero_notMem (mem_of_mem_drop hmem)
  unfold subPath dfsSubdir
  dsimp only
  split
  · decide
  · split
    · exact hdrop _
    · exact hdrop _

/-- The path inside a file system at `q`, as a string. -/
def inside (q fullpath : Cstring) : Cstring := ⟨subPath q.chars fullpath.chars, subPath_notMem q fullpath⟩

/-- The path that `fd_is_open` looks for. -/
def mountpath (q fullpath : Cstring) : Cstring :=
  if q = rootPath then fullpath
  else ⟨fullpath.chars.drop q.chars.length, fun hmem => fullpath.zero_notMem (mem_of_mem_drop hmem)⟩

namespace Volumes

variable (v : Volumes)

/-- The entry that `dfs_filesystem_lookup` returns, with its path and its operations. -/
def found (fullpath : Cstring) : Option (ℕ × Cstring × FilesystemOps) :=
  (dfsFilesystemLookup v.table fullpath).bind fun i => v.table[i]?.bind fun e =>
    e.path.bind fun q => e.ops.map fun ops => (i, q, ops)

/-- The loop of `fd_is_open` over the table, which compares operations and paths. -/
def openScan (fops : FileOps) (path : Cstring) : List Fd → Except Fault Bool
  | [] => .ok false
  | fd :: rest =>
    match fd.fops with
    | none => openScan fops path rest
    | some f =>
      if f.id = fops.id then
        match fd.path with
        | none => .error .wild
        | some p => if strcmp p.chars path.chars = 0 then .ok true else openScan fops path rest
      else openScan fops path rest

/-- `fd_is_open`: whether a descriptor has the operations and the path of the file. -/
def fdIsOpen (allocated : Bool) (pathname : Cstring) (t : ℕ → Fd) : Except Fault Bool :=
  match normalizedPath v.wd allocated pathname with
  | none => .ok false
  | some fullpath =>
    match v.found fullpath with
    | none => .ok false
    | some (_, q, ops) => openScan ops.fops (mountpath q fullpath) ((range v.fdMax).map t)

/-- The path that `dfs_file_open` stores in the descriptor, if there is memory for it. -/
def storedPath (duplicated : Bool) (q : Cstring) (ops : FilesystemOps) (fullpath : Cstring) :
    Option Cstring :=
  if ops.fullpath then some fullpath
  else if duplicated then some (inside q fullpath)
  else none

/-- `dfs_file_open` from the search for the file system on. -/
def openIn (c : OpenCall) (fullpath : Cstring) (d : ℕ) (t : ℕ → Fd) : ℤ × (ℕ → Fd) :=
  match v.found fullpath with
  | none => (-ENOENT, t)
  | some (i, q, ops) =>
    let fd := { t d with fops := some ops.fops, data := some i,
                         path := storedPath c.duplicated q ops fullpath }
    if ops.fops.hasOpen = false then (-ENOSYS, update t d { fd with path := none })
    else
      -- The operation is given the descriptor.
      let fd := { fd with fops := some (c.fops.getD ops.fops), data := c.data }
      if c.reply < 0 then (c.reply, update t d { fd with path := none })
      else (0, update t d fd)

/-- `dfs_file_open` for the entry `d` of the table. -/
def dfsFileOpen (c : OpenCall) (d : ℕ) (t : ℕ → Fd) : Except Fault (ℤ × (ℕ → Fd)) :=
  match normalizedPath v.wd c.allocated c.path with
  | none => .ok (-ENOMEM, t)
  | some fullpath => do
    if ← v.fdIsOpen c.checkAllocated fullpath t then .ok (-EBUSY, t)
    else .ok (v.openIn c fullpath d t)

/-- `open` -/
def posixOpen (c : OpenCall) (t : ℕ → Fd) : Except Fault (Returned × (ℕ → Fd)) :=
  let (fd, t) := fdNew v.fdMax t
  if fd < 0 then .ok (⟨-1, some (-ENOMEM)⟩, t)
  else
    match fdGet v.fdMax t fd with
    | (none, _) => .error .assertion
    | (some d, t) => do
      let (result, t) ← v.dfsFileOpen c d t
      if result < 0 then .ok (⟨-1, some result⟩, fdPut (fdPut t d) d)
      else .ok (⟨fd, none⟩, fdPut t d)

/-- `dfs_file_close`, if the operation `close` replies `reply`. -/
def dfsFileClose (reply : ℤ) (d : ℕ) (t : ℕ → Fd) : Except Fault (ℤ × (ℕ → Fd)) :=
  match (t d).fops with
  | none => .error .wild
  | some fops =>
    let result := if fops.hasClose then reply else 0
    if result < 0 then .ok (result, t)
    else .ok (result, update t d { t d with path := none })

/-- `close` -/
def posixClose (fd : ℤ) (reply : ℤ) (t : ℕ → Fd) : Except Fault (Returned × (ℕ → Fd)) :=
  match fdGet v.fdMax t fd with
  | (none, t) => .ok (⟨-1, some (-EBADF)⟩, t)
  | (some d, t) => do
    let (result, t) ← dfsFileClose reply d t
    let t := fdPut t d
    if result < 0 then .ok (⟨-1, some result⟩, t)
    else .ok (⟨0, none⟩, fdPut t d)

/-- `dfs_file_unlink`: a file that is open is not unlinked. -/
def dfsFileUnlink (c : UnlinkCall) (t : ℕ → Fd) : Except Fault ℤ :=
  match normalizedPath v.wd c.allocated c.path with
  | none => .ok (-EINVAL)
  | some fullpath =>
    match v.found fullpath with
    | none => .ok (-ENOENT)
    | some (_, _, ops) => do
      if ← v.fdIsOpen c.checkAllocated fullpath t then .ok (-EBUSY)
      else if ops.hasUnlink then .ok c.reply
      else .ok (-ENOSYS)

/-- `unlink` -/
def posixUnlink (c : UnlinkCall) (t : ℕ → Fd) : Except Fault Returned := do
  let result ← v.dfsFileUnlink c t
  if result < 0 then .ok ⟨-1, some result⟩ else .ok ⟨0, none⟩

/-! ## Open files -/

/-- The file that a path names: its file system and the path inside it. -/
def fileOf (path : Cstring) : Option (ℕ × Cstring) :=
  (normalizedPath v.wd true path).bind fun fullpath =>
    (v.found fullpath).map fun r => (r.1, inside r.2.1 fullpath)

/-- The file operations of a mounted file system. -/
def fopsId (i : ℕ) : Option ℕ := v.table[i]?.bind fun e => e.ops.map (·.fops.id)

end Volumes

/-- The descriptors, and the file of each that is open. -/
structure Files where
  fds : ℕ → Fd
  opened : ℕ → Option (ℕ × Cstring)

/-- A call of the one thread, with what the file system replies. -/
inductive FileAct
  | open (c : OpenCall)
  | close (fd reply : ℤ)
  | unlink (c : UnlinkCall)

/-- The path that a call is given. -/
def FileAct.path? : FileAct → Option Cstring
  | .open c => some c.path
  | .close _ _ => none
  | .unlink c => some c.path

variable (v : Volumes) (s : Files)

/-- A call. An open that succeeds makes its file open, and a close that succeeds ends that. -/
def Files.exec : FileAct → Except Fault (Returned × Files)
  | .open c => do
    let (r, fds) ← v.posixOpen c s.fds
    if 0 ≤ r.value then
      .ok (r, ⟨fds, update s.opened (r.value - DFS_FD_OFFSET).toNat (v.fileOf c.path)⟩)
    else .ok (r, { s with fds := fds })
  | .close fd reply => do
    let (r, fds) ← v.posixClose fd reply s.fds
    if 0 ≤ r.value then .ok (r, ⟨fds, update s.opened (fd - DFS_FD_OFFSET).toNat none⟩)
    else .ok (r, { s with fds := fds })
  | .unlink c => do
    let r ← v.posixUnlink c s.fds
    .ok (r, s)

/-- A descriptor is open for the file that the path leads to. -/
def Files.IsOpen (v : Volumes) (path : Cstring) : Prop :=
  ∃ f, v.fileOf path = some f ∧ ∃ n, s.opened n = some f

/-- What a descriptor stands for. -/
inductive Describes (v : Volumes) : Fd → Option (ℕ × Cstring) → Prop
  | free : Describes v .zero none
  | file {i : ℕ} {p q : Cstring} {ops : FilesystemOps} {data : Option ℕ} (h : Mounts v.table i q ops) :
    Describes v ⟨true, 1, some ops.fops, some p, data⟩ (some (i, p))

/-- Between two calls, every entry is free or an open file. -/
structure Files.Inv (s : Files) (v : Volumes) : Prop where
  entries : ∀ n, Describes v (s.fds n) (s.opened n)
  bound : ∀ {n f}, s.opened n = some f → n < v.fdMax

/-- The path does not lose its first slash, and where it leads to a file system: it is not the mount point
itself, the root apart; a file system with full paths is at the root; and no other file system with the same
operations has a file with the same path open. -/
def Files.Apart (v : Volumes) (path : Cstring) : Prop :=
  ((resolve (fullPath v.wd.chars path.chars)).climbs ≠ 1 ∨
    (resolve (fullPath v.wd.chars path.chars)).stack = []) ∧
  ∀ fullpath ∈ normalizedPath v.wd true path, ∀ r ∈ v.found fullpath,
    (fullpath = r.2.1 → r.2.1 = rootPath) ∧ (r.2.2.fullpath = true → r.2.1 = rootPath) ∧
    ∀ n < v.fdMax, ∀ f ∈ s.opened n,
      f.2 = inside r.2.1 fullpath → v.fopsId f.1 = some r.2.2.fops.id → f.1 = r.1

instance (s : Files) (v : Volumes) (path : Cstring) : Decidable (s.Apart v path) := by
  unfold Files.Apart; infer_instance

/-- There is memory and a free descriptor, the path is apart, and the file system itself does not reply
that a file is busy and leaves its operations in the descriptor. -/
def FileAct.Clear : FileAct → Prop
  | .open c => s.Apart v c.path ∧ c.allocated ∧ c.checkAllocated ∧ c.duplicated ∧
      (c.reply ≠ -EBUSY ∧ c.fops = none) ∧ ∃ n < v.fdMax, (s.fds n).refCount ≤ 0
  | .close _ _ => True
  | .unlink c => s.Apart v c.path ∧ c.allocated ∧ c.checkAllocated ∧ c.reply ≠ -EBUSY

instance (v : Volumes) (s : Files) : DecidablePred (FileAct.Clear v s) := fun a => by
  cases a <;> unfold FileAct.Clear <;> infer_instance

/-! ## Whether a file is open -/

section Search

variable {v : Volumes} {s : Files} {path fullpath q : Cstring} {i : ℕ} {ops : FilesystemOps}

theorem Volumes.found_spec (h : v.found fullpath = some (i, q, ops)) :
    Mounts v.table i q ops ∧ Covers q fullpath := by
  obtain ⟨j, hlookup, hentry⟩ := bind_eq_some_iff.mp h
  obtain ⟨e, he, hpath⟩ := bind_eq_some_iff.mp hentry
  obtain ⟨q', hq, hrest⟩ := bind_eq_some_iff.mp hpath
  obtain ⟨ops', hops, heq⟩ := map_eq_some_iff.mp hrest
  obtain ⟨rfl, rfl, rfl⟩ : j = i ∧ q' = q ∧ ops' = ops := by simpa using heq
  have hbest : Best fullpath v.table (lookupFrom fullpath v.table 0 (none, 0)) := by
    apply best_lookup
    intro e he q ops hmounted
    obtain ⟨k, hk⟩ := mounts_of_mem he hmounted
    exact v.canonical hk
  obtain ⟨e', q'', ops'', he', hmounted, hcovers, -⟩ := hbest.found j hlookup
  obtain rfl := some.inj (he.symm.trans he')
  obtain rfl := some.inj (hq.symm.trans hmounted.1)
  exact ⟨⟨e, he, hq, hops⟩, hcovers⟩

theorem Mounts.eq {table : List Filesystem} {q' : Cstring} {ops' : FilesystemOps}
    (h : Mounts table i q ops) (h' : Mounts table i q' ops') : q = q' ∧ ops = ops' := by
  obtain ⟨e, he, hq, hops⟩ := h
  obtain ⟨e', he', hq', hops'⟩ := h'
  obtain rfl := some.inj (he.symm.trans he')
  exact ⟨some.inj (hq.symm.trans hq'), some.inj (hops.symm.trans hops')⟩

theorem Volumes.fopsId_of_mounts (h : Mounts v.table i q ops) : v.fopsId i = some ops.fops.id := by
  obtain ⟨e, he, hq, hops⟩ := h
  simp [fopsId, he, hops]

/-- The scan ends, and finds a descriptor with the operations and the path. -/
theorem Volumes.exists_openScan {l : List Fd} (fops : FileOps) (path : Cstring)
    (hpaths : ∀ d ∈ l, d.fops ≠ none → d.path ≠ none) : ∃ b, openScan fops path l = .ok b ∧
      (b = true ↔ ∃ d ∈ l, ∃ f, d.fops = some f ∧ f.id = fops.id ∧ d.path = some path) := by
  induction l with
  | nil => exact ⟨false, rfl, by simp⟩
  | cons d l ih =>
    obtain ⟨b, hscan, hiff⟩ := ih fun d' hd' => hpaths d' (mem_cons_of_mem _ hd')
    -- What the rest of the scan says is the answer if this entry is another file.
    have hskip : (¬ ∃ f, d.fops = some f ∧ f.id = fops.id ∧ d.path = some path) →
        (b = true ↔ ∃ d' ∈ d :: l, ∃ f, d'.fops = some f ∧ f.id = fops.id ∧ d'.path = some path) := by
      intro hnot
      rw [hiff]
      simp only [mem_cons, exists_eq_or_imp, or_iff_right hnot]
    simp only [openScan]
    cases hfops : d.fops with
    | none => exact ⟨b, hscan, hskip (by simp [hfops])⟩
    | some f =>
      dsimp only
      by_cases hid : f.id = fops.id
      · rw [if_pos hid]
        obtain ⟨p, hp⟩ := ne_none_iff_exists'.mp
          (hpaths d mem_cons_self (by simp [hfops]))
        rw [hp]
        dsimp only
        by_cases hcmp : p = path
        · rw [if_pos (Cstring.strcmp_eq_zero_iff.mpr hcmp)]
          exact ⟨true, rfl, by simpa using .inl ⟨f, hfops, hid, by rw [hp, hcmp]⟩⟩
        · rw [if_neg (mt Cstring.strcmp_eq_zero_iff.mp hcmp)]
          exact ⟨b, hscan, hskip (by simp [hp, hcmp])⟩
      · rw [if_neg hid]
        exact ⟨b, hscan, hskip (by simp [hfops, hid])⟩

theorem mountpath_eq_inside (hcovers : Covers q fullpath) (hfull : Canonical fullpath.chars)
    (hself : fullpath = q → q = rootPath) : mountpath q fullpath = inside q fullpath := by
  apply Cstring.ext
  unfold mountpath inside
  split
  · next hroot =>
    subst hroot
    exact (subPath_root hfull).symm
  · next hroot =>
    have hslash : fullpath.chars[q.chars.length]? = some '/' := by
      rcases hcovers.2 with h | h | h
      · exact absurd h hroot
      · exact absurd (hself h.symm) hroot
      · exact h
    exact (subPath_of_slash hslash).symm

theorem normalizedPath_of_canonical (wd : WorkingDirectory) (h : Canonical fullpath.chars) :
    normalizedPath wd true fullpath = some fullpath := by
  obtain ⟨stack, hproper, hchars⟩ := h
  have hfull : fullPath wd.chars fullpath.chars = fullpath.chars := by
    rw [fullPath, if_pos (by rw [hchars, head?_rendered])]
  have hmap := normalizedPath_map_chars wd fullpath
  rw [hfull, hchars, normalized_eq_canonical (by rw [resolve_rendered hproper]), canonical,
    resolve_rendered hproper, ← hchars] at hmap
  obtain ⟨text, htext, heq⟩ := map_eq_some_iff.mp hmap
  rw [htext, Cstring.ext heq]

theorem Files.Apart.canonical (h : s.Apart v path)
    (hfull : normalizedPath v.wd true path = some fullpath) : Canonical fullpath.chars :=
  ⟨_, proper_resolve _, canonical_of_normalized (normalizedPath_eq_some hfull) h.1⟩

/-- Where the path is apart, `fd_is_open` tells whether the file is open. -/
theorem Files.Inv.exists_fdIsOpen (hinv : s.Inv v) (hapart : s.Apart v path)
    (hfull : normalizedPath v.wd true path = some fullpath) {t : ℕ → Fd}
    (ht : ∀ n, t n = s.fds n ∨ ((t n).fops = none ∧ s.opened n = none)) :
    ∃ b, v.fdIsOpen true fullpath t = .ok b ∧ (b = true ↔ s.IsOpen v path) := by
  have hcanonical := hapart.canonical hfull
  have hfile : v.fileOf path = (v.found fullpath).map fun r => (r.1, inside r.2.1 fullpath) := by
    rw [Volumes.fileOf, hfull, bind_some]
  unfold Volumes.fdIsOpen Files.IsOpen
  rw [normalizedPath_of_canonical v.wd hcanonical]
  dsimp only
  cases hfound : v.found fullpath with
  | none =>
    refine ⟨false, rfl, ?_⟩
    simp [hfile, hfound]
  | some r =>
    obtain ⟨i, q, ops⟩ := r
    obtain ⟨hmounts, hcovers⟩ := Volumes.found_spec hfound
    obtain ⟨hself, -, hother⟩ := hapart.2 fullpath hfull _ hfound
    dsimp only at hself hother ⊢
    rw [mountpath_eq_inside hcovers hcanonical hself]
    -- A descriptor with operations is the one of the state before.
    have hdesc : ∀ n, (t n).fops ≠ none → ∃ i' p' q' ops' data, s.opened n = some (i', p') ∧
        Mounts v.table i' q' ops' ∧ t n = ⟨true, 1, some ops'.fops, some p', data⟩ := by
      intro n hn
      rcases ht n with heq | ⟨hnone, -⟩
      · have hentry := hinv.entries n
        rw [heq] at hn ⊢
        cases hopened : s.opened n with
        | none =>
          rw [hopened] at hentry
          generalize s.fds n = d at hentry hn
          cases hentry
          exact absurd rfl hn
        | some f =>
          rw [hopened] at hentry
          generalize s.fds n = d at hentry hn
          cases hentry with
          | file h => exact ⟨_, _, _, _, _, rfl, h, rfl⟩
      · exact absurd hnone hn
    obtain ⟨b, hscan, hiff⟩ := Volumes.exists_openScan ops.fops (inside q fullpath)
      (l := (range v.fdMax).map t) (by
        intro d hd hfops
        obtain ⟨n, -, rfl⟩ := mem_map.mp hd
        obtain ⟨i', p', q', ops', data, -, -, heq⟩ := hdesc n hfops
        simp [heq])
    refine ⟨b, hscan, hiff.trans ?_⟩
    rw [hfile, hfound]
    constructor
    · rintro ⟨d, hd, f, hfops, hid, hpath⟩
      obtain ⟨n, hn, rfl⟩ := mem_map.mp hd
      obtain ⟨i', p', q', ops', data, hopened, hmounts', heq⟩ := hdesc n (by simp [hfops])
      rw [heq] at hfops hpath
      obtain rfl := some.inj hfops
      obtain rfl := some.inj hpath
      have hsame := hother n (mem_range.mp hn) _ hopened rfl
        ((Volumes.fopsId_of_mounts hmounts').trans (congrArg some hid))
      exact ⟨_, rfl, n, by rw [hopened, ← hsame]⟩
    · rintro ⟨f, hf, n, hopened⟩
      obtain rfl := some.inj hf
      have hentry := hinv.entries n
      rw [hopened] at hentry
      have htn : t n = s.fds n := by
        rcases ht n with heq | ⟨-, hnone⟩
        · exact heq
        · rw [hnone] at hopened
          cases hopened
      refine ⟨t n, mem_map_of_mem (mem_range.mpr (hinv.bound hopened)), ?_⟩
      rw [htn]
      generalize s.fds n = d at hentry
      cases hentry with
      | file hmounts' => exact ⟨_, rfl, by rw [(hmounts'.eq hmounts).2], rfl⟩

end Search

/-! ## The calls -/

section Calls

variable {v : Volumes} {s : Files} {d : ℕ}

theorem Files.Inv.eq_zero (hinv : s.Inv v) (hfree : (s.fds d).refCount ≤ 0) :
    s.fds d = .zero ∧ s.opened d = none := by
  have hentry := hinv.entries d
  generalize s.fds d = fd at hentry hfree
  generalize s.opened d = f at hentry
  cases hentry with
  | free => exact ⟨rfl, rfl⟩
  | file h => exact absurd (show (1 : ℤ) ≤ 0 from hfree) (by decide)

theorem Files.Inv.set (hinv : s.Inv v) {fd : Fd} {f : Option (ℕ × Cstring)}
    (hentry : Describes v fd f) (hbound : f ≠ none → d < v.fdMax) :
    Files.Inv ⟨update s.fds d fd, update s.opened d f⟩ v := by
  constructor
  · intro n
    by_cases hn : n = d
    · subst hn
      simpa using hentry
    · simpa [hn] using hinv.entries n
  · intro n f' hf'
    by_cases hn : n = d
    · subst hn
      apply hbound
      simpa using ne_of_eq_of_ne hf' (some_ne_none f')
    · exact hinv.bound (by simpa [hn] using hf')

variable {c : OpenCall}

/-- An open fails and leaves the table, or the entry describes the file. -/
theorem openIn_cases {fullpath : Cstring} (hapart : s.Apart v c.path) (hfops : c.fops = none)
    (hdup : c.duplicated = true) (hfull : normalizedPath v.wd true c.path = some fullpath)
    {result : ℤ} {t' : ℕ → Fd}
    (h : v.openIn c fullpath d (update s.fds d ⟨true, 2, none, none, none⟩) = (result, t')) :
    (result < 0 ∧ (result = -EBUSY → c.reply = -EBUSY) ∧
        ∃ fd : Fd, t' = update s.fds d fd ∧ fd.refCount = 2) ∨
      (result = 0 ∧ ∃ i p q ops, Mounts v.table i q ops ∧ v.fileOf c.path = some (i, p) ∧
        t' = update s.fds d ⟨true, 2, some ops.fops, some p, c.data⟩) := by
  unfold Volumes.openIn at h
  cases hfound : v.found fullpath with
  | none =>
    rw [hfound] at h
    cases h
    exact .inl ⟨by decide, fun h => absurd h (by decide), _, rfl, rfl⟩
  | some r =>
    obtain ⟨i, q, ops⟩ := r
    obtain ⟨hmounts, hcovers⟩ := Volumes.found_spec hfound
    obtain ⟨-, hroot, -⟩ := hapart.2 fullpath hfull _ hfound
    have hstored : Volumes.storedPath c.duplicated q ops fullpath = some (inside q fullpath) := by
      rw [Volumes.storedPath, hdup]
      split
      · next hflag =>
        -- A file system with full paths is at the root, where the two paths agree.
        obtain rfl : q = rootPath := hroot hflag
        have hinside : inside rootPath fullpath = fullpath :=
          Cstring.ext (subPath_root (hapart.canonical hfull))
        rw [hinside]
      · rfl
    rw [hfound] at h
    simp only [hstored, hfops, getD_none, update_idem, update_self] at h
    split at h
    · cases h
      exact .inl ⟨by decide, fun h => absurd h (by decide), _, rfl, rfl⟩
    · split at h
      · next hneg =>
        cases h
        exact .inl ⟨hneg, fun h => h, _, rfl, rfl⟩
      · cases h
        refine .inr ⟨rfl, i, inside q fullpath, q, ops, hmounts, ?_, rfl⟩
        rw [Volumes.fileOf, hfull, bind_some, hfound, map_some]

/-- `dfs_file_open` returns, and refuses exactly the files that are open. -/
theorem Files.Inv.exists_dfsFileOpen (hinv : s.Inv v) (hclear : (FileAct.open c).Clear v s)
    (hzero : s.fds d = .zero ∧ s.opened d = none) :
    ∃ result t', v.dfsFileOpen c d (update s.fds d ⟨true, 2, none, none, none⟩) = .ok (result, t') ∧
      (result = -EBUSY ↔ s.IsOpen v c.path) ∧
      ((result < 0 ∧ ∃ fd : Fd, t' = update s.fds d fd ∧ fd.refCount = 2) ∨
        (result = 0 ∧ ∃ i p q ops, Mounts v.table i q ops ∧ v.fileOf c.path = some (i, p) ∧
          t' = update s.fds d ⟨true, 2, some ops.fops, some p, c.data⟩)) := by
  obtain ⟨hapart, halloc, hcheck, hdup, ⟨hreply, hfops⟩, -⟩ := hclear
  unfold Volumes.dfsFileOpen
  rw [halloc, hcheck]
  cases hfull : normalizedPath v.wd true c.path with
  | none =>
    refine ⟨_, _, rfl, ?_, .inl ⟨by decide, _, rfl, rfl⟩⟩
    simp [Files.IsOpen, Volumes.fileOf, hfull, ENOMEM, EBUSY]
  | some fullpath =>
    obtain ⟨b, hopen, hiff⟩ := hinv.exists_fdIsOpen hapart hfull
      (t := update s.fds d ⟨true, 2, none, none, none⟩) (by
        intro n
        by_cases hn : n = d
        · subst hn
          exact .inr ⟨by simp, hzero.2⟩
        · exact .inl (by simp [hn]))
    dsimp only
    rw [hopen]
    cases b with
    | true =>
      exact ⟨_, _, rfl, ⟨fun _ => hiff.mp rfl, fun _ => rfl⟩, .inl ⟨by decide, _, rfl, rfl⟩⟩
    | false =>
      have hnot : ¬ s.IsOpen v c.path := fun h => absurd (hiff.mpr h) (by decide)
      refine ⟨_, _, rfl, ?_⟩
      rcases openIn_cases hapart hfops hdup hfull rfl with ⟨hneg, hbusy, hfd⟩ | ⟨hzero, hfd⟩
      · exact ⟨⟨fun h => absurd (hbusy h) hreply, fun h => absurd h hnot⟩, .inl ⟨hneg, hfd⟩⟩
      · refine ⟨⟨fun h => absurd (hzero.symm.trans h) (by decide), fun h => absurd h hnot⟩, ?_⟩
        exact .inr ⟨hzero, hfd⟩

/-- A call of `open` returns, it sets `EBUSY` exactly if the file is open, and it keeps the entries. -/
theorem Files.Inv.exists_open (hinv : s.Inv v) (hclear : (FileAct.open c).Clear v s) :
    ∃ r s', s.exec v (.open c) = .ok (r, s') ∧ s'.Inv v ∧
      (r = ⟨-1, some (-EBUSY)⟩ ↔ s.IsOpen v c.path) := by
  obtain ⟨d, hfree⟩ := exists_freeFd hclear.2.2.2.2.2
  obtain ⟨hlt, hcount⟩ := freeFd_eq_some hfree
  have hzero := hinv.eq_zero hcount
  obtain ⟨result, t', hopen, hbusy, hcases⟩ := hinv.exists_dfsFileOpen hclear hzero
  have hentry : entryOf v.fdMax (update s.fds d ⟨true, 1, none, none, none⟩)
      (d + DFS_FD_OFFSET) = some d := entryOf_eq_some_iff.mpr ⟨rfl, hlt, by simp⟩
  have hnonneg : ¬ ((d : ℤ) + DFS_FD_OFFSET < 0) := by
    unfold DFS_FD_OFFSET
    omega
  have hposix : v.posixOpen c s.fds =
      if result < 0 then .ok (⟨-1, some result⟩, fdPut (fdPut t' d) d)
      else .ok (⟨d + DFS_FD_OFFSET, none⟩, fdPut t' d) := by
    simp only [Volumes.posixOpen, fdNew, hfree, hzero.1, Fd.zero, if_neg hnonneg, fdGet, hentry,
      update_idem, update_self, Fd.get]
    rw [show (1 : ℤ) + 1 = 2 from rfl, hopen]
    rfl
  simp only [Files.exec, hposix]
  rcases hcases with ⟨hneg, fd, rfl, hrefs⟩ | ⟨rfl, i, p, q, ops, hmounts, hfile, rfl⟩
  · -- The two references are dropped, and the entry is free again.
    have hput : fdPut (fdPut (update s.fds d fd) d) d = s.fds := by
      simp only [fdPut, update_idem, update_self, Fd.put, hrefs]
      norm_num
      exact hzero.1.symm
    rw [if_pos hneg, hput]
    refine ⟨_, s, rfl, hinv, ?_⟩
    rw [← hbusy]
    simp
  · rw [if_neg (by decide)]
    have hput : fdPut (update s.fds d ⟨true, 2, some ops.fops, some p, c.data⟩) d =
        update s.fds d ⟨true, 1, some ops.fops, some p, c.data⟩ := by
      simp [fdPut, Fd.put]
    rw [hput]
    have hindex : ((d : ℤ) + DFS_FD_OFFSET - DFS_FD_OFFSET).toNat = d := by omega
    have hexec : (0 : ℤ) ≤ d + DFS_FD_OFFSET := not_lt.mp hnonneg
    refine ⟨⟨d + DFS_FD_OFFSET, none⟩,
      ⟨update s.fds d ⟨true, 1, some ops.fops, some p, c.data⟩,
        update s.opened d (v.fileOf c.path)⟩, ?_, ?_, ?_⟩
    · simp only [bind, Except.bind, hexec, if_true, hindex]
    · rw [hfile]
      exact hinv.set (.file hmounts) fun _ => hlt
    · rw [← hbusy]
      simp [EBUSY]

/-- `close` returns and keeps the invariant, whatever it is given. -/
theorem Files.Inv.exists_close (hinv : s.Inv v) (fd reply : ℤ) :
    ∃ r s', s.exec v (.close fd reply) = .ok (r, s') ∧ s'.Inv v := by
  simp only [Files.exec, Volumes.posixClose, fdGet]
  cases hentry : entryOf v.fdMax s.fds fd with
  | none => exact ⟨_, s, rfl, hinv⟩
  | some d =>
    obtain ⟨rfl, hlt, hmagic⟩ := entryOf_eq_some_iff.mp hentry
    have hdesc := hinv.entries d
    have hindex : ((d : ℤ) + DFS_FD_OFFSET - DFS_FD_OFFSET).toNat = d := by omega
    generalize hfd : s.fds d = e at hdesc hmagic
    generalize s.opened d = f at hdesc
    cases hdesc with
    | free => cases hmagic
    | @file i p q ops data hmounts =>
      simp only [Volumes.dfsFileClose, Fd.get, update_self, hindex, hfd]
      generalize (if ops.fops.hasClose = true then reply else 0) = result
      by_cases hneg : result < 0
      · -- The file system has refused, and the file stays open.
        have hput : fdPut (update s.fds d ⟨true, 1 + 1, some ops.fops, some p, data⟩) d =
            s.fds := by
          simp only [fdPut, update_idem, update_self, Fd.put]
          norm_num
          exact hfd.symm
        refine ⟨⟨-1, some result⟩, s, ?_, hinv⟩
        simp only [bind, Except.bind, hput, hneg, if_true]
        rfl
      · have hput : fdPut (fdPut (update s.fds d ⟨true, 1 + 1, some ops.fops, none, data⟩) d)
            d = update s.fds d .zero := by
          simp [fdPut, Fd.put]
        refine ⟨⟨0, none⟩, ⟨update s.fds d .zero, update s.opened d none⟩, ?_,
          hinv.set .free ?_⟩
        · simp only [bind, Except.bind, update_idem, hput, hneg, if_false]
          rfl
        · exact fun h => absurd rfl h

/-- `unlink` refuses exactly the files that are open. -/
theorem Files.Inv.exists_unlink (hinv : s.Inv v) {c : UnlinkCall}
    (hclear : (FileAct.unlink c).Clear v s) :
    ∃ r, s.exec v (.unlink c) = .ok (r, s) ∧ (r = ⟨-1, some (-EBUSY)⟩ ↔ s.IsOpen v c.path) := by
  obtain ⟨hapart, halloc, hcheck, hreply⟩ := hclear
  have hresult : ∃ result, v.dfsFileUnlink c s.fds = .ok result ∧
      (result = -EBUSY ↔ s.IsOpen v c.path) := by
    unfold Volumes.dfsFileUnlink
    rw [halloc, hcheck]
    cases hfull : normalizedPath v.wd true c.path with
    | none =>
      refine ⟨_, rfl, ?_⟩
      simp [Files.IsOpen, Volumes.fileOf, hfull, EINVAL, EBUSY]
    | some fullpath =>
      dsimp only
      cases hfound : v.found fullpath with
      | none =>
        refine ⟨_, rfl, ?_⟩
        simp [Files.IsOpen, Volumes.fileOf, hfull, hfound, ENOENT, EBUSY]
      | some r =>
        obtain ⟨b, hopen, hiff⟩ := hinv.exists_fdIsOpen hapart hfull fun n => .inl rfl
        rw [hopen]
        cases b with
        | true => exact ⟨_, rfl, ⟨fun _ => hiff.mp rfl, fun _ => rfl⟩⟩
        | false =>
          have hnot : ¬ s.IsOpen v c.path := fun h => absurd (hiff.mpr h) (by decide)
          simp only [bind, Except.bind, Bool.false_eq_true, if_false]
          split
          · exact ⟨_, rfl, ⟨fun h => absurd h hreply, fun h => absurd h hnot⟩⟩
          · exact ⟨_, rfl, ⟨fun h => absurd h (by decide), fun h => absurd h hnot⟩⟩
  obtain ⟨result, hunlink, hbusy⟩ := hresult
  simp only [Files.exec, Volumes.posixUnlink, hunlink]
  -- `unlink` turns a negative result into `errno`.
  by_cases hneg : result < 0
  · refine ⟨⟨-1, some result⟩, ?_, ?_⟩
    · simp only [bind, Except.bind, hneg, if_true]
    · rw [← hbusy]
      simp
  · refine ⟨⟨0, none⟩, ?_, ?_⟩
    · simp only [bind, Except.bind, hneg, if_false]
    · rw [← hbusy]
      unfold EBUSY
      constructor
      · intro h
        cases h
      · intro h
        omega

end Calls

/-! ## Runs -/

/-- Sequences of calls of one thread, from the empty table of descriptors. -/
def fileSystem : System Files FileAct where
  init s := s = ⟨fun _ => .zero, fun _ => none⟩
  step s a s' := ∃ r, s.exec v a = .ok (r, s')

theorem Files.inv_of_reachable {v : Volumes} {s : Files}
    (h : Reachable (fileSystem v) (fun s a => a.Clear v s) s) : s.Inv v := by
  refine h.invariant ?_ ?_
  · rintro s rfl
    exact ⟨fun _ => .free, fun hf => by cases hf⟩
  · rintro s a s' hinv hclear ⟨r, hstep⟩
    cases a with
    | «open» c =>
      obtain ⟨r', s'', hok, hinv', -⟩ := hinv.exists_open hclear
      rw [hok] at hstep
      cases hstep
      exact hinv'
    | close fd reply =>
      obtain ⟨r', s'', hok, hinv'⟩ := hinv.exists_close fd reply
      rw [hok] at hstep
      cases hstep
      exact hinv'
    | unlink c =>
      obtain ⟨r', hok, -⟩ := hinv.exists_unlink hclear
      rw [hok] at hstep
      cases hstep
      exact hinv

/-- In every sequence of calls that are clear, the next one that is clear returns, and if it is an open or
an unlink, then it fails with `EBUSY` exactly if the file is open. -/
theorem dfs_open_exclusive {s : Files}
    (h : Reachable (fileSystem v) (fun s a => a.Clear v s) s) (a : FileAct) (ha : a.Clear v s) :
    ∃ r s', s.exec v a = .ok (r, s') ∧
      ∀ path, a.path? = some path → (r = ⟨-1, some (-EBUSY)⟩ ↔ s.IsOpen v path) := by
  have hinv := Files.inv_of_reachable h
  cases a with
  | «open» c =>
    obtain ⟨r, s', hok, -, hiff⟩ := hinv.exists_open ha
    refine ⟨r, s', hok, ?_⟩
    rintro path hpath
    obtain rfl := some.inj hpath
    exact hiff
  | close fd reply =>
    obtain ⟨r, s', hok, -⟩ := hinv.exists_close fd reply
    refine ⟨r, s', hok, ?_⟩
    rintro path hpath
    cases hpath
  | unlink c =>
    obtain ⟨r, hok, hiff⟩ := hinv.exists_unlink ha
    refine ⟨r, s, hok, ?_⟩
    rintro path hpath
    obtain rfl := some.inj hpath
    exact hiff

/-- Two file systems of one type. -/
def twoVolumes (q q' : Cstring) (h : Canonical q.chars) (h' : Canonical q'.chars) : Volumes where
  table := [⟨some q, some plainOps, none⟩, ⟨some q', some plainOps, none⟩]
  wd := rootDirectory
  fdMax := 4
  canonical := by
    rintro i r ops ⟨e, he, hr, -⟩
    have hmem := mem_of_getElem? he
    simp only [mem_cons, not_mem_nil, or_false] at hmem
    rcases hmem with rfl | rfl
    · exact some.inj hr ▸ h
    · exact some.inj hr ▸ h'

/-- Two file systems of one type, mounted at `/a` and `/b`. -/
def volumesAB : Volumes :=
  twoVolumes ⟨['/', 'a'], by decide⟩ ⟨['/', 'b'], by decide⟩ ⟨[['a']], by decide, rfl⟩
    ⟨[['b']], by decide, rfl⟩

/-- An `open` that there is memory for, and that the file system grants. -/
def openOf (path : Cstring) : FileAct := .open ⟨path, true, true, true, 0, none, none⟩

/-- A file in the first of the two. -/
def fileA : Cstring := ⟨['/', 'a', '/', 'f'], by decide⟩

/-- A file of the same path in the second. -/
def fileB : Cstring := ⟨['/', 'b', '/', 'f'], by decide⟩

/-- The state after a call. -/
def Files.after (a : FileAct) : Option Files :=
  (s.exec v a).toOption.map Prod.snd

theorem step_of_after {v : Volumes} {s s' : Files} {a : FileAct} (h : s.after v a = some s') :
    (fileSystem v).step s a s' := by
  obtain ⟨⟨r, s''⟩, hexec, rfl⟩ := map_eq_some_iff.mp h
  exact ⟨r, ok_of_toOption hexec⟩

/-- `/a/f` is opened a second time, which is refused. -/
theorem dfs_open_exclusive_twice :
    ∃ s, Reachable (fileSystem volumesAB) (fun s a => a.Clear volumesAB s) s ∧
      s.IsOpen volumesAB fileA ∧
      ∃ s', s.exec volumesAB (openOf fileA) = .ok (⟨-1, some (-EBUSY)⟩, s') := by
  have hreach : ∃ s, Reachable (fileSystem volumesAB) (fun s a => a.Clear volumesAB s) s ∧
      (s.opened 0 = volumesAB.fileOf fileA ∧ volumesAB.fileOf fileA ≠ none ∧
        (openOf fileA).Clear volumesAB s) := by
    refine exists_reachable_of_run (f := Files.after volumesAB) rfl
      [openOf fileA] ?_ fun _ _ _ => step_of_after
    decide +kernel
  obtain ⟨s, hs, hopened, hfile, hclear⟩ := hreach
  obtain ⟨f, hf⟩ := ne_none_iff_exists'.mp hfile
  have hopen : s.IsOpen volumesAB fileA := ⟨f, hf, 0, hopened.trans hf⟩
  obtain ⟨r, s', hexec, hiff⟩ := dfs_open_exclusive volumesAB hs (openOf fileA) hclear
  obtain rfl := (hiff fileA rfl).mpr hopen
  exact ⟨s, hs, hopen, s', hexec⟩

/-- With `/a/f` open, `/b/f` is refused as if it were open. -/
theorem busy_by_other_volume :
    ∃ s, Reachable (fileSystem volumesAB) always s ∧ ¬ s.IsOpen volumesAB fileB ∧
      ∃ s', s.exec volumesAB (openOf fileB) = .ok (⟨-1, some (-EBUSY)⟩, s') := by
  have hreach : ∃ s, Reachable (fileSystem volumesAB) (fun s a => a.Clear volumesAB s) s ∧
      ((∀ n < 4, s.opened n = none ∨ s.opened n ≠ volumesAB.fileOf fileB) ∧
        (s.exec volumesAB (openOf fileB)).toOption.map Prod.fst = some ⟨-1, some (-EBUSY)⟩) := by
    refine exists_reachable_of_run (f := Files.after volumesAB) rfl
      [openOf fileA] ?_ fun _ _ _ => step_of_after
    decide +kernel
  obtain ⟨s, hs, hother, hexec⟩ := hreach
  obtain ⟨⟨r, s'⟩, hok, rfl⟩ := map_eq_some_iff.mp hexec
  refine ⟨s, hs.mono fun _ _ _ => trivial, ?_, s', ok_of_toOption hok⟩
  rintro ⟨f, hf, n, hn⟩
  rcases hother n ((Files.inv_of_reachable hs).bound hn) with hnone | hne
  · rw [hnone] at hn
    cases hn
  · exact hne (hn.trans hf.symm)

end RtThread.Dfs
