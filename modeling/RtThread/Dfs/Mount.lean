import RtThread.Dfs.Path
import RtThread.Lib.Cstring

/-!
# Finding the file system of a path

The model of `dfs_filesystem_lookup` in `components/dfs/src/dfs_fs.c`, of `dfs_subdir` in `dfs.c`, and
of the sub-path that `dfs_file_open` makes with it. The table of mounted file systems is a list of any
length; an entry is in use if it has a path and operations. The scan keeps the last entry that is at
least as long as the best one so far (`Best`), so it ends with a longest one.
-/

namespace RtThread.Dfs

open Lib List

/-- `struct dfs_file_ops`, as far as it is looked at. -/
structure FileOps where
  /-- The address. -/
  id : ℕ
  hasOpen : Bool
  hasClose : Bool
  deriving DecidableEq

/-- `struct dfs_filesystem_ops`, as far as it is looked at. -/
structure FilesystemOps where
  name : Cstring
  /-- `DFS_FS_FLAG_FULLPATH` -/
  fullpath : Bool
  fops : FileOps
  hasMount : Bool
  hasUnmount : Bool
  hasUnlink : Bool
  deriving DecidableEq

/-- An entry of the table of mounted file systems. -/
structure Filesystem where
  path : Option Cstring
  ops : Option FilesystemOps
  devId : Option ℕ
  deriving DecidableEq

/-- The path of the root. -/
def rootPath : Cstring := ⟨['/'], by decide⟩

/-- The entry is in use, with the given path and operations. -/
def Filesystem.MountedAt (fs : Filesystem) (path : Cstring) (ops : FilesystemOps) : Prop :=
  fs.path = some path ∧ fs.ops = some ops

/-! ## The source -/

/-- One pass of the scan: the best entry so far and the length of its path. -/
def lookupPass (path : Cstring) (iter : Filesystem) (i : ℕ) (best : Option ℕ × ℕ) : Option ℕ × ℕ :=
  match iter.path, iter.ops with
  | some q, some _ =>
    let fspath := q.chars.length
    if fspath < best.2 ∨ strncmp q.chars path.chars fspath ≠ 0 then best
    -- The next path separator
    else if 1 < fspath ∧ fspath < path.chars.length ∧ path.chars[fspath]? ≠ some '/' then best
    else (some i, fspath)
  | _, _ => best

/-- The scan from the entry with the index `i` on. -/
def lookupFrom (path : Cstring) : List Filesystem → ℕ → Option ℕ × ℕ → Option ℕ × ℕ
  | [], _, best => best
  | iter :: rest, i, best => lookupFrom path rest (i + 1) (lookupPass path iter i best)

variable (table : List Filesystem)

/-- `dfs_filesystem_lookup`: the index of the entry. -/
def dfsFilesystemLookup (path : Cstring) : Option ℕ :=
  (lookupFrom path table 0 (none, 0)).1

/-- `dfs_subdir`: the rest of the file name, or nothing. -/
def dfsSubdir (directory filename : List Char) : Option (List Char) :=
  if directory.length = filename.length then none
  else
    let dir := directory.length
    if filename[dir]? ≠ some '/' ∧ dir ≠ 0 then some (filename.drop (dir - 1))
    else some (filename.drop dir)

/-- The path that `dfs_file_open` gives to a file system without `DFS_FS_FLAG_FULLPATH`. -/
def subPath (directory filename : List Char) : List Char := (dfsSubdir directory filename).getD ['/']

/-! ## The longest path -/

/-- The path begins with `q`, up to the end of a name. -/
def Covers (q path : Cstring) : Prop :=
  q.chars <+: path.chars ∧
    (q = rootPath ∨ q = path ∨ path.chars[q.chars.length]? = some '/')

theorem Canonical.eq_root_or {q : List Char} (h : Canonical q) :
    q = ['/'] ∨ ∃ c l, q = '/' :: c :: l ∧ c ≠ '/' := by
  obtain ⟨stack, hproper, rfl⟩ := h
  cases stack with
  | nil => exact .inl rfl
  | cons n stack =>
    have hn := hproper n mem_cons_self
    obtain ⟨c, l, rfl⟩ := exists_cons_of_ne_nil hn.1
    refine .inr ⟨c, l ++ stack.flatMap ('/' :: ·), by simp [rendered], ?_⟩
    exact isSlash_eq_false_iff.mp (hn.not_isSlash c mem_cons_self)

theorem Canonical.length_le_one_iff {q : List Char} (h : Canonical q) : q.length ≤ 1 ↔ q = ['/'] := by
  rcases h.eq_root_or with rfl | ⟨c, l, rfl, -⟩ <;> simp

theorem covers_iff {q path : Cstring} (hq : Canonical q.chars) :
    Covers q path ↔ strncmp q.chars path.chars q.chars.length = 0 ∧
      ¬ (1 < q.chars.length ∧ q.chars.length < path.chars.length ∧
        path.chars[q.chars.length]? ≠ some '/') := by
  have hroot : q.chars.length ≤ 1 ↔ q = rootPath := by
    rw [hq.length_le_one_iff]
    exact ⟨fun h => Cstring.ext h, congrArg Cstring.chars⟩
  rw [Covers, strncmp_length_left q.zero_notMem path.zero_notMem]
  refine and_congr_right fun hbegins => ?_
  have hwhole : path.chars.length ≤ q.chars.length ↔ q = path := by
    constructor
    · intro hle
      exact Cstring.ext (hbegins.eq_of_length_le hle)
    · rintro rfl
      exact le_rfl
  rw [← hroot, ← hwhole]
  constructor
  · rintro (h | h | h) ⟨hlong, hlt, hne⟩
    · omega
    · omega
    · exact hne h
  · intro h
    by_contra hnot
    simp only [not_or, not_le] at hnot
    exact h ⟨hnot.1, hnot.2.1, hnot.2.2⟩

section Lookup

variable {path : Cstring} {seen rest : List Filesystem} {best : Option ℕ × ℕ}

/-- The result of a scan through the entries `seen`. -/
structure Best (path : Cstring) (seen : List Filesystem) (best : Option ℕ × ℕ) : Prop where
  missing : best.1 = none → best.2 = 0 ∧ ∀ e ∈ seen, ∀ q ops, e.MountedAt q ops → ¬ Covers q path
  found : ∀ i, best.1 = some i → ∃ e q ops, seen[i]? = some e ∧ e.MountedAt q ops ∧ Covers q path ∧
    best.2 = q.chars.length
  le : ∀ e ∈ seen, ∀ q ops, e.MountedAt q ops → Covers q path → q.chars.length ≤ best.2

theorem Best.skip {iter : Filesystem} (h : Best path seen best)
    (hskip : ∀ q ops, iter.MountedAt q ops → Covers q path → best.1 ≠ none ∧ q.chars.length ≤ best.2) :
    Best path (seen ++ [iter]) best := by
  constructor
  · intro hnone
    refine ⟨(h.missing hnone).1, fun e he q ops hmounted hcovers => ?_⟩
    rcases List.mem_append.mp he with he | he
    · exact (h.missing hnone).2 e he q ops hmounted hcovers
    · rw [mem_singleton.mp he] at hmounted
      exact (hskip q ops hmounted hcovers).1 hnone
  · intro i hi
    obtain ⟨e, q, ops, he, hrest⟩ := h.found i hi
    exact ⟨e, q, ops, by rw [List.getElem?_append_left (List.getElem?_eq_some_iff.mp he).1, he], hrest⟩
  · intro e he q ops hmounted hcovers
    rcases List.mem_append.mp he with he | he
    · exact h.le e he q ops hmounted hcovers
    · rw [mem_singleton.mp he] at hmounted
      exact (hskip q ops hmounted hcovers).2

/-- One pass keeps the longest mounted path so far. -/
theorem Best.pass {iter : Filesystem} (h : Best path seen best)
    (hcanonical : ∀ q ops, iter.MountedAt q ops → Canonical q.chars) :
    Best path (seen ++ [iter]) (lookupPass path iter seen.length best) := by
  unfold lookupPass
  split
  swap
  · next hunused =>
    -- The entry is not in use.
    apply h.skip
    rintro q ops ⟨hq, hops⟩ -
    exact absurd hops (hunused q ops hq)
  next q ops hq hops =>
  have hcovers_iff : Covers q path ↔ _ := covers_iff (hcanonical q ops ⟨hq, hops⟩)
  have hunique : ∀ {q' ops'}, iter.MountedAt q' ops' → q' = q := by
    rintro q' ops' ⟨hq', -⟩
    exact Option.some.inj (hq'.symm.trans hq)
  dsimp only
  by_cases hshort : q.chars.length < best.2
  · rw [if_pos (.inl hshort)]
    apply h.skip
    intro q' ops' hmounted _
    obtain rfl := hunique hmounted
    refine ⟨fun hnone => ?_, hshort.le⟩
    have := (h.missing hnone).1
    omega
  by_cases hcovers : Covers q path
  · obtain ⟨hcmp, hboundary⟩ := hcovers_iff.mp hcovers
    rw [if_neg (by simp [hshort, hcmp]), if_neg hboundary]
    constructor
    · intro hnone
      cases hnone
    · intro i hi
      obtain rfl := Option.some.inj hi
      exact ⟨iter, q, ops, by simp, ⟨hq, hops⟩, hcovers, rfl⟩
    · intro e he q' ops' hmounted hcovers'
      rcases List.mem_append.mp he with he | he
      · exact (h.le e he q' ops' hmounted hcovers').trans (not_lt.mp hshort)
      · rw [mem_singleton.mp he] at hmounted
        rw [hunique hmounted]
  · have hskipped : Best path (seen ++ [iter]) best := by
      apply h.skip
      intro q' ops' hmounted hcovers'
      rw [hunique hmounted] at hcovers'
      exact absurd hcovers' hcovers
    split
    · exact hskipped
    · next hcmp =>
      split
      · exact hskipped
      · next hboundary =>
        simp only [not_or, not_not] at hcmp
        exact absurd (hcovers_iff.mpr ⟨hcmp.2, hboundary⟩) hcovers

theorem Best.from (h : Best path seen best)
    (hcanonical : ∀ e ∈ rest, ∀ q ops, e.MountedAt q ops → Canonical q.chars) :
    Best path (seen ++ rest) (lookupFrom path rest seen.length best) := by
  induction rest generalizing seen best with
  | nil =>
    rw [append_nil]
    exact h
  | cons iter rest ih =>
    have hpass := h.pass (hcanonical iter mem_cons_self)
    have := ih hpass fun e he => hcanonical e (mem_cons_of_mem _ he)
    rwa [append_assoc, singleton_append, length_append, length_singleton] at this

theorem best_lookup {table : List Filesystem}
    (hcanonical : ∀ e ∈ table, ∀ q ops, e.MountedAt q ops → Canonical q.chars) :
    Best path table (lookupFrom path table 0 (none, 0)) := by
  have hstart : Best path [] (none, 0) :=
    { missing := fun _ => ⟨rfl, by simp⟩
      found := fun i hi => by cases hi
      le := by simp }
  exact hstart.from hcanonical

end Lookup

/-! ## The rest of a path -/

theorem subPath_of_slash {q path : List Char} (hslash : path[q.length]? = some '/') :
    subPath q path = path.drop q.length := by
  have hlt := (List.getElem?_eq_some_iff.mp hslash).1
  simp [subPath, dfsSubdir, hslash, hlt.ne]

theorem subPath_root {path : List Char} (hpath : Canonical path) : subPath ['/'] path = path := by
  rcases hpath.eq_root_or with rfl | ⟨c, l, rfl, hc⟩
  · rfl
  · simp [subPath, dfsSubdir, hc]

theorem subPath_self (path : List Char) : subPath path path = ['/'] := by
  simp [subPath, dfsSubdir]

/-- A path that a file system with the path `q` is found for is the path of the file system and the rest,
the root counting as empty. A directory other than the root with a file system of its own has the rest
`/`. -/
theorem append_subPath {q path : Cstring} (hpath : Canonical path.chars) (hcovers : Covers q path) :
    if q = path ∧ q ≠ rootPath then subPath q.chars path.chars = ['/']
    else (if q = rootPath then [] else q.chars) ++ subPath q.chars path.chars = path.chars := by
  obtain ⟨hbegins, hboundary⟩ := hcovers
  by_cases hroot : q = rootPath
  · rw [if_neg (by simp [hroot]), if_pos hroot, hroot]
    exact subPath_root hpath
  by_cases hself : q = path
  · rw [if_pos ⟨hself, hroot⟩, hself]
    exact subPath_self path.chars
  · have hslash : path.chars[q.chars.length]? = some '/' := by
      rcases hboundary with h | h | h
      · exact absurd h hroot
      · exact absurd h hself
      · exact h
    rw [if_neg (by simp [hself]), if_neg hroot, subPath_of_slash hslash]
    calc q.chars ++ path.chars.drop q.chars.length
        = path.chars.take q.chars.length ++ path.chars.drop q.chars.length := by
          rw [← prefix_iff_eq_take.mp hbegins]
      _ = path.chars := take_append_drop _ _

/-! ## The whole resolution -/

/-- The entry with the index `i` is in use, with the given path and operations. -/
def Mounts (i : ℕ) (q : Cstring) (ops : FilesystemOps) : Prop :=
  ∃ e, table[i]? = some e ∧ e.MountedAt q ops

/-- The entries in use have canonical paths, and no path twice. -/
structure WellMounted (table : List Filesystem) : Prop where
  canonical : ∀ {i q ops}, Mounts table i q ops → Canonical q.chars
  unique : ∀ {i j q ops ops'}, Mounts table i q ops → Mounts table j q ops' → i = j

theorem mounts_of_mem {table : List Filesystem} {e : Filesystem} {q : Cstring} {ops : FilesystemOps}
    (he : e ∈ table) (hmounted : e.MountedAt q ops) : ∃ i, Mounts table i q ops := by
  obtain ⟨i, hi⟩ := mem_iff_getElem?.mp he
  exact ⟨i, e, hi, hmounted⟩

theorem Covers.eq_of_length_eq {q q' path : Cstring} (h : Covers q path) (h' : Covers q' path)
    (hlength : q.chars.length = q'.chars.length) : q = q' := by
  apply Cstring.ext
  rw [prefix_iff_eq_take.mp h.1, prefix_iff_eq_take.mp h'.1, hlength]

/-- For every table of distinct canonical paths, the entry of a canonical path is the one with the longest
path that covers it, and the path of that entry with the sub-path is the path again. For the path of an
entry itself, the root apart, the sub-path is `/`. -/
theorem dfs_mount_resolution (path : Cstring) (htable : WellMounted table)
    (hpath : Canonical path.chars) :
    (dfsFilesystemLookup table path = none ↔ ∀ i q ops, Mounts table i q ops → ¬ Covers q path) ∧
    ∀ i, dfsFilesystemLookup table path = some i → ∃ q ops, Mounts table i q ops ∧ Covers q path ∧
      (∀ j q' ops', Mounts table j q' ops' → Covers q' path → j ≠ i →
        q'.chars.length < q.chars.length) ∧
      if q = path ∧ q ≠ rootPath then subPath q.chars path.chars = ['/']
      else (if q = rootPath then [] else q.chars) ++ subPath q.chars path.chars = path.chars := by
  have hbest : Best path table (lookupFrom path table 0 (none, 0)) := by
    apply best_lookup
    intro e he q ops hmounted
    obtain ⟨i, hi⟩ := mounts_of_mem he hmounted
    exact htable.canonical hi
  constructor
  · constructor
    · rintro hnone i q ops ⟨e, he, hmounted⟩
      exact (hbest.missing hnone).2 e (mem_of_getElem? he) q ops hmounted
    · intro hnot
      by_contra hne
      obtain ⟨i, hi⟩ := Option.ne_none_iff_exists'.mp hne
      obtain ⟨e, q, ops, he, hmounted, hcovers, -⟩ := hbest.found i hi
      exact hnot i q ops ⟨e, he, hmounted⟩ hcovers
  · intro i hi
    obtain ⟨e, q, ops, he, hmounted, hcovers, hlength⟩ := hbest.found i hi
    refine ⟨q, ops, ⟨e, he, hmounted⟩, hcovers, ?_, append_subPath hpath hcovers⟩
    rintro j q' ops' ⟨e', he', hmounted'⟩ hcovers' hji
    have hle := hbest.le e' (mem_of_getElem? he') q' ops' hmounted' hcovers'
    rw [hlength] at hle
    apply lt_of_le_of_ne hle
    intro heq
    obtain rfl := hcovers'.eq_of_length_eq hcovers heq
    exact hji (htable.unique ⟨e', he', hmounted'⟩ ⟨e, he, hmounted⟩)

/-- A file system with all operations that are looked at. -/
def plainOps : FilesystemOps :=
  { name := ⟨['f', 's'], by decide⟩, fullpath := false, fops := ⟨1, true, true⟩, hasMount := true,
    hasUnmount := true, hasUnlink := true }

/-- A file system that is mounted at `/m`. -/
def mountedAtM : Filesystem :=
  { path := some ⟨['/', 'm'], by decide⟩, ops := some plainOps, devId := none }

theorem wellMounted_mountedAtM : WellMounted [mountedAtM] := by
  have heq : ∀ {i q ops}, Mounts [mountedAtM] i q ops → i = 0 ∧ q.chars = ['/', 'm'] := by
    rintro i q ops ⟨e, he, hq, -⟩
    obtain ⟨hi, rfl⟩ := List.getElem?_eq_some_iff.mp he
    have hzero : i = 0 := by simpa using hi
    subst hzero
    obtain rfl := Option.some.inj hq
    exact ⟨rfl, rfl⟩
  constructor
  · intro i q ops h
    exact ⟨[['m']], by decide, (heq h).2⟩
  · intro i j q ops ops' h h'
    rw [(heq h).1, (heq h').1]

/-- The file `/m/f` of the file system at `/m`. -/
theorem dfs_mount_resolution_below : WellMounted [mountedAtM] ∧
      dfsFilesystemLookup [mountedAtM] ⟨['/', 'm', '/', 'f'], by decide⟩ = some 0 ∧
      ∃ q ops, Mounts [mountedAtM] 0 q ops ∧ Covers q ⟨['/', 'm', '/', 'f'], by decide⟩ := by
  have hfound : dfsFilesystemLookup [mountedAtM] ⟨['/', 'm', '/', 'f'], by decide⟩ = some 0 := by
    decide
  obtain ⟨q, ops, hmounts, hcovers, -⟩ := (dfs_mount_resolution [mountedAtM]
    ⟨['/', 'm', '/', 'f'], by decide⟩ wellMounted_mountedAtM
    ⟨[['m'], ['f']], by decide, rfl⟩).2 0 hfound
  exact ⟨wellMounted_mountedAtM, hfound, q, ops, hmounts, hcovers⟩

/-- The path `/m` itself has the sub-path `/`, and `/m` with `/` is another text. -/
theorem mount_point_gains_slash : WellMounted [mountedAtM] ∧ Canonical ['/', 'm'] ∧
      dfsFilesystemLookup [mountedAtM] ⟨['/', 'm'], by decide⟩ = some 0 ∧
      Mounts [mountedAtM] 0 ⟨['/', 'm'], by decide⟩ plainOps ∧
      ['/', 'm'] ++ subPath ['/', 'm'] ['/', 'm'] ≠ ['/', 'm'] :=
  ⟨wellMounted_mountedAtM, ⟨[['m']], by decide, rfl⟩, by decide, ⟨mountedAtM, rfl, rfl, rfl⟩,
    by decide⟩

end RtThread.Dfs
