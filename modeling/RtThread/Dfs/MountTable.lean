import RtThread.Dfs.Mount
import RtThread.Dfs.NormalizeText
import RtThread.Lib.Run

/-!
# Mounting and unmounting

The model of `dfs_mount` and `dfs_unmount` in `components/dfs/src/dfs_fs.c`. What the rest of the system
replies is given with the call. A `NULL` path of an entry in use is not dereferenced: that an entry is
either in use as a whole or all zero is proved (`Tidy`).

`dfs_unmount` looks for the normalised path, but `dfs_mount` looks for the path as it is spelled. So the
table keeps distinct paths if a path that is mounted already is spelled as it is in the table
(`MountAct.Spelled`).
-/

namespace RtThread.Dfs

open Lib List Option

/-! ## Normalised strings -/

/-- `working_directory`, which begins with a slash. -/
structure WorkingDirectory extends Cstring where
  absolute : chars.head? = some '/'

variable (wd : WorkingDirectory) (path : Cstring)

theorem nul_notMem_fullPath : '\x00' ∉ fullPath wd.chars path.chars := by
  unfold fullPath
  split
  · exact path.zero_notMem
  · simp [wd.zero_notMem, path.zero_notMem]

theorem nul_notMem_resolve {path : List Char} (h : '\x00' ∉ path) :
    ∀ n ∈ (resolve path).stack, '\x00' ∉ n := by
  intro n hn hnul
  rcases Walk.mem_stack_foldl hn with hroot | hname
  · cases hroot
  · exact h ((mem_fields hname).2.2 _ hnul)

theorem nul_notMem_rendered {stack : List (List Char)} (h : ∀ n ∈ stack, '\x00' ∉ n) :
    '\x00' ∉ rendered stack := by
  unfold rendered
  split
  · decide
  · rw [mem_flatMap]
    rintro ⟨n, hn, hnul⟩
    rcases mem_cons.mp hnul with hslash | hnul
    · exact absurd hslash (by decide)
    · exact h n hn hnul

theorem nul_notMem_rootless {stack : List (List Char)} (h : ∀ n ∈ stack, '\x00' ∉ n) :
    '\x00' ∉ rootless stack := by
  unfold rootless
  split
  · decide
  · intro hnul
    obtain ⟨n, hn, hmem⟩ := mem_flatMap.mp (dropLast_subset _ hnul)
    rcases mem_append.mp hmem with hmem | hslash
    · exact h n hn hmem
    · exact absurd (mem_singleton.mp hslash) (by decide)

theorem nul_notMem_normalized {path : List Char} (h : '\x00' ∉ path) :
    ∀ text ∈ normalized path, '\x00' ∉ text := by
  intro text htext
  unfold normalized at htext
  split at htext
  · obtain rfl := some.inj htext
    exact nul_notMem_rendered (nul_notMem_resolve h)
  · obtain rfl := some.inj htext
    exact nul_notMem_rootless (nul_notMem_resolve h)
  · cases htext

/-- The text that `dfs_normalize_path` returns, if there is memory for it. -/
def normalizedPath (allocated : Bool) (path : Cstring) : Option Cstring :=
  if allocated then
    (normalized (fullPath wd.chars path.chars)).pmap Cstring.mk
      (nul_notMem_normalized (nul_notMem_fullPath wd path))
  else none

theorem normalizedPath_map_chars :
    (normalizedPath wd true path).map Cstring.chars = normalized (fullPath wd.chars path.chars) := by
  have hpmap : ∀ (x : Option (List Char)) (hx : ∀ t ∈ x, '\x00' ∉ t),
      (x.pmap Cstring.mk hx).map Cstring.chars = x := by
    intro x hx
    cases x <;> rfl
  exact hpmap _ _

theorem normalizedPath_eq_some {wd : WorkingDirectory} {allocated : Bool} {path text : Cstring}
    (h : normalizedPath wd allocated path = some text) :
    normalized (fullPath wd.chars path.chars) = some text.chars := by
  cases allocated with
  | false => cases h
  | true => rw [← normalizedPath_map_chars, h, map_some]

/-- A call of `dfs_normalize_path` returns this text, in a block at any address. -/
theorem exists_normalizedPath (m : ℕ → Char) {alloc : Option ℕ}
    (halloc : ∀ p ∈ alloc, 0 < p) :
    ∀ fuel > (fullPath wd.chars path.chars).length, ∃ r m',
      dfsNormalizePath fuel wd.chars m alloc none path.chars = .ok (r, m') ∧
        match normalizedPath wd alloc.isSome path with
        | none => r = none
        | some text => r = alloc ∧ ∃ p ∈ alloc, StringAt '\x00' m' p text.chars := by
  intro fuel hfuel
  cases alloc with
  | none => exact ⟨none, m, rfl, rfl⟩
  | some p =>
    have habs : path.chars.head? = some '/' ∨ ((none : Option (List Char)).getD wd.chars).head? =
        some '/' := .inr wd.absolute
    obtain ⟨r, m', hok, hresult⟩ := exists_dfsNormalizePath m (halloc p rfl) habs
      (nul_notMem_fullPath wd path) fuel hfuel
    refine ⟨r, m', hok, ?_⟩
    rw [getD_none, ← normalizedPath_map_chars] at hresult
    rw [isSome_some]
    cases hnormalized : normalizedPath wd true path with
    | none =>
      rw [hnormalized] at hresult
      exact hresult
    | some text =>
      rw [hnormalized] at hresult
      exact ⟨hresult.1, p, rfl, hresult.2⟩

/-- The path `dev/.` in the root directory: the string written at the address given is `/dev`. -/
theorem exists_normalizedPath_dev : ∃ m', dfsNormalizePath 9 ['/'] (fun _ => 'x') (some 1) none
    ['d', 'e', 'v', '/', '.'] = .ok (some 1, m') ∧ StringAt '\x00' m' 1 ['/', 'd', 'e', 'v'] := by
  obtain ⟨r, m', hok, htext⟩ := exists_normalizedPath { rootPath with absolute := rfl }
    ⟨['d', 'e', 'v', '/', '.'], by decide⟩ (fun _ => 'x') (show ∀ p ∈ some 1, 0 < p by simp) 9 (by decide)
  have hnormalized : normalizedPath { rootPath with absolute := rfl } true ⟨['d', 'e', 'v', '/', '.'], by decide⟩ =
      some ⟨['/', 'd', 'e', 'v'], by decide⟩ := by
    decide +kernel
  rw [isSome_some, hnormalized] at htext
  obtain ⟨rfl, p, hp, hstring⟩ := htext
  cases hp
  exact ⟨m', hok, hstring⟩

/-! ## The source -/

/-- The error numbers that the two functions set. -/
inductive Errno
  | nodev
  | nosys
  | notdir
  | inval
  | nospc
  deriving DecidableEq

/-- What a call returns, and the error number that it sets. -/
structure Outcome where
  result : ℤ
  errno : Option Errno
  deriving DecidableEq

/-- A call of `dfs_mount`, and what it is replied. -/
structure MountCall where
  /-- No name, or what `rt_device_find` finds for it. -/
  device : Option (Option ℕ)
  path : Cstring
  filesystemtype : Cstring
  allocated : Bool
  /-- `dfs_file_open` of the directory. -/
  directory : ℤ
  /-- `rt_device_open` -/
  deviceOpen : ℤ
  /-- The operation `mount`. -/
  mount : ℤ

/-- A call of `dfs_unmount`, and what it is replied. -/
structure UnmountCall where
  specialfile : Cstring
  allocated : Bool
  /-- The operation `unmount`. -/
  unmount : ℤ

/-- An entry that is not in use. -/
def zeroFilesystem : Filesystem := { path := none, ops := none, devId := none }

variable (operations : List (Option FilesystemOps))

/-- The registered file system of the given name. -/
def findOps (filesystemtype : Cstring) :
    Option FilesystemOps :=
  operations.findSome? fun ops =>
    ops.filter fun ops => strcmp ops.name.chars filesystemtype.chars = 0

/-- The scan of `dfs_mount`: nothing if the path is found, and otherwise the first empty entry. -/
def mountScan (path : Cstring) : List Filesystem → ℕ → Option ℕ → Except Fault (Option (Option ℕ))
  | [], _, fs => .ok (some fs)
  | iter :: rest, i, fs =>
    match iter.ops, iter.path with
    | none, _ => mountScan path rest (i + 1) (fs <|> some i)
    | some _, none => .error .wild
    | some _, some q =>
      if strcmp q.chars path.chars = 0 then .ok none else mountScan path rest (i + 1) fs

/-- A call that fails returns -1, sets the error, and leaves the table. -/
def refused (errno : Option Errno) (table : List Filesystem) : Except Fault (Outcome × List Filesystem) :=
  .ok (⟨-1, errno⟩, table)

/-- `dfs_mount` from the registration on. -/
def register (c : MountCall) (ops : FilesystemOps) (fullpath : Cstring) (fs : ℕ)
    (table : List Filesystem) : Except Fault (Outcome × List Filesystem) :=
  let devId := c.device.join
  let table := table.set fs { path := some fullpath, ops := some ops, devId := devId }
  if devId ≠ none ∧ c.deviceOpen ≠ 0 then refused none (table.set fs zeroFilesystem)
  else if c.mount < 0 then refused none (table.set fs zeroFilesystem)
  else .ok (⟨0, none⟩, table)

/-- `dfs_mount` from the scan of the table on. -/
def mountAt (c : MountCall) (ops : FilesystemOps) (fullpath : Cstring) (table : List Filesystem) :
    Except Fault (Outcome × List Filesystem) := do
  match ← mountScan c.path table 0 none with
  | none => refused (some .inval) table
  | some none => refused (some .nospc) table
  | some (some fs) => register c ops fullpath fs table

/-- The path of the device file system, which is mounted without its directory. -/
def devPath : Cstring := ⟨['/', 'd', 'e', 'v'], by decide⟩

variable (wd : WorkingDirectory)

/-- `dfs_mount`: the file system, the device and the directory are looked up, and an entry is
filled. -/
def dfsMount (c : MountCall)
    (table : List Filesystem) : Except Fault (Outcome × List Filesystem) :=
  if c.device = some none then refused (some .nodev) table
  else
    match findOps operations c.filesystemtype with
    | none => refused (some .nodev) table
    | some ops =>
      if ops.hasMount = false then refused (some .nosys) table
      else
        match normalizedPath wd c.allocated c.path with
        | none => refused (some .notdir) table
        | some fullpath =>
          if strcmp fullpath.chars rootPath.chars ≠ 0 ∧ strcmp fullpath.chars devPath.chars ≠ 0 ∧
              c.directory < 0 then
            refused (some .notdir) table
          else mountAt c ops fullpath table

/-- The entry whose path is the normalised one. -/
def unmountScan (fullpath : Cstring) (table : List Filesystem) : Option ℕ :=
  table.findIdx? fun iter => iter.path.any fun q => strcmp q.chars fullpath.chars = 0

/-- `dfs_unmount`: the entry is found by its normalised path, and cleared. -/
def dfsUnmount (c : UnmountCall) (table : List Filesystem) :
    Except Fault (Outcome × List Filesystem) :=
  match normalizedPath wd c.allocated c.specialfile with
  | none => refused (some .notdir) table
  | some fullpath =>
    match unmountScan fullpath table with
    | none => refused none table
    | some fs =>
      match (table[fs]?.bind Filesystem.ops) with
      | none => .error .wild
      | some ops =>
        if ops.hasUnmount = false ∨ c.unmount < 0 then refused none table
        else .ok (⟨0, none⟩, table.set fs zeroFilesystem)

/-! ## What the calls do -/

variable (table : List Filesystem)

/-- Every entry is all zero or in use as a whole. -/
def Tidy : Prop :=
  ∀ e ∈ table, e = zeroFilesystem ∨ ∃ q ops, e.MountedAt q ops

variable {ops : FilesystemOps}

theorem not_mountedAt_zero {q : Cstring} : ¬ zeroFilesystem.MountedAt q ops := by
  rintro ⟨hq, -⟩
  cases hq

section Calls

variable {table : List Filesystem}

variable {e : Filesystem}

theorem Tidy.set (h : Tidy table) (he : e = zeroFilesystem ∨ ∃ q ops, e.MountedAt q ops)
    (i : ℕ) : Tidy (table.set i e) := by
  intro e' he'
  rcases mem_or_eq_of_mem_set he' with hmem | rfl
  · exact h e' hmem
  · exact he

theorem set_set_zero {i : ℕ} (h : table[i]? = some zeroFilesystem) :
    (table.set i e).set i zeroFilesystem = table := by
  rw [set_set]
  obtain ⟨hlt, hzero⟩ := List.getElem?_eq_some_iff.mp h
  rw [← hzero, List.set_getElem_self]

/-- On a tidy table the scan ends with a free entry, or refuses a path that is mounted. -/
theorem exists_mountScan (htidy : Tidy table) (path : Cstring) (i : ℕ) (fs : Option ℕ) :
    ∃ r, mountScan path table i fs = .ok r ∧ ∀ r', r = some r' →
      (∀ e ∈ table, ∀ q ops, e.MountedAt q ops → q ≠ path) ∧
      ∀ k, r' = some k → fs = some k ∨ ∃ j, k = i + j ∧ table[j]? = some zeroFilesystem := by
  induction table generalizing i fs with
  | nil =>
    refine ⟨some fs, rfl, fun r' hr => ⟨by simp, fun k hk => .inl ?_⟩⟩
    rw [some.inj hr, hk]
  | cons iter rest ih =>
    have hrest : Tidy rest := fun e he => htidy e (mem_cons_of_mem _ he)
    rcases htidy iter mem_cons_self with rfl | ⟨q, ops, hq, hops⟩
    · -- An empty entry, which is taken if it is the first.
      obtain ⟨r, hscan, hspec⟩ := ih hrest (i + 1) (fs <|> some i)
      refine ⟨r, hscan, fun r' hr => ⟨?_, fun k hk => ?_⟩⟩
      · intro e he q ops hmounted
        rcases mem_cons.mp he with rfl | he
        · exact absurd hmounted not_mountedAt_zero
        · exact (hspec r' hr).1 e he q ops hmounted
      · rcases (hspec r' hr).2 k hk with hfs | ⟨j, rfl, hj⟩
        · cases fs with
          | none => exact .inr ⟨0, by simpa using hfs.symm, rfl⟩
          | some k' => exact .inl hfs
        · exact .inr ⟨j + 1, by omega, hj⟩
    · -- An entry in use.
      simp only [mountScan, hq, hops]
      split
      · exact ⟨none, rfl, fun r' hr => (nomatch hr)⟩
      · next hcmp =>
        obtain ⟨r, hscan, hspec⟩ := ih hrest (i + 1) fs
        refine ⟨r, hscan, fun r' hr => ⟨?_, fun k hk => ?_⟩⟩
        · intro e he q' ops' hmounted
          rcases mem_cons.mp he with rfl | he
          · obtain rfl : q = q' := some.inj (hq.symm.trans hmounted.1)
            rintro rfl
            exact hcmp (Cstring.strcmp_eq_zero_iff.mpr rfl)
          · exact (hspec r' hr).1 e he q' ops' hmounted
        · rcases (hspec r' hr).2 k hk with hfs | ⟨j, rfl, hj⟩
          · exact .inl hfs
          · exact .inr ⟨j + 1, by omega, hj⟩

/-- What a call has done: it has returned -1 and left the table, or it has returned 0 and changed one
entry. -/
structure Effect (out : Outcome) (table table' : List Filesystem) (ok : ℕ → Filesystem → Prop) : Prop where
  result : out.result = 0 ∨ out.result = -1
  unchanged : out.result = -1 → table' = table
  changed : out.result = 0 → ∃ i e, ok i e ∧ table' = table.set i e

/-- The entries that `dfs_mount` makes. -/
def Fills (c : MountCall) (table : List Filesystem) (i : ℕ) (e : Filesystem) :
    Prop :=
  table[i]? = some zeroFilesystem ∧ (∀ e' ∈ table, ∀ q ops, e'.MountedAt q ops → q ≠ c.path) ∧
    ∃ fullpath ops, normalizedPath wd c.allocated c.path = some fullpath ∧ e.MountedAt fullpath ops

theorem effect_refused {ok : ℕ → Filesystem → Prop} (errno : Option Errno) :
    ∃ out table', refused errno table = .ok (out, table') ∧ Effect out table table' ok :=
  ⟨_, _, rfl, .inr rfl, fun _ => rfl, fun (h : (-1 : ℤ) = 0) => absurd h (by decide)⟩

/-- On a tidy table `dfs_mount` returns, and fills one entry or leaves the table. -/
theorem exists_dfsMount (htidy : Tidy table) (operations : List (Option FilesystemOps))
    (wd : WorkingDirectory) (c : MountCall) :
    ∃ out table', dfsMount operations wd c table = .ok (out, table') ∧
      Effect out table table' (Fills wd c table) := by
  unfold dfsMount
  split
  · exact effect_refused _
  split
  · exact effect_refused _
  next ops hops =>
  split
  · exact effect_refused _
  split
  · exact effect_refused _
  next fullpath hfullpath =>
  split
  · exact effect_refused _
  obtain ⟨r, hscan, hspec⟩ := exists_mountScan htidy c.path 0 none
  simp only [mountAt, hscan]
  cases r with
  | none => exact effect_refused _
  | some r =>
    cases r with
    | none => exact effect_refused _
    | some fs =>
      obtain ⟨hspelled, hfs⟩ := hspec (some fs) rfl
      have hzero : table[fs]? = some zeroFilesystem := by
        rcases hfs fs rfl with hnone | ⟨j, rfl, hzero⟩
        · cases hnone
        · rwa [Nat.zero_add]
      show ∃ out table', register c ops fullpath fs table = .ok (out, table') ∧ _
      unfold register
      dsimp only
      rw [set_set_zero hzero]
      split
      · exact effect_refused _
      split
      · exact effect_refused _
      refine ⟨_, _, rfl, .inl rfl, fun h => absurd h (by decide), fun _ => ⟨fs, _, ?_, rfl⟩⟩
      exact ⟨hzero, hspelled, fullpath, ops, hfullpath, rfl, rfl⟩

theorem exists_dfsUnmount (htidy : Tidy table) (wd : WorkingDirectory) (c : UnmountCall) :
    ∃ out table', dfsUnmount wd c table = .ok (out, table') ∧
      Effect out table table' fun _ e => e = zeroFilesystem := by
  unfold dfsUnmount
  split
  · exact effect_refused _
  split
  · exact effect_refused _
  next fullpath _ fs hfs =>
  obtain ⟨hlt, hpath, -⟩ := findIdx?_eq_some_iff_getElem.mp hfs
  have hops : ∃ ops, table[fs]?.bind Filesystem.ops = some ops := by
    rw [List.getElem?_eq_getElem hlt]
    rcases htidy _ (getElem_mem hlt) with hzero | ⟨q, ops, -, hops⟩
    · rw [hzero] at hpath
      cases hpath
    · exact ⟨ops, hops⟩
  obtain ⟨ops, hops⟩ := hops
  rw [hops]
  dsimp only
  split
  · exact effect_refused _
  · exact ⟨_, _, rfl, .inl rfl, fun h => absurd h (by decide), fun _ => ⟨fs, _, rfl, rfl⟩⟩

/-! ## Distinct paths -/

theorem mounts_set_iff {i j : ℕ} {q : Cstring} (hi : i < table.length) :
    Mounts (table.set i e) j q ops ↔ (j = i ∧ e.MountedAt q ops) ∨ (j ≠ i ∧ Mounts table j q ops) := by
  unfold Mounts
  by_cases hji : j = i
  · subst hji
    simp [hi]
  · simp [Ne.symm hji, hji]

theorem WellMounted.clear (h : WellMounted table) (i : ℕ) : WellMounted (table.set i zeroFilesystem) := by
  have hof : ∀ {j q ops}, Mounts (table.set i zeroFilesystem) j q ops → Mounts table j q ops := by
    intro j q ops hmounts
    by_cases hi : i < table.length
    · rcases (mounts_set_iff hi).mp hmounts with ⟨-, hzero⟩ | ⟨-, hmounts⟩
      · exact absurd hzero not_mountedAt_zero
      · exact hmounts
    · rwa [set_eq_of_length_le (not_lt.mp hi)] at hmounts
  exact ⟨fun hmounts => h.canonical (hof hmounts),
    fun hmounts hmounts' => h.unique (hof hmounts) (hof hmounts')⟩

theorem WellMounted.fill (h : WellMounted table) {i : ℕ} {fullpath : Cstring}
    (hi : i < table.length) (he : e.MountedAt fullpath ops) (hcanonical : Canonical fullpath.chars)
    (hnew : ∀ j ops, ¬ Mounts table j fullpath ops) : WellMounted (table.set i e) := by
  have hpath : ∀ {q ops'}, e.MountedAt q ops' → q = fullpath := fun hq =>
    some.inj (hq.1.symm.trans he.1)
  constructor
  · intro j q ops' hmounts
    rcases (mounts_set_iff hi).mp hmounts with ⟨-, hq⟩ | ⟨-, hmounts⟩
    · rwa [hpath hq]
    · exact h.canonical hmounts
  · intro j k q ops₁ ops₂ hj hk
    rcases (mounts_set_iff hi).mp hj with ⟨rfl, hq⟩ | ⟨-, hj'⟩
    · obtain rfl := hpath hq
      rcases (mounts_set_iff hi).mp hk with ⟨rfl, -⟩ | ⟨-, hk'⟩
      · rfl
      · exact absurd hk' (hnew k ops₂)
    · rcases (mounts_set_iff hi).mp hk with ⟨rfl, hq⟩ | ⟨-, hk'⟩
      · obtain rfl := hpath hq
        exact absurd hj' (hnew j ops₁)
      · exact h.unique hj' hk'

end Calls

/-! ## Runs -/

/-- A call, with what the rest of the system replies. -/
inductive MountAct
  | mount (c : MountCall)
  | unmount (c : UnmountCall)

/-- The call and what it returns. -/
def MountAct.call : MountAct → Except Fault (Outcome × List Filesystem)
  | .mount c => dfsMount operations wd c table
  | .unmount c => dfsUnmount wd c table

/-- The runs of mounts and unmounts, from the empty table. -/
def mountSystem :
    System (List Filesystem) MountAct where
  init table := ∃ n, table = replicate n zeroFilesystem
  step table a table' := ∃ out, a.call operations wd table = .ok (out, table')

/-- The path of a `dfs_mount` does not climb above the root, unless it comes back to the root in the end
or climbs more than once, and if its canonical text is mounted already then it is spelled so. -/
def MountAct.Spelled : MountAct → Prop
  | .mount c =>
    let walk := resolve (fullPath wd.chars c.path.chars)
    (walk.climbs ≠ 1 ∨ walk.stack = []) ∧
      ∀ e ∈ table, ∀ q ∈ e.path, q.chars = rendered walk.stack → q = c.path
  | .unmount _ => True

instance (wd : WorkingDirectory) (table : List Filesystem) :
    DecidablePred (MountAct.Spelled wd table) := fun a => by
  cases a <;> unfold MountAct.Spelled <;> infer_instance

section Runs

variable {operations : List (Option FilesystemOps)} {wd : WorkingDirectory}
  {table table' : List Filesystem} {a : MountAct} {out : Outcome}

theorem exists_call (htidy : Tidy table) (a : MountAct) :
    ∃ out table', a.call operations wd table = .ok (out, table') ∧
      (out.result = 0 ∨ out.result = -1) ∧ (out.result = -1 → table' = table) := by
  cases a with
  | mount c =>
    obtain ⟨out, table', hok, heffect⟩ := exists_dfsMount htidy operations wd c
    exact ⟨out, table', hok, heffect.result, heffect.unchanged⟩
  | unmount c =>
    obtain ⟨out, table', hok, heffect⟩ := exists_dfsUnmount htidy wd c
    exact ⟨out, table', hok, heffect.result, heffect.unchanged⟩

theorem canonical_of_normalized {path text : List Char} (h : normalized path = some text)
    (hwalk : (resolve path).climbs ≠ 1 ∨ (resolve path).stack = []) :
    text = rendered (resolve path).stack := by
  unfold normalized at h
  split at h
  · exact (some.inj h).symm
  · next hone =>
    rcases hwalk with hne | hstack
    · exact absurd hone hne
    · rw [← some.inj h, hstack]
      rfl
  · cases h

theorem wellMounted_step (htidy : Tidy table) (h : WellMounted table) (hspelled : a.Spelled wd table)
    (hstep : a.call operations wd table = .ok (out, table')) : Tidy table' ∧ WellMounted table' := by
  cases a with
  | mount c =>
    obtain ⟨out', table'', hok, heffect⟩ := exists_dfsMount htidy operations wd c
    obtain ⟨rfl, rfl⟩ := Prod.mk.inj (Except.ok.inj (hok.symm.trans hstep))
    rcases heffect.result with hzero | hfail
    swap
    · rw [heffect.unchanged hfail]
      exact ⟨htidy, h⟩
    obtain ⟨i, e, ⟨hi, hnot, fullpath, ops, hfullpath, he⟩, rfl⟩ := heffect.changed hzero
    have hlt := (List.getElem?_eq_some_iff.mp hi).1
    have htext := canonical_of_normalized (normalizedPath_eq_some hfullpath) hspelled.1
    refine ⟨htidy.set (.inr ⟨fullpath, ops, he⟩) i, h.fill hlt he ⟨_, proper_resolve _, htext⟩ ?_⟩
    -- An entry with the new path would have been found, since the path is spelled as it is there.
    rintro j ops' ⟨e', he', hmounted⟩
    have hmem := mem_of_getElem? he'
    have hspelled' := hspelled.2 e' hmem fullpath hmounted.1 htext
    exact hnot e' hmem fullpath ops' hmounted hspelled'
  | unmount c =>
    obtain ⟨out', table'', hok, heffect⟩ := exists_dfsUnmount htidy wd c
    obtain ⟨rfl, rfl⟩ := Prod.mk.inj (Except.ok.inj (hok.symm.trans hstep))
    rcases heffect.result with hzero | hfail
    · obtain ⟨i, e, rfl, rfl⟩ := heffect.changed hzero
      exact ⟨htidy.set (.inl rfl) i, h.clear i⟩
    · rw [heffect.unchanged hfail]
      exact ⟨htidy, h⟩

theorem tidy_of_init (h : (mountSystem operations wd).init table) : Tidy table ∧ WellMounted table := by
  obtain ⟨n, rfl⟩ := h
  have hzero : ∀ e ∈ replicate n zeroFilesystem, e = zeroFilesystem := fun e he =>
    eq_of_mem_replicate he
  have hnone : ∀ {i q ops}, ¬ Mounts (replicate n zeroFilesystem) i q ops := by
    rintro i q ops ⟨e, he, hmounted⟩
    rw [hzero e (mem_of_getElem? he)] at hmounted
    exact not_mountedAt_zero hmounted
  exact ⟨fun e he => .inl (hzero e he), fun h => absurd h hnone, fun h => absurd h hnone⟩

/-- In every sequence of calls in which a path that is mounted already is spelled as it is in the table,
and no path loses its first slash, every entry is empty or in use, the entries in use have distinct
canonical paths, and the next call returns, with the table as it was if it returns -1. -/
theorem dfs_mount_table
    (h : Reachable (mountSystem operations wd) (fun table a => a.Spelled wd table) table) :
    Tidy table ∧ WellMounted table ∧
      ∀ a : MountAct, ∃ out table', a.call operations wd table = .ok (out, table') ∧
        (out.result = 0 ∨ out.result = -1) ∧ (out.result = -1 → table' = table) := by
  have hinv : Tidy table ∧ WellMounted table := by
    refine h.invariant ?_ ?_
    · intro s hs
      exact tidy_of_init hs
    · rintro s a s' ⟨htidy, hwell⟩ hspelled ⟨out, hstep⟩
      exact wellMounted_step htidy hwell hspelled hstep
  exact ⟨hinv.1, hinv.2, exists_call hinv.1⟩

end Runs

/-- The root as working directory. -/
def rootDirectory : WorkingDirectory := { rootPath with absolute := rfl }

/-- A call of `dfs_mount` without a device in which everything succeeds. -/
def mountOf : MountAct :=
  .mount { device := none, path := path, filesystemtype := plainOps.name, allocated := true,
           directory := 0, deviceOpen := 0, mount := 0 }

/-- The table after a call. -/
def MountAct.exec (a : MountAct) : Option (List Filesystem) :=
  (a.call operations wd table).toOption.map Prod.snd

theorem step_of_exec {operations : List (Option FilesystemOps)} {wd : WorkingDirectory}
    {table table' : List Filesystem} {a : MountAct} (h : a.exec operations wd table = some table') :
    (mountSystem operations wd).step table a table' := by
  obtain ⟨⟨out, t⟩, hcall, rfl⟩ := map_eq_some_iff.mp h
  exact ⟨out, ok_of_toOption hcall⟩

/-- The device file system at `/dev`, and then the same once more, which is refused. -/
theorem dfs_mount_table_twice :
    ∃ table, Reachable (mountSystem [some plainOps] rootDirectory)
        (fun table a => a.Spelled rootDirectory table) table ∧
      table.map Filesystem.path = [some devPath, none] ∧ WellMounted table := by
  have hreach : ∃ table, Reachable (mountSystem [some plainOps] rootDirectory)
      (fun table a => a.Spelled rootDirectory table) table ∧
      table.map Filesystem.path = [some devPath, none] := by
    refine exists_reachable_of_run (f := MountAct.exec [some plainOps] rootDirectory)
      (s := [zeroFilesystem, zeroFilesystem]) ⟨2, rfl⟩
      [mountOf devPath, mountOf devPath] ?_ fun _ _ _ => step_of_exec
    decide +kernel
  obtain ⟨table, htable, hpaths⟩ := hreach
  exact ⟨table, htable, hpaths, (dfs_mount_table htable).2.1⟩

/-- `/dev` and then `/dev/`: the same directory is mounted twice. -/
theorem respelled_path_mounted_twice :
    ∃ table, Reachable (mountSystem [some plainOps] rootDirectory) always table ∧
      table.map Filesystem.path = [some devPath, some devPath] := by
  refine exists_reachable_of_run (f := MountAct.exec [some plainOps] rootDirectory)
    (s := [zeroFilesystem, zeroFilesystem]) ⟨2, rfl⟩
    [mountOf devPath, mountOf ⟨['/', 'd', 'e', 'v', '/'], by decide⟩] ?_ fun _ _ _ => step_of_exec
  decide +kernel

end RtThread.Dfs
