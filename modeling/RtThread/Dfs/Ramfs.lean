import RtThread.Dfs.Files

/-!
# Renaming a file of the RAM file system

The model of `dfs_ramfs_lookup` and `dfs_ramfs_rename` in `components/dfs/filesystems/ramfs/dfs_ramfs.c`
and of `dfs_file_rename` in `components/dfs/src/dfs_file.c`, where both names lead to the RAM file
system. The lookup skips the slashes in front of the name that it looks for, and the rename stores the
new name with the slash that it begins with, so no lookup finds the renamed file.
-/

namespace RtThread.Dfs

open Lib

/-- There is a file of the new name. -/
def EEXIST : ℤ := 17
/-- The names are in two file systems. -/
def EXDEV : ℤ := 18
/-- The characters of a name. -/
def RAMFS_NAME_MAX : ℕ := 32

/-- `struct ramfs_dirent` of a file: the characters of `name` up to a zero, those behind the array up to a zero,
and what the file holds. -/
structure RamfsDirent where
  name : List Char
  behind : List Char
  data : List UInt8
  deriving DecidableEq

/-- The string at `name`: an array without a zero goes on behind it. -/
def RamfsDirent.text (d : RamfsDirent) : List Char :=
  if d.name.length < RAMFS_NAME_MAX then d.name else d.name ++ d.behind

/-- `dirent->name` after `strncpy(dirent->name, newpath, RAMFS_NAME_MAX)`. -/
def RamfsDirent.renamed (d : RamfsDirent) (newpath : List Char) : RamfsDirent :=
  { d with name := newpath.take RAMFS_NAME_MAX }

/-- What a lookup finds: the root, a file, or nothing. -/
inductive Looked where
  | root
  | file (i : ℕ)
  | missing
  deriving DecidableEq

/-- The name without the slashes in front. -/
def subpath (path : List Char) : List Char := path.dropWhile (· = '/')

/-- `dfs_ramfs_lookup`: the entry whose name is the path without its first slashes. -/
def dfsRamfsLookup (files : List RamfsDirent) (path : List Char) : Looked :=
  if subpath path = [] then .root
  else ((files.findIdx? fun d => strcmp d.text (subpath path) = 0).map .file).getD .missing

/-- `dfs_ramfs_rename`. A lookup of a null pointer is wild. The name of the root directory is not read. -/
def dfsRamfsRename (files : List RamfsDirent) (oldpath newpath : Option (List Char)) :
    Except Fault (ℤ × List RamfsDirent) :=
  match newpath with
  | none => .error .wild
  | some newpath =>
    if dfsRamfsLookup files newpath ≠ .missing then .ok (-EEXIST, files)
    else
      match oldpath.map (dfsRamfsLookup files) with
      | none => .error .wild
      | some .missing => .ok (-ENOENT, files)
      | some .root => .ok (0, files)
      | some (.file i) => .ok (0, files.set i ((files.getD i ⟨[], [], []⟩).renamed newpath))

namespace Volumes

variable (v : Volumes)

/-- `dfs_file_rename`. Without a file system for the two paths, a null pointer is read. -/
def dfsFileRename (oldAllocated newAllocated : Bool) (files : List RamfsDirent) (oldpath newpath : Cstring) :
    Except Fault (ℤ × List RamfsDirent) :=
  match normalizedPath v.wd oldAllocated oldpath, normalizedPath v.wd newAllocated newpath with
  | some oldfullpath, some newfullpath =>
    match v.found oldfullpath, v.found newfullpath with
    | none, none => .error .wild
    | some (i, q, _), some (j, q', _) =>
      if i = j then
        dfsRamfsRename files (dfsSubdir q.chars oldfullpath.chars) (dfsSubdir q'.chars newfullpath.chars)
      else .ok (-EXDEV, files)
    | _, _ => .ok (-EXDEV, files)
  | _, _ => .ok (-ENOENT, files)

/-- The file that `dfs_ramfs_open` and `dfs_ramfs_stat` find under a name. -/
def ramfsFile (files : List RamfsDirent) (path : Cstring) : Option RamfsDirent :=
  (normalizedPath v.wd true path).bind fun fullpath =>
    (v.found fullpath).bind fun r =>
      match dfsRamfsLookup files (inside r.2.1 fullpath).chars with
      | .file i => files[i]?
      | _ => none

end Volumes

/-! ## The stored name begins with a slash -/

theorem firstChar_subpath_ne (path : List Char) : firstChar (subpath path) ≠ '/' := by
  induction path with
  | nil => decide
  | cons c path ih =>
    by_cases hc : c = '/'
    · simpa [subpath, hc] using ih
    · simp [subpath, firstChar, hc]

variable {t : List Char}

theorem head_of_dfsSubdir {q path : Cstring} (hcovers : Covers q path)
    (h : dfsSubdir q.chars path.chars = some t) : t.head? = some '/' := by
  obtain ⟨⟨rest, hpath⟩, hend⟩ := hcovers
  simp only [dfsSubdir] at h
  split_ifs at h with hlength hname
  · obtain rfl := Option.some.inj h
    rcases hend with rfl | rfl | hslash
    · rw [← hpath]
      rfl
    · exact absurd rfl hlength
    · exact absurd hslash hname.1
  · obtain rfl := Option.some.inj h
    rw [List.head?_drop]
    by_contra hslash
    rcases hend with rfl | rfl | hend
    · exact hname ⟨hslash, by decide⟩
    · exact hlength rfl
    · exact hslash hend

theorem strcmp_renamed_ne (d : RamfsDirent) (ht : t.head? = some '/') :
    strcmp (d.renamed t).text (subpath t) ≠ 0 := by
  obtain ⟨rest, rfl⟩ := List.head?_eq_some_iff.mp ht
  have htext : ∃ s, (d.renamed ('/' :: rest)).text = '/' :: s := by
    unfold RamfsDirent.text
    split_ifs
    · exact ⟨_, rfl⟩
    · exact ⟨_, rfl⟩
  obtain ⟨s, hs⟩ := htext
  have hne := (firstChar_subpath_ne ('/' :: rest)).symm
  rw [hs, strcmp, if_pos hne]
  exact toNat_sub_toNat_ne_zero hne

theorem lookup_eq_missing_iff {files : List RamfsDirent} {path : List Char} :
    dfsRamfsLookup files path = .missing ↔
      subpath path ≠ [] ∧ ∀ d ∈ files, strcmp d.text (subpath path) ≠ 0 := by
  unfold dfsRamfsLookup
  split_ifs with hroot
  · simp [hroot]
  · cases hfind : files.findIdx? fun d => strcmp d.text (subpath path) = 0 with
    | none => simpa [hroot] using hfind
    | some i =>
      obtain ⟨hi, hmatch, -⟩ := List.findIdx?_eq_some_iff_getElem.mp hfind
      simpa [hroot] using ⟨files[i], List.getElem_mem hi, of_decide_eq_true hmatch⟩

theorem lookup_renamed {files files' : List RamfsDirent} {oldpath : Option (List Char)}
    (ht : t.head? = some '/') (h : dfsRamfsRename files oldpath (some t) = .ok (0, files')) :
    dfsRamfsLookup files' t = .missing := by
  simp only [dfsRamfsRename] at h
  split_ifs at h with hnew
  · simp [EEXIST] at h
  · rw [not_not] at hnew
    split at h
    · simp at h
    · simp [ENOENT] at h
    · simp only [Except.ok.injEq, Prod.mk.injEq, true_and] at h
      rw [← h, hnew]
    · simp only [Except.ok.injEq, Prod.mk.injEq, true_and] at h
      rw [lookup_eq_missing_iff] at hnew ⊢
      refine ⟨hnew.1, fun d hd => ?_⟩
      rw [← h] at hd
      rcases List.mem_or_eq_of_mem_set hd with hold | rfl
      · exact hnew.2 d hold
      · exact strcmp_renamed_ne _ ht

/-- A file that `dfs_file_rename` has renamed with success is found under its new name in no case. -/
theorem ramfs_rename_loses_file (v : Volumes) {files files' : List RamfsDirent} {a b : Bool}
    {oldpath newpath : Cstring} (h : v.dfsFileRename a b files oldpath newpath = .ok (0, files')) :
    v.ramfsFile files' newpath = none := by
  simp only [Volumes.dfsFileRename] at h
  split at h
  next oldfullpath newfullpath hold hnew =>
    split at h
    · simp at h
    · next i q ops j q' ops' hfound hfound' =>
      split_ifs at h
      · cases hsub : dfsSubdir q'.chars newfullpath.chars with
        | none => simp [hsub, dfsRamfsRename] at h
        | some t =>
          rw [hsub] at h
          have hlooked := lookup_renamed (head_of_dfsSubdir (Volumes.found_spec hfound').2 hsub) h
          have hinside : (inside q' newfullpath).chars = t := by simp [inside, subPath, hsub]
          obtain rfl : b = true := by
            by_contra hb
            simp [normalizedPath, hb] at hnew
          simp [Volumes.ramfsFile, hnew, hfound', hinside, hlooked]
      · simp [EXDEV] at h
    · simp [EXDEV] at h
  next => simp [ENOENT] at h

/-- The RAM file system at the root. -/
def volumesRoot : Volumes := twoVolumes rootPath rootPath ⟨[], by decide, rfl⟩ ⟨[], by decide, rfl⟩

/-- A RAM file system with one file. -/
def oneFile (name : List Char) : List RamfsDirent := [⟨name, [], [1]⟩]

/-- The file `a` is renamed to `b`. -/
def renameAToB : Except Fault (ℤ × List RamfsDirent) :=
  volumesRoot.dfsFileRename true true (oneFile ['a']) ⟨['a'], by decide⟩ ⟨['b'], by decide⟩

/-- The file `a` is renamed to `b`, and there is no file `b`. -/
theorem ramfs_rename_loses_file_b : renameAToB = .ok (0, oneFile ['/', 'b']) ∧
      volumesRoot.ramfsFile (oneFile ['/', 'b']) ⟨['b'], by decide⟩ = none := by
  have hok : renameAToB = .ok (0, oneFile ['/', 'b']) := by decide +kernel
  exact ⟨hok, ramfs_rename_loses_file _ hok⟩

/-- The file was found under its old name, and the renamed one is not what the new name leads to. -/
theorem ramfs_rename_lost :
    volumesRoot.ramfsFile (oneFile ['a']) ⟨['a'], by decide⟩ = (oneFile ['a']).head? ∧
      volumesRoot.ramfsFile (oneFile ['a']) ⟨['b'], by decide⟩ = none ∧
      renameAToB = .ok (0, oneFile ['/', 'b']) ∧
      volumesRoot.ramfsFile (oneFile ['/', 'b']) ⟨['b'], by decide⟩ ≠ (oneFile ['/', 'b']).head? := by
  decide +kernel

end RtThread.Dfs
