import RtThread.Lib.Cstring

/-!
# Symbols of the shell

`finsh_syscall_lookup` and `finsh_syscall_append` of `components/finsh/finsh_vm.c`, and the same for
variables of `components/finsh/finsh_var.c`. Either kind has a table that the linker builds, and a list
to which a program adds in front. The table is searched with `strcmp`. The list is searched with
`strncmp` and the length of the name, so that an entry of the list is found by every name that it
begins with.
-/

namespace RtThread.Finsh

open Lib List

/-- `enum finsh_type`. -/
inductive FinshType
  | unknown
  | void
  | voidp
  | char
  | uchar
  | charp
  | short
  | ushort
  | shortp
  | int
  | uint
  | intp
  | long
  | ulong
  | longp
  deriving DecidableEq

/-- `struct finsh_syscall`. -/
structure Syscall where
  name : Cstring
  /-- The address of the function. -/
  func : ℕ
  deriving DecidableEq

/-- `struct finsh_sysvar`. -/
structure Sysvar where
  name : Cstring
  type : FinshType
  /-- The address of the variable. -/
  var : ℕ
  deriving DecidableEq

/-- A table of the linker, and a list that a program adds to. -/
structure Symbols (E : Type) where
  /-- The entries between `_syscall_table_begin` and `_syscall_table_end`. -/
  table : List E
  /-- The entries from `global_syscall_list` on. -/
  items : List E

namespace Symbols

variable {E : Type}

/-- An entry is added in front of the list. -/
def append (s : Symbols E) (e : E) : Symbols E := { s with items := e :: s.items }

/-- The first entry of the table, or else of the list, that passes its comparison. -/
def lookup (nameOf : E → Cstring) (s : Symbols E) (name : List Char) : Option E :=
  match s.table.find? fun e => strcmp (nameOf e).chars name = 0 with
  | some e => some e
  | none => s.items.find? fun e => strncmp (nameOf e).chars name name.length = 0

/-- The symbols after entries have been added one after the other to those of the table. -/
def appendAll (table added : List E) : Symbols E := added.foldl append ⟨table, []⟩

theorem appendAll_eq (table added : List E) : appendAll table added = ⟨table, added.reverse⟩ := by
  have hfold : ∀ s : Symbols E, added.foldl append s = ⟨s.table, added.reverse ++ s.items⟩ := by
    induction added with
    | nil => exact fun _ => rfl
    | cons e added ih =>
      intro s
      rw [foldl_cons, ih (s.append e)]
      simp [append]
  rw [appendAll, hfold, append_nil]

variable (nameOf : E → Cstring) (table added : List E) (name : Cstring)

/-- A look-up has found an entry exactly if there is one of that name, and it has that name. -/
def Resolves (found : Option E) : Prop :=
  (found.isSome ↔ ∃ e ∈ table ++ added, nameOf e = name) ∧ ∀ e, found = some e → nameOf e = name

/-- The table has the name, or the last entry added that begins with it has exactly that name. -/
def Unshadowed : Prop :=
  (∃ e ∈ table, nameOf e = name) ∨
    ∀ before e after, added = before ++ e :: after → name.chars <+: (nameOf e).chars →
      (∀ e' ∈ after, ¬name.chars <+: (nameOf e').chars) → nameOf e = name

variable {nameOf table added name}

theorem strcmp_name {e : E} : strcmp (nameOf e).chars name.chars = 0 ↔ nameOf e = name := by
  rw [strcmp_eq_zero_iff (nameOf e).zero_notMem name.zero_notMem, Cstring.mk.injEq]

theorem strncmp_name {e : E} :
    strncmp (nameOf e).chars name.chars name.chars.length = 0 ↔ name.chars <+: (nameOf e).chars :=
  strncmp_length_eq_zero_iff (nameOf e).zero_notMem name.zero_notMem

/-- The item found is the last one added that begins with the name. -/
theorem find_items_eq_some_iff {e : E} :
    (added.reverse.find? fun e => strncmp (nameOf e).chars name.chars name.chars.length = 0) = some e ↔
      name.chars <+: (nameOf e).chars ∧ ∃ before after, added = before ++ e :: after ∧
        ∀ e' ∈ after, ¬name.chars <+: (nameOf e').chars := by
  rw [find?_eq_some_iff_append, decide_eq_true_iff, strncmp_name]
  refine and_congr_right fun _ => ⟨?_, ?_⟩
  · rintro ⟨after, before, hsplit, hafter⟩
    refine ⟨before.reverse, after.reverse, ?_, fun e' he' hpre => ?_⟩
    · rw [← reverse_reverse added, hsplit]
      simp
    · have hno := hafter e' (mem_reverse.mp he')
      rw [Bool.not_eq_true', decide_eq_false_iff_not, strncmp_name] at hno
      exact hno hpre
  · rintro ⟨before, after, rfl, hafter⟩
    refine ⟨after.reverse, before.reverse, by simp, fun e' he' => ?_⟩
    rw [Bool.not_eq_true', decide_eq_false_iff_not, strncmp_name]
    exact hafter e' (mem_reverse.mp he')

theorem lookup_of_notMem (htable : ∀ e ∈ table, nameOf e ≠ name) :
    (appendAll table added).lookup nameOf name.chars =
      added.reverse.find? fun e => strncmp (nameOf e).chars name.chars name.chars.length = 0 := by
  have hnone : (table.find? fun e => strcmp (nameOf e).chars name.chars = 0) = none := by
    rw [find?_eq_none]
    intro e he
    rw [decide_eq_true_iff, strcmp_name]
    exact htable e he
  rw [appendAll_eq, lookup, hnone]

/-- A look-up is right exactly if no entry of the list hides the name. -/
theorem lookup_resolves_iff :
    Resolves nameOf table added name ((appendAll table added).lookup nameOf name.chars) ↔
      Unshadowed nameOf table added name := by
  by_cases htable : ∃ e ∈ table, nameOf e = name
  · -- The table is searched first, by exact comparison.
    refine iff_of_true ?_ (.inl htable)
    obtain ⟨e₀, he₀, hname₀⟩ := htable
    have hfound : (table.find? fun e => strcmp (nameOf e).chars name.chars = 0).isSome := by
      rw [find?_isSome]
      exact ⟨e₀, he₀, by rw [decide_eq_true_iff, strcmp_name]; exact hname₀⟩
    obtain ⟨e, he⟩ := Option.isSome_iff_exists.mp hfound
    have hname : nameOf e = name := by
      have hcmp := find?_some he
      rwa [decide_eq_true_iff, strcmp_name] at hcmp
    rw [appendAll_eq, lookup, he]
    refine ⟨iff_of_true rfl ⟨e₀, mem_append_left _ he₀, hname₀⟩, ?_⟩
    rintro e' ⟨⟩
    exact hname
  · have hnot : ∀ e ∈ table, nameOf e ≠ name := fun e he hname => htable ⟨e, he, hname⟩
    rw [lookup_of_notMem hnot, Unshadowed, or_iff_right htable]
    constructor
    · rintro ⟨-, hexact⟩ before e after hsplit hpre hafter
      exact hexact e (find_items_eq_some_iff.mpr ⟨hpre, before, after, hsplit, hafter⟩)
    · intro hlast
      have hexact : ∀ e, (added.reverse.find? fun e =>
          strncmp (nameOf e).chars name.chars name.chars.length = 0) = some e → nameOf e = name := by
        intro e he
        obtain ⟨hpre, before, after, hsplit, hafter⟩ := find_items_eq_some_iff.mp he
        exact hlast before e after hsplit hpre hafter
      refine ⟨⟨fun hsome => ?_, ?_⟩, hexact⟩
      · obtain ⟨e, he⟩ := Option.isSome_iff_exists.mp hsome
        have hmem := mem_reverse.mp (mem_of_find?_eq_some he)
        exact ⟨e, mem_append_right _ hmem, hexact e he⟩
      · rintro ⟨e, he, hname⟩
        have hadded : e ∈ added := (mem_append.mp he).resolve_left fun h => hnot e h hname
        rw [find?_isSome]
        refine ⟨e, mem_reverse.mpr hadded, ?_⟩
        rw [decide_eq_true_iff, strncmp_name, hname]

end Symbols

/-- `finsh_syscall_append`, if its allocations succeed. -/
def finshSyscallAppend (s : Symbols Syscall) (name : Cstring) (func : ℕ) : Symbols Syscall :=
  s.append ⟨name, func⟩

/-- `finsh_sysvar_append`, if its allocations succeed. -/
def finshSysvarAppend (s : Symbols Sysvar) (name : Cstring) (type : FinshType) (var : ℕ) :
    Symbols Sysvar :=
  s.append ⟨name, type, var⟩

/-- `finsh_syscall_lookup`. -/
def finshSyscallLookup (s : Symbols Syscall) (name : List Char) : Option Syscall :=
  s.lookup Syscall.name name

/-- `finsh_sysvar_lookup`. -/
def finshSysvarLookup (s : Symbols Sysvar) (name : List Char) : Option Sysvar :=
  s.lookup Sysvar.name name

/-- For any tables, any calls that add to them and any name, a look-up finds an entry of that name
exactly if there is one, if and only if the table has the name or the last entry added that begins
with the name has exactly that name. -/
theorem symbol_resolution (syscallTable syscalls : List Syscall) (sysvarTable sysvars : List Sysvar)
    (name : Cstring) : (Symbols.Resolves Syscall.name syscallTable syscalls name
        (finshSyscallLookup (syscalls.foldl (fun s c => finshSyscallAppend s c.name c.func)
          ⟨syscallTable, []⟩) name.chars) ↔
      Symbols.Unshadowed Syscall.name syscallTable syscalls name) ∧
    (Symbols.Resolves Sysvar.name sysvarTable sysvars name
        (finshSysvarLookup (sysvars.foldl (fun s v => finshSysvarAppend s v.name v.type v.var)
          ⟨sysvarTable, []⟩) name.chars) ↔
      Symbols.Unshadowed Sysvar.name sysvarTable sysvars name) :=
  ⟨Symbols.lookup_resolves_iff, Symbols.lookup_resolves_iff⟩

/-- A name that is the beginning of another. -/
def listName : Cstring := ⟨"list".toList, by decide⟩

/-- The other. -/
def listThreadName : Cstring := ⟨"list_thread".toList, by decide⟩

/-- A program adds the system call `list_thread`, and `list` finds it. -/
theorem lookup_finds_longer_name :
    finshSyscallLookup (finshSyscallAppend ⟨[], []⟩ listThreadName 0x8000100) listName.chars =
        some ⟨listThreadName, 0x8000100⟩ ∧ listThreadName ≠ listName := by
  decide

end RtThread.Finsh
