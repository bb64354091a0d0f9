import Mathlib.Data.List.Nodup
import Mathlib.Data.List.Perm.Subperm
import Mathlib.Tactic.Linarith
import RtThread.Lib.Bytes

/-!
# Queues in memory

Two ways to keep a list of values in memory. `fifo` is the list in a ring of slots, from the slot
`out` on. `Chain` is the list of nodes along a chain of links that ends at the null link. The nodes of a
chain are often cells of a pool; `Holds` says that a list has the cells of one place, and a cell moves
from one list to another by an update of its place.
-/

namespace RtThread.Lib

open Function Nat

variable {α : Type*}

/-! ## Bounded queues -/

/-- The queue of at most `cap` values after `l` has been offered: what has no room is left out. -/
def offer (cap : ℕ) (q l : List α) : List α := q ++ l.take (cap - q.length)

/-- The queue of at most `cap` values after `l` has been put: the oldest values make room. -/
def overwrite (cap : ℕ) (q l : List α) : List α := (q ++ l).drop (q.length + l.length - cap)

theorem length_overwrite (cap : ℕ) (q l : List α) : (overwrite cap q l).length = min cap (q.length + l.length) := by
  unfold overwrite
  rw [List.length_drop, List.length_append]
  omega

theorem overwrite_of_le {cap : ℕ} (q : List α) {l : List α} (hl : cap ≤ l.length) :
    overwrite cap q l = l.drop (l.length - cap) := by
  unfold overwrite
  rw [Nat.add_sub_assoc hl, List.drop_append, Nat.add_sub_cancel_left, List.drop_eq_nil_of_le (by omega),
    List.nil_append]

/-! ## A ring of slots -/

/-- The `count` values from the slot `out` on, in a ring of `size` slots. -/
def fifo (slots : ℕ → α) (size out count : ℕ) : List α := (List.range count).map fun j => slots ((out + j) % size)

variable {i d : ℕ}

section Fifo

variable {slots : ℕ → α} {size out count : ℕ}

@[simp] theorem length_fifo : (fifo slots size out count).length = count := by simp [fifo]

@[simp] theorem fifo_zero : fifo slots size out 0 = [] := rfl

theorem slot_ne {j : ℕ} (hij : i < j) (hj : j < size) : (out + i) % size ≠ (out + j) % size := by
  intro heq
  have hmod : (out + j - (out + i)) % size = 0 := sub_mod_eq_zero_of_mod_eq heq.symm
  have hdvd := dvd_of_mod_eq_zero hmod
  have hle := le_of_dvd (by omega) hdvd
  omega

theorem fifo_put (hcount : count < size) (x : α) :
    fifo (update slots ((out + count) % size) x) size out (count + 1) =
      fifo slots size out count ++ [x] := by
  unfold fifo
  rw [List.range_succ, List.map_append, List.map_singleton, update_self]
  congr 1
  refine List.map_congr_left fun j hj => ?_
  rw [List.mem_range] at hj
  rw [update_of_ne (slot_ne hj hcount)]

theorem fifo_take (hcount : 0 < count) (hout : out < size) :
    fifo slots size out count = slots out :: fifo slots size ((out + 1) % size) (count - 1) := by
  obtain ⟨count, rfl⟩ := exists_eq_succ_of_ne_zero (pos_iff_ne_zero.mp hcount)
  unfold fifo
  rw [List.range_succ_eq_map, List.map_cons, List.map_map, Nat.add_zero, Nat.mod_eq_of_lt hout]
  congr 1
  refine List.map_congr_left fun j _ => ?_
  rw [comp_apply, mod_add_mod, succ_eq_add_one]
  congr 2
  omega

theorem slot_succ : ((out + count) % size + 1) % size = (out + (count + 1)) % size := by
  rw [mod_add_mod, add_assoc]

theorem wrap_eq_mod (hi : i < size) : (if size ≤ i + 1 then 0 else i + 1) = (i + 1) % size := by
  split_ifs with hle
  · rw [show i + 1 = size by omega, mod_self]
  · exact (Nat.mod_eq_of_lt (by omega)).symm

theorem fifo_mod : fifo slots size (out % size) count = fifo slots size out count := by
  unfold fifo
  simp only [mod_add_mod]

theorem take_fifo {k : ℕ} (hk : k ≤ count) : (fifo slots size out count).take k = fifo slots size out k := by
  unfold fifo
  rw [← List.map_take, List.take_range, min_eq_left hk]

theorem drop_fifo {k : ℕ} : (fifo slots size out count).drop k = fifo slots size (out + k) (count - k) := by
  refine List.ext_getElem (by simp) fun j h₁ h₂ => ?_
  simp only [fifo, List.getElem_drop, List.getElem_map, List.getElem_range]
  rw [add_assoc]

/-! ### Blocks of values -/

/-- The slots after `count` values of `f` have been written from `place` on, around the end of the
ring. -/
structure RingWrite (slots slots' : ℕ → α) (size place : ℕ) (f : ℕ → α) (count : ℕ) : Prop where
  new : ∀ j < count, slots' ((place + j) % size) = f j
  old : ∀ j, count ≤ j → j < size → slots' ((place + j) % size) = slots ((place + j) % size)

theorem RingWrite.of_mod {slots' f : ℕ → α} {place len : ℕ} (h : RingWrite slots slots' size (place % size) f len) :
    RingWrite slots slots' size place f len where
  new j hj := by
    rw [← mod_add_mod]
    exact h.new j hj
  old j hlen hj := by
    rw [← mod_add_mod]
    exact h.old j hlen hj

/-- A block is written behind the last value. Where the ring has no room for all values, the oldest
ones are given up. -/
theorem fifo_write {slots' f : ℕ → α} {len : ℕ} (h : RingWrite slots slots' size (out + count) f len)
    (hcount : count ≤ size) (hroom : count + len ≤ size + d) :
    fifo slots' size (out + d) (count + len - d) =
      (fifo slots size out count ++ (List.range len).map f).drop d := by
  refine List.ext_getElem (by simp) fun j h₁ h₂ => ?_
  rw [length_fifo] at h₁
  rw [List.getElem_drop]
  simp only [fifo, List.getElem_map, List.getElem_range]
  by_cases hold : d + j < count
  · -- The place is before the block, and less than a round away from its end.
    have hplace : (out + d + j) % size = (out + count + (size - count + (d + j))) % size := by
      rw [show out + count + (size - count + (d + j)) = out + d + j + size by omega, add_mod_right]
    rw [List.getElem_append_left (by simpa using hold), List.getElem_map, List.getElem_range, hplace,
      h.old _ (by omega) (by omega), ← hplace, add_assoc]
  · have hplace : out + d + j = out + count + (d + j - count) := by omega
    rw [List.getElem_append_right (by simpa using hold), List.getElem_map, List.getElem_range, hplace,
      h.new _ (by omega), List.length_map, List.length_range]

/-- The slots after `f 0`, `f 1` and so on have been written one after the other, from `place` on.
-/
def writeRing (slots : ℕ → α) (size place : ℕ) (f : ℕ → α) : ℕ → ℕ → α
  | 0 => slots
  | count + 1 => update (writeRing slots size place f count) ((place + count) % size) (f count)

theorem ringWrite_writeRing {f : ℕ → α} {place len : ℕ} (hlen : len ≤ size) :
    RingWrite slots (writeRing slots size place f len) size place f len := by
  induction len with
  | zero => exact ⟨fun _ hj => absurd hj (not_lt_zero _), fun _ _ _ => rfl⟩
  | succ len ih =>
    have ih := ih (by omega)
    refine ⟨fun j hj => ?_, fun j hle hj => ?_⟩
    · rw [writeRing]
      by_cases hlast : j = len
      · rw [hlast, update_self]
      · rw [update_of_ne (slot_ne (by omega) (by omega)), ih.new j (by omega)]
    · rw [writeRing, update_of_ne (slot_ne (by omega) hj).symm, ih.old j (by omega) hj]

end Fifo

/-! ### Copies between memories -/

/-- `memcpy` of `len` values from the place `s` of one memory to the place `d` of another. -/
def memcpy (dst : ℕ → α) (d : ℕ) (src : ℕ → α) (s len : ℕ) : ℕ → α :=
  fun i => if d ≤ i ∧ i < d + len then src (s + (i - d)) else dst i

section Copy

variable {buf f : ℕ → α} {size place len : ℕ}

variable {dst : ℕ → α}

theorem memcpy_of_mem {src : ℕ → α} {s : ℕ} (hi : d ≤ i ∧ i < d + len) :
    memcpy dst d src s len i = src (s + (i - d)) := if_pos hi

theorem memcpy_of_out {src : ℕ → α} {s : ℕ} (hi : i < d ∨ d + len ≤ i) : memcpy dst d src s len i = dst i :=
  if_neg (by omega)

theorem mod_cases (hi : i < 2 * size) : i % size = i ∧ i < size ∨ i % size = i - size ∧ size ≤ i := by
  by_cases hlt : i < size
  · exact .inl ⟨Nat.mod_eq_of_lt hlt, hlt⟩
  · refine .inr ⟨?_, not_lt.mp hlt⟩
    rw [mod_eq_sub_mod (not_lt.mp hlt), Nat.mod_eq_of_lt (by omega)]

/-- The place `j` behind another one, in a ring. -/
theorem add_mod_cases {j : ℕ} (hplace : place ≤ size) (hj : j < size) :
    (place + j) % size = place + j ∧ place + j < size ∨
      (place + j) % size = place + j - size ∧ size ≤ place + j :=
  mod_cases (by omega)

theorem ringWrite_memcpy (hfit : place + len ≤ size) : RingWrite buf (memcpy buf place f 0 len) size place f len where
  new j hj := by
    rw [Nat.mod_eq_of_lt (by omega), memcpy_of_mem (by omega)]
    congr 1
    omega
  old j hlen hj := by
    rcases add_mod_cases (by omega : place ≤ size) hj with ⟨heq, hlt⟩ | ⟨heq, hle⟩
    · rw [heq, memcpy_of_out (by omega)]
    · rw [heq, memcpy_of_out (by omega)]

/-- A block that goes around the end of the ring is written by two copies. -/
theorem ringWrite_memcpy_wrap (hplace : place ≤ size) (hwrap : size ≤ place + len) (hlen : len ≤ size) :
    RingWrite buf (memcpy (memcpy buf place f 0 (size - place)) 0 f (size - place) (len - (size - place)))
      size place f len where
  new j hj := by
    rcases add_mod_cases hplace (by omega : j < size) with ⟨heq, hlt⟩ | ⟨heq, hle⟩
    · -- In the first copy, which the second one leaves.
      rw [heq, memcpy_of_out (by omega), memcpy_of_mem (by omega)]
      congr 1
      omega
    · rw [heq, memcpy_of_mem (by omega)]
      congr 1
      omega
  old j hle hj := by
    rcases add_mod_cases hplace hj with ⟨heq, hlt⟩ | ⟨heq, hle'⟩
    · omega
    · rw [heq, memcpy_of_out (by omega), memcpy_of_out (by omega)]

theorem memcpy_fifo (hfit : place + len ≤ size) (hi : i < len) :
    memcpy dst 0 buf place len i = buf ((place + i) % size) := by
  rw [memcpy_of_mem (by omega), Nat.mod_eq_of_lt (by omega), Nat.sub_zero]

theorem memcpy_fifo_wrap (hplace : place ≤ size) (hlen : len ≤ size) (hi : i < len) :
    memcpy (memcpy dst 0 buf place (size - place)) (size - place) buf 0 (len - (size - place)) i =
      buf ((place + i) % size) := by
  rcases add_mod_cases hplace (by omega : i < size) with ⟨heq, hlt⟩ | ⟨heq, hle⟩
  · rw [heq, memcpy_of_out (by omega), memcpy_of_mem (by omega), Nat.sub_zero]
  · rw [heq, memcpy_of_mem (by omega)]
    congr 1
    omega

end Copy

/-! ## A chain of links -/

/-- The nodes along the links from `a` on, up to the null link. -/
def Chain (next : α → α) (null : α) : α → List α → Prop
  | a, [] => a = null
  | a, x :: l => a = x ∧ x ≠ null ∧ Chain next null (next x) l

section Chain

variable {next next' : α → α} {null a x y : α} {l : List α}

section

variable (h : Chain next null a l)
include h

theorem Chain.congr (hnext : ∀ z ∈ l, next' z = next z) : Chain next' null a l := by
  induction l generalizing a with
  | nil => exact h
  | cons x l ih =>
    obtain ⟨rfl, hx, hl⟩ := h
    refine ⟨rfl, hx, ?_⟩
    rw [hnext a List.mem_cons_self]
    exact ih hl fun z hz => hnext z (List.mem_cons_of_mem _ hz)

theorem Chain.nil_iff : l = [] ↔ a = null := by
  cases l with
  | nil => exact ⟨fun _ => h, fun _ => rfl⟩
  | cons x l =>
    obtain ⟨rfl, hx, -⟩ := h
    simp [hx]

theorem Chain.uncons (ha : a ≠ null) : ∃ l', l = a :: l' ∧ Chain next null (next a) l' := by
  cases l with
  | nil => exact absurd h ha
  | cons x l =>
    obtain ⟨rfl, -, hl⟩ := h
    exact ⟨l, rfl, hl⟩

theorem Chain.push (hx : x ≠ null) (hnext : next' x = a)
    (hother : ∀ z ∈ l, next' z = next z) : Chain next' null x (x :: l) := by
  refine ⟨rfl, hx, ?_⟩
  rw [hnext]
  exact h.congr hother

end

theorem Chain.append (h : Chain next null a (l ++ [y])) (hx : x ≠ null) (hy : next' y = x) (hnext : next' x = null)
    (hother : ∀ z ∈ l, next' z = next z) : Chain next' null a (l ++ [y] ++ [x]) := by
  induction l generalizing a with
  | nil =>
    obtain ⟨rfl, hy', -⟩ := h
    refine ⟨rfl, hy', ?_⟩
    rw [hy]
    exact ⟨rfl, hx, hnext⟩
  | cons z l ih =>
    obtain ⟨rfl, hz, hl⟩ := h
    refine ⟨rfl, hz, ?_⟩
    rw [hother a List.mem_cons_self]
    exact ih hl fun w hw => hother w (List.mem_cons_of_mem _ hw)

end Chain

/-! ## Cells of one size -/

/-- The addresses of `count` cells of the size `stride` from `pool` on. -/
def cells (pool stride count : ℕ) : List ℕ := (List.range count).map fun i => pool + i * stride

section Cells

variable {pool stride count a b : ℕ}

@[simp] theorem length_cells : (cells pool stride count).length = count := by simp [cells]

theorem mem_cells : a ∈ cells pool stride count ↔ ∃ i < count, pool + i * stride = a := by
  simp [cells]

theorem cells_bounds (ha : a ∈ cells pool stride count) : pool ≤ a ∧ a + stride ≤ pool + count * stride := by
  obtain ⟨i, hi, rfl⟩ := mem_cells.mp ha
  have hle : (i + 1) * stride ≤ count * stride := mul_le_mul_right _ hi
  rw [Nat.succ_mul] at hle
  omega

theorem cells_apart (ha : a ∈ cells pool stride count) (hb : b ∈ cells pool stride count) (hne : a ≠ b) :
    a + stride ≤ b ∨ b + stride ≤ a := by
  obtain ⟨i, -, rfl⟩ := mem_cells.mp ha
  obtain ⟨j, -, rfl⟩ := mem_cells.mp hb
  have hij : i ≠ j := fun hij => hne (by rw [hij])
  rcases lt_or_gt_of_ne hij with hlt | hlt
  · have hle : (i + 1) * stride ≤ j * stride := mul_le_mul_right _ hlt
    rw [Nat.succ_mul] at hle
    omega
  · have hle : (j + 1) * stride ≤ i * stride := mul_le_mul_right _ hlt
    rw [Nat.succ_mul] at hle
    omega

theorem nodup_cells (hstride : 0 < stride) : (cells pool stride count).Nodup := by
  refine List.nodup_range.map fun i j hij => ?_
  exact eq_of_mul_eq_mul_right hstride (add_left_cancel hij)

end Cells

theorem cells_succ (pool stride count : ℕ) :
    cells pool stride (count + 1) = cells pool stride count ++ [pool + count * stride] := by
  unfold cells
  rw [List.range_succ, List.map_append, List.map_singleton]

theorem cells_succ' (pool stride count : ℕ) :
    cells pool stride (count + 1) = pool :: cells (pool + stride) stride count := by
  unfold cells
  rw [List.range_succ_eq_map, List.map_cons, List.map_map, Nat.zero_mul, Nat.add_zero]
  congr 1
  refine List.map_congr_left fun i _ => ?_
  rw [comp_apply, Nat.succ_mul]
  omega

/-- The cells are a chain if each is linked to the next one, and the last one to null. -/
theorem chain_cells {next : ℕ → ℕ} {pool stride count : ℕ} (hpos : 0 < pool) (hcount : 0 < count)
    (hnext : ∀ i, i + 1 < count → next (pool + i * stride) = pool + (i + 1) * stride)
    (hlast : next (pool + (count - 1) * stride) = 0) : Chain next 0 pool (cells pool stride count) := by
  induction count generalizing pool with
  | zero => omega
  | succ count ih =>
    rw [cells_succ']
    refine ⟨rfl, ne_of_gt hpos, ?_⟩
    cases count with
    | zero =>
      rw [Nat.add_sub_cancel, Nat.zero_mul, Nat.add_zero] at hlast
      exact hlast
    | succ count =>
      have hfirst := hnext 0 (by omega)
      rw [Nat.zero_mul, Nat.add_zero, zero_add, one_mul] at hfirst
      rw [hfirst]
      refine ih (by omega) (by omega) (fun i hi => ?_) ?_
      · have hi' := hnext (i + 1) (by omega)
        rw [Nat.succ_mul, Nat.succ_mul (i + 1)] at hi'
        rw [show pool + stride + i * stride = pool + (i * stride + stride) by omega, hi']
        rw [Nat.succ_mul]
        omega
      · rw [Nat.add_sub_cancel, Nat.succ_mul] at hlast
        rw [Nat.add_sub_cancel, ← hlast]
        congr 1
        omega

/-! ## Elements at places -/

/-- The list `l` has the elements of `all` that are at the place `x`, each of them once. -/
structure Holds {β : Type*} (all : List α) (place : α → β) (x : β) (l : List α) : Prop where
  nodup : l.Nodup
  mem : ∀ a, a ∈ l ↔ a ∈ all ∧ place a = x

namespace Holds

variable {β : Type*} [DecidableEq α] {all l l' : List α} {place : α → β} {x y z : β} {a : α}

theorem uncons (h : Holds all place x (a :: l)) (hy : y ≠ x) : Holds all (update place a y) x l := by
  obtain ⟨ha, hl⟩ := List.nodup_cons.mp h.nodup
  refine ⟨hl, fun b => ?_⟩
  by_cases hb : b = a
  · subst hb
    simp [ha, hy]
  · rw [update_of_ne hb, ← h.mem b, List.mem_cons]
    simp [hb]

theorem cons (h : Holds all place x l) (ha : a ∈ all) (hx : place a ≠ x) :
    Holds all (update place a x) x (a :: l) := by
  have hnot : a ∉ l := fun hal => hx ((h.mem a).mp hal).2
  refine ⟨List.nodup_cons.mpr ⟨hnot, h.nodup⟩, fun b => ?_⟩
  by_cases hb : b = a
  · subst hb
    simp [ha]
  · rw [update_of_ne hb, ← h.mem b, List.mem_cons]
    simp [hb]

omit [DecidableEq α] in
theorem perm (h : Holds all place x l) (hl : l.Perm l') : Holds all place x l' :=
  ⟨hl.nodup_iff.mp h.nodup, fun b => by rw [← hl.mem_iff, h.mem]⟩

/-- An element of another place is put behind the last one. -/
theorem concat (h : Holds all place x l) (ha : a ∈ all) (hx : place a ≠ x) :
    Holds all (update place a x) x (l ++ [a]) :=
  (h.cons ha hx).perm (List.perm_append_singleton a l).symm

/-- The lists of the places that an element neither leaves nor reaches. -/
theorem other (h : Holds all place z l) (hz : place a ≠ z) (hy : y ≠ z) :
    Holds all (update place a y) z l := by
  refine ⟨h.nodup, fun b => ?_⟩
  rw [h.mem b]
  by_cases hb : b = a
  · subst hb
    simp [hz, hy]
  · rw [update_of_ne hb]

end Holds

/-! ## Links in memory -/

variable (m : Bytes)

/-- The link in the first word of a cell. -/
def link (a : ℕ) : ℕ := m.load a 4

theorem link_store_self (a : ℕ) {x : ℕ} (hx : x < 2^32) : link (m.store a 4 x) a = x := by
  unfold link
  rw [Bytes.load_store_same]
  exact Nat.mod_eq_of_lt (by norm_num at hx ⊢; exact hx)

theorem link_store_of_apart {a b : ℕ} (x : ℕ) (h : a + 4 ≤ b ∨ b + 4 ≤ a) :
    link (m.store a 4 x) b = link m b :=
  Bytes.load_store_of_disjoint h.symm

/-- The bytes from `a` on. -/
def bytes (a count : ℕ) : List UInt8 := (List.range count).map fun i => m (a + i)

@[simp] theorem length_bytes (a count : ℕ) : (bytes m a count).length = count := by simp [bytes]

theorem bytes_congr {m m' : Bytes} {a count : ℕ} (h : ∀ x, a ≤ x → x < a + count → m' x = m x) :
    bytes m' a count = bytes m a count := by
  refine List.map_congr_left fun i hi => ?_
  rw [List.mem_range] at hi
  exact h _ (Nat.le_add_right _ _) (Nat.add_lt_add_left hi _)

theorem take_bytes (a : ℕ) {count : ℕ} (h : i ≤ count) : (bytes m a count).take i = bytes m a i := by
  unfold bytes
  rw [← List.map_take, List.take_range, min_eq_left h]

section Links

variable {m : Bytes} {pool stride count a b x : ℕ}

theorem link_store_of_ne (ha : a ∈ cells pool stride count) (hb : b ∈ cells pool stride count) (hne : b ≠ a)
    (hstride : 4 ≤ stride) : link (m.store a 4 x) b = link m b := by
  apply link_store_of_apart
  rcases cells_apart ha hb hne.symm with h | h
  · exact .inl (by omega)
  · exact .inr (by omega)

/-- A link is stored in a cell: the bytes behind the links stay. -/
theorem bytes_store (ha : a ∈ cells pool stride count) (hb : b ∈ cells pool stride count) {size : ℕ}
    (hstride : 4 + size ≤ stride) : bytes (m.store a 4 x) (b + 4) size = bytes m (b + 4) size := by
  apply bytes_congr
  intro y hy hy'
  apply Bytes.store_apply_of_out
  by_cases hne : a = b
  · exact .inr (by omega)
  · rcases cells_apart ha hb hne with h | h
    · exact .inr (by omega)
    · exact .inl (by omega)

end Links

end RtThread.Lib
