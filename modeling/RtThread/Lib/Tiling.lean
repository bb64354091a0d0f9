import Mathlib.Data.List.Chain
import Mathlib.Algebra.BigOperators.Group.List.Basic
import Mathlib.Tactic.Ring

/-!
# Tilings of an interval by blocks

A boundary-tag allocator cuts one interval of memory into adjacent blocks. A tiling is the list of
its blocks, each with its size and whether it is in use; the address of a block is the sum of the
sizes before it, so that splitting a block and merging two are edits of the list that leave every
other address as it was. A tiling is kept in memory by three header fields (`Linked`): the address of
the next block, that of the previous one, and the flag.
-/

namespace RtThread.Lib

open List Nat

/-- A block of a tiling: whether it is in use, and its size, header included. -/
structure Blk where
  /-- Whether the block is in use. -/
  used : Bool
  /-- The size, header included. -/
  size : ℕ
deriving DecidableEq, Repr

variable (bs : List Blk)

/-- The size of the interval that the blocks tile. -/
def total : ℕ := (bs.map Blk.size).sum

/-- The size of the blocks in use. -/
def usedTotal : ℕ := ((bs.filter Blk.used).map Blk.size).sum

/-- The blocks with their addresses, laid out from `o` on. -/
def place : ℕ → List Blk → List (ℕ × Blk)
  | _, [] => []
  | o, b :: bs => (o, b) :: place (o + b.size) bs

/-- The addresses of the blocks laid out from `o` on, and that of the end, where a closing header
may stand. -/
def headers (o : ℕ) (bs : List Blk) : List ℕ := (place o bs).map Prod.fst ++ [o + total bs]

/-- The address `a` is that of a free block or of the end. -/
def FreeOrEnd (a : ℕ) : Prop :=
  a = total bs ∨ ∃ n, (a, ⟨false, n⟩) ∈ place 0 bs

/-- The address `c` is that of the first free block at or after `a`, or the end if there is none. -/
def FirstFree (a c : ℕ) : Prop :=
  FreeOrEnd bs c ∧ a ≤ c ∧ ∀ x ∈ place 0 bs, x.2.used = false → a ≤ x.1 → c ≤ x.1

/-- No two neighbours are free. -/
def NoAdjFree : Prop := bs.IsChain fun a b => a.used = true ∨ b.used = true

variable {x : ℕ × Blk}

section Lists

variable {bs xs ys : List Blk} {b : Blk} {o : ℕ}

@[simp] theorem total_nil : total [] = 0 := rfl

@[simp] theorem total_cons : total (b :: bs) = b.size + total bs := by simp [total]

@[simp] theorem total_append : total (xs ++ ys) = total xs + total ys := by simp [total]

@[simp] theorem usedTotal_nil : usedTotal [] = 0 := rfl

@[simp] theorem usedTotal_cons_true (n : ℕ) : usedTotal (⟨true, n⟩ :: bs) = n + usedTotal bs := by
  simp [usedTotal]

@[simp] theorem usedTotal_cons_false (n : ℕ) : usedTotal (⟨false, n⟩ :: bs) = usedTotal bs := by
  simp [usedTotal]

@[simp] theorem usedTotal_append : usedTotal (xs ++ ys) = usedTotal xs + usedTotal ys := by
  simp [usedTotal]

theorem usedTotal_le_total (bs : List Blk) : usedTotal bs ≤ total bs := by
  induction bs with
  | nil => simp
  | cons b bs ih =>
    obtain ⟨u, n⟩ := b
    cases u
    · rw [usedTotal_cons_false, total_cons]; omega
    · rw [usedTotal_cons_true, total_cons]; exact Nat.add_le_add_left ih n

@[simp] theorem place_nil : place o [] = [] := rfl

@[simp] theorem place_cons : place o (b :: bs) = (o, b) :: place (o + b.size) bs := rfl

@[simp] theorem place_append : place o (xs ++ ys) = place o xs ++ place (o + total xs) ys := by
  induction xs generalizing o with
  | nil => simp
  | cons b xs ih => simp [ih, add_assoc]

@[simp] theorem map_snd_place : (place o bs).map Prod.snd = bs := by
  induction bs generalizing o with
  | nil => rfl
  | cons b bs ih => simp [ih]

theorem mem_of_mem_place (h : x ∈ place o bs) : x.2 ∈ bs := by
  rw [← @map_snd_place bs o]
  exact mem_map_of_mem h

theorem place_bounds (h : x ∈ place o bs) : o ≤ x.1 ∧ x.1 + x.2.size ≤ o + total bs := by
  induction bs generalizing o with
  | nil => simp at h
  | cons b bs ih =>
    rw [place_cons, mem_cons] at h
    rw [total_cons]
    rcases h with rfl | h
    · simp
    · have := ih h
      omega

/-- The parts of a tiling cut twice. -/
theorem mem_place_mid {pre mid post : List Blk} :
    x ∈ place 0 (pre ++ mid ++ post) ↔ x ∈ place 0 pre ∨ x ∈ place (total pre) mid ∨
      x ∈ place (total pre + total mid) post := by
  simp

theorem not_mem_place_of_unused (h : ∀ b ∈ bs, b.used = false)
    (hx : x.2.used = true) : x ∉ place o bs := by
  intro hmem
  have := h x.2 (mem_of_mem_place hmem)
  rw [hx] at this
  cases this

theorem exists_of_mem_place (h : x ∈ place o bs) :
    ∃ pre post, bs = pre ++ x.2 :: post ∧ o + total pre = x.1 := by
  induction bs generalizing o with
  | nil => simp at h
  | cons b bs ih =>
    rw [place_cons, mem_cons] at h
    rcases h with rfl | h
    · exact ⟨[], bs, rfl, by simp⟩
    · obtain ⟨pre, post, rfl, hpre⟩ := ih h
      exact ⟨b :: pre, post, rfl, by rw [total_cons]; omega⟩

theorem place_disjoint {y : ℕ × Blk} (hx : x ∈ place o bs) (hy : y ∈ place o bs)
    (hne : x.1 ≠ y.1) : x.1 + x.2.size ≤ y.1 ∨ y.1 + y.2.size ≤ x.1 := by
  induction bs generalizing o with
  | nil => simp at hx
  | cons b bs ih =>
    rw [place_cons, mem_cons] at hx hy
    rcases hx with rfl | hx
    · rcases hy with rfl | hy
      · exact absurd rfl hne
      · exact .inl (place_bounds hy).1
    · rcases hy with rfl | hy
      · exact .inr (place_bounds hx).1
      · exact ih hx hy

theorem place_unique (hpos : ∀ b ∈ bs, 0 < b.size) {y : ℕ × Blk} (hx : x ∈ place o bs)
    (hy : y ∈ place o bs) (heq : x.1 = y.1) : x = y := by
  induction bs generalizing o with
  | nil => simp at hx
  | cons b bs ih =>
    have hb := hpos b mem_cons_self
    rw [place_cons, mem_cons] at hx hy
    rcases hx with rfl | hx
    · rcases hy with rfl | hy
      · rfl
      · have := (place_bounds hy).1
        simp only at heq
        omega
    · rcases hy with rfl | hy
      · have := (place_bounds hx).1
        simp only at heq
        omega
      · exact ih (fun c hc => hpos c (mem_cons_of_mem _ hc)) hx hy

theorem place_aligned {k : ℕ} (ho : k ∣ o) (hal : ∀ b ∈ bs, k ∣ b.size)
    (h : x ∈ place o bs) : k ∣ x.1 := by
  induction bs generalizing o with
  | nil => simp at h
  | cons b bs ih =>
    rw [place_cons, mem_cons] at h
    rcases h with rfl | h
    · exact ho
    · exact ih (Nat.dvd_add ho (hal b mem_cons_self))
        (fun c hc => hal c (mem_cons_of_mem _ hc)) h

end Lists

/-! ## Neighbours -/

section Neighbours

variable {pre post : List Blk} {n k : ℕ}

theorem noAdjFree_used : NoAdjFree (pre ++ ⟨true, n⟩ :: post) ↔ NoAdjFree pre ∧ NoAdjFree post := by
  unfold NoAdjFree
  rw [isChain_split, isChain_append, isChain_cons (l := post)]
  simp

/-- A free block between two halves needs a block in use, or none, on either side. -/
theorem noAdjFree_free : NoAdjFree (pre ++ ⟨false, n⟩ :: post) ↔
    NoAdjFree pre ∧ NoAdjFree post ∧ (∀ b ∈ pre.getLast?, b.used = true) ∧
      (∀ b ∈ post.head?, b.used = true) := by
  unfold NoAdjFree
  rw [isChain_split, isChain_append, isChain_cons (l := post)]
  simp only [isChain_singleton, head?_cons, Option.mem_def, Option.some.injEq,
    forall_eq', Bool.false_eq_true, or_false, false_or, true_and]
  tauto

/-- A free block at the start needs a block in use, or none, after it. -/
theorem noAdjFree_cons_free : NoAdjFree (⟨false, n⟩ :: post) ↔
    NoAdjFree post ∧ ∀ b ∈ post.head?, b.used = true := by
  unfold NoAdjFree
  rw [isChain_cons, and_comm]
  simp

end Neighbours

/-! ## Runs of free blocks

A merge replaces a run of free blocks by one free block, which starts where the run did.
-/

variable {n a : ℕ} {a : ℕ}

section Coalesce

variable {pre post : List Blk}

/-- Where a free block or the end lies after the free blocks `f₁`, `f₂` around a free block are
merged into it: addresses inside the merged block become its own. -/
theorem FreeOrEnd.coalesce (pre post : List Blk) {f₁ f₂ : List Blk}
    (hpos : ∀ b ∈ f₁ ++ ⟨false, n⟩ :: f₂, 0 < b.size)
    (h : FreeOrEnd (pre ++ (f₁ ++ ⟨false, n⟩ :: f₂) ++ post) a) :
    FreeOrEnd (pre ++ ⟨false, total f₁ + n + total f₂⟩ :: post)
      (if total pre ≤ a ∧ a < total pre + (total f₁ + n + total f₂) then total pre else a) := by
  split_ifs with hin
  · exact .inr ⟨total f₁ + n + total f₂, by simp⟩
  · rcases h with rfl | ⟨k, hk⟩
    · left
      simp only [total_append, total_cons]
      omega
    · right
      simp only [place_append, mem_append, total_append, total_cons, zero_add] at hk
      refine ⟨k, ?_⟩
      simp only [place_append, place_cons, mem_append, mem_cons, zero_add]
      rcases hk with (hk | hk) | hk
      · exact .inl hk
      · exfalso
        have hb : a ∈ Set.Ico (total pre) (total pre + (total f₁ + n + total f₂)) := by
          have hk' : (a, (⟨false, k⟩ : Blk)) ∈ place (total pre) (f₁ ++ ⟨false, n⟩ :: f₂) := by
            simpa using hk
          have h1 := place_bounds hk'
          have h2 := hpos _ (mem_of_mem_place hk')
          simp only [total_append, total_cons] at h1 h2
          exact ⟨h1.1, by omega⟩
        exact hin hb
      · refine .inr (.inr ?_)
        rwa [add_assoc (total f₁)]

/-- An edit of the middle keeps a free block or the end outside of it. -/
theorem FreeOrEnd.splice {old new : List Blk} (h : FreeOrEnd (pre ++ old ++ post) a)
    (htotal : total new = total old) (hout : a < total pre ∨ total pre + total old ≤ a)
    (hpos : ∀ b ∈ old, 0 < b.size) : FreeOrEnd (pre ++ new ++ post) a := by
  rcases h with rfl | ⟨k, hk⟩
  · left
    simp [htotal]
  · right
    refine ⟨k, ?_⟩
    rw [mem_place_mid] at hk ⊢
    rw [htotal]
    rcases hk with hk | hk | hk
    · exact .inl hk
    · have h1 := place_bounds hk
      have h2 := hpos _ (mem_of_mem_place hk)
      simp only at h1 h2
      omega
    · exact .inr (.inr hk)

end Coalesce

/-! ## Blocks in use and free blocks -/

section InUse

variable {pre old new post bs xs ys : List Blk} {o a n : ℕ}

/-- The blocks in use after an edit of the middle, from those among the blocks replaced: the block
at `gone` is no longer in use, and the block `fresh` is, where there was none that stays. -/
theorem inUse_splice {gone : Option ℕ} {fresh : Option (ℕ × Blk)} (post : List Blk)
    (hpos : ∀ b ∈ pre ++ new, 0 < b.size) (htotal : total new = total old)
    (hgone : ∀ x ∈ place (o + total pre) old, x.2.used = true → x.1 ∈ gone)
    (hin : ∀ q ∈ gone, o + total pre ≤ q ∧ q < o + total pre + total old)
    (hnew : ∀ x, x ∈ place (o + total pre) new ∧ x.2.used = true ↔ x ∈ fresh) :
    (∀ x, x ∈ place o (pre ++ new ++ post) ∧ x.2.used = true ↔
      (x ∈ place o (pre ++ old ++ post) ∧ x.2.used = true) ∧ x.1 ∉ gone ∨ x ∈ fresh) ∧
    ∀ x ∈ fresh, ∀ y, y ∈ place o (pre ++ old ++ post) ∧ y.2.used = true → y.1 ∉ gone →
      y.1 ≠ x.1 := by
  have hsplit : ∀ (mid : List Blk) (x : ℕ × Blk), x ∈ place o (pre ++ mid ++ post) ↔
      x ∈ place o pre ∨ x ∈ place (o + total pre) mid ∨
        x ∈ place (o + total pre + total mid) post := fun mid x => by
    simp [add_assoc]
  -- The blocks before and after the edit lie outside of it.
  have hbefore : ∀ x ∈ place o pre, x.1 < o + total pre := fun x hx => by
    have := (place_bounds hx).2
    have := hpos x.2 (by simp [mem_of_mem_place hx])
    omega
  have hafter : ∀ x ∈ place (o + total pre + total old) post, o + total pre + total old ≤ x.1 :=
    fun x hx => (place_bounds hx).1
  have hkept : ∀ x, (x ∈ place o (pre ++ old ++ post) ∧ x.2.used = true) ∧ x.1 ∉ gone ↔
      (x ∈ place o pre ∨ x ∈ place (o + total pre + total old) post) ∧ x.2.used = true := by
    intro x
    rw [hsplit]
    constructor
    · rintro ⟨⟨hx | hx | hx, hu⟩, hng⟩
      · exact ⟨.inl hx, hu⟩
      · exact absurd (hgone x hx hu) hng
      · exact ⟨.inr hx, hu⟩
    · rintro ⟨hx | hx, hu⟩
      · refine ⟨⟨.inl hx, hu⟩, fun hg => ?_⟩
        have := hin x.1 hg
        have := hbefore x hx
        omega
      · refine ⟨⟨.inr (.inr hx), hu⟩, fun hg => ?_⟩
        have := hin x.1 hg
        have := hafter x hx
        omega
  constructor
  · intro x
    rw [hkept, ← hnew, hsplit, htotal]
    tauto
  · intro x hx y hy hg
    have hxm := (hnew x).mpr hx
    have hbx := place_bounds hxm.1
    have hsx := hpos x.2 (by simp [mem_of_mem_place hxm.1])
    rcases ((hkept y).mp ⟨hy, hg⟩).1 with hy | hy
    · have := hbefore y hy
      omega
    · have := hafter y hy
      omega

end InUse

/-! ## Headers and the areas between them -/

section Headers

variable {bs pre post : List Blk} {o : ℕ}

theorem mem_headers_of_mem_place (h : x ∈ place o bs) : x.1 ∈ headers o bs :=
  mem_append_left _ (mem_map_of_mem h)

theorem mem_headers_cut (pre : List Blk) (b : Blk) (post : List Blk) :
    total pre ∈ headers 0 (pre ++ b :: post) :=
  mem_headers_of_mem_place (x := (total pre, b)) (by simp)

theorem mem_headers_after_cut (pre : List Blk) (b : Blk) (post : List Blk) :
    total pre + b.size ∈ headers 0 (pre ++ b :: post) := by
  cases post with
  | nil => simp [headers]
  | cons c post => exact mem_headers_of_mem_place (x := (total pre + b.size, c)) (by simp)

theorem headers_merge_subset {f : List Blk} {u v : Bool}
    (h : a ∈ headers o (pre ++ ⟨u, n + total f⟩ :: post)) :
    a ∈ headers o (pre ++ ⟨v, n⟩ :: (f ++ post)) := by
  simp only [headers, place_append, place_cons, map_append, map_cons, mem_append,
    mem_cons, total_append, total_cons, not_mem_nil, or_false, add_assoc] at h ⊢
  rcases h with (h | h | h) | h
  · exact .inl (.inl h)
  · exact .inl (.inr (.inl h))
  · exact .inl (.inr (.inr (.inr h)))
  · exact .inr h

/-- A header lies at or before a block, or after it. -/
theorem header_le_or_ge (ha : a ∈ headers o bs) (hx : x ∈ place o bs) :
    a ≤ x.1 ∨ x.1 + x.2.size ≤ a := by
  rw [headers, mem_append, mem_map, mem_singleton] at ha
  rcases ha with ⟨y, hy, rfl⟩ | rfl
  · by_cases hne : y.1 = x.1
    · exact .inl hne.le
    · rcases place_disjoint hy hx hne with h | h
      · exact .inl (by omega)
      · exact .inr h
  · have := (place_bounds hx).2
    exact .inr (by omega)

theorem FreeOrEnd.free (h : FreeOrEnd (pre ++ ⟨true, n⟩ :: post) a) :
    FreeOrEnd (pre ++ ⟨false, n⟩ :: post) a := by
  simp only [FreeOrEnd, total_append, total_cons, place_append, place_cons, mem_append,
    mem_cons, Prod.mk.injEq, Blk.mk.injEq, Bool.false_eq_true, false_and, and_false,
    false_or] at h ⊢
  rcases h with h | ⟨k, h | h⟩
  · exact .inl h
  · exact .inr ⟨k, .inl h⟩
  · exact .inr ⟨k, .inr (.inr h)⟩

/-- A free block's address or the end, if it lies in a block, is that block's. -/
theorem FreeOrEnd.eq_of_mem (h : FreeOrEnd bs a) (hx : x ∈ place 0 bs)
    (hle : x.1 ≤ a) (hlt : a < x.1 + x.2.size) : a = x.1 := by
  have ha : a ∈ headers 0 bs := by
    rcases h with rfl | ⟨n, hn⟩
    · simp [headers]
    · exact mem_headers_of_mem_place hn
  have := header_le_or_ge ha hx
  omega

end Headers

/-! ## Header fields -/

/-- The header fields of the blocks, read at a block's address. -/
structure Fields where
  /-- The address of the next block. -/
  next : ℕ → ℕ
  /-- The address of the previous block. -/
  prev : ℕ → ℕ
  /-- Whether the block is in use, if the header is well formed. -/
  flag : ℕ → Option Bool

/-- The fields hold the blocks `bs`, laid out from `o` on, after a block at `p`. -/
def Linked (F : Fields) : ℕ → ℕ → List Blk → Prop
  | _, _, [] => True
  | p, o, b :: bs =>
    F.flag o = some b.used ∧ F.next o = o + b.size ∧ F.prev o = p ∧ Linked F o (o + b.size) bs

/-- The address of the last block of `bs` laid out from `o` on, and `p` if there is none. -/
def lastAddr : ℕ → ℕ → List Blk → ℕ
  | p, _, [] => p
  | _, o, b :: bs => lastAddr o (o + b.size) bs

section Linked

variable {F F' : Fields} {p o : ℕ} {bs xs ys : List Blk} {b : Blk}

@[simp] theorem linked_nil : Linked F p o [] := trivial

@[simp] theorem linked_cons : Linked F p o (b :: bs) ↔
    F.flag o = some b.used ∧ F.next o = o + b.size ∧ F.prev o = p ∧ Linked F o (o + b.size) bs :=
  .rfl

@[simp] theorem lastAddr_nil : lastAddr p o [] = p := rfl

@[simp] theorem lastAddr_cons : lastAddr p o (b :: bs) = lastAddr o (o + b.size) bs := rfl

@[simp] theorem lastAddr_append :
    lastAddr p o (xs ++ ys) = lastAddr (lastAddr p o xs) (o + total xs) ys := by
  induction xs generalizing p o with
  | nil => simp
  | cons b xs ih => simp [ih, add_assoc]

/-- The last block's address is that of a placed block, or the given one if there is none. -/
theorem lastAddr_eq (p o : ℕ) (bs : List Blk) : bs = [] ∧ lastAddr p o bs = p ∨
      ∃ pre b, bs = pre ++ [b] ∧ lastAddr p o bs = o + total pre := by
  rcases eq_nil_or_concat' bs with rfl | ⟨pre, b, rfl⟩
  · exact .inl ⟨rfl, rfl⟩
  · exact .inr ⟨pre, b, rfl, by simp⟩

theorem linked_append : Linked F p o (xs ++ ys) ↔
    Linked F p o xs ∧ Linked F (lastAddr p o xs) (o + total xs) ys := by
  induction xs generalizing p o with
  | nil => simp
  | cons b xs ih => simp [ih, add_assoc, and_assoc]

theorem Linked.at_mem (h : Linked F p o bs) (hx : x ∈ place o bs) :
    F.flag x.1 = some x.2.used ∧ F.next x.1 = x.1 + x.2.size := by
  induction bs generalizing p o with
  | nil => simp at hx
  | cons b bs ih =>
    obtain ⟨hf, hn, -, hrest⟩ := h
    rw [place_cons, mem_cons] at hx
    rcases hx with rfl | hx
    · exact ⟨hf, hn⟩
    · exact ih hrest hx

/-- Following the next fields from the first block on, one reaches the end through increasing
addresses, which lie apart by the least size `w` of a block. -/
theorem Linked.isChain_next {w : ℕ} (h : Linked F p o bs) (hw : ∀ b ∈ bs, w ≤ b.size) :
    ((place o bs).map Prod.fst ++ [o + total bs]).IsChain fun a b => F.next a = b ∧ a + w ≤ b := by
  induction bs generalizing p o with
  | nil => simp
  | cons b bs ih =>
    obtain ⟨-, hn, -, hrest⟩ := h
    have hb := hw b mem_cons_self
    have := ih hrest fun c hc => hw c (mem_cons_of_mem _ hc)
    rw [place_cons, map_cons, cons_append, isChain_cons, total_cons, ← add_assoc]
    refine ⟨fun y hy => ?_, this⟩
    have hy : y = o + b.size := by
      cases bs with
      | nil => simpa [eq_comm] using hy
      | cons c bs => simpa [eq_comm] using hy
    rw [hy]
    exact ⟨hn, by omega⟩

/-- Of two neighbours, the flag of one says that it is in use. -/
theorem Linked.isChain_flag (h : Linked F p o bs) (hadj : NoAdjFree bs) :
    ((place o bs).map Prod.fst).IsChain fun a b => F.flag a = some true ∨ F.flag b = some true := by
  induction bs generalizing p o with
  | nil => simp
  | cons b bs ih =>
    obtain ⟨hf, -, -, hrest⟩ := h
    unfold NoAdjFree at hadj
    rw [isChain_cons] at hadj
    rw [place_cons, map_cons, isChain_cons]
    refine ⟨fun y hy => ?_, ih hrest hadj.2⟩
    cases bs with
    | nil => simp at hy
    | cons c bs =>
      obtain ⟨hfc, -⟩ := hrest
      have hy : y = o + b.size := by simpa [eq_comm] using hy
      rcases hadj.1 c (by simp) with hb | hc
      · exact .inl (by rw [hf, hb])
      · exact .inr (by rw [hy, hfc, hc])

/-- The size of the blocks in use, from the fields. -/
theorem Linked.usedTotal_eq (h : Linked F p o bs) :
    usedTotal bs = ((((place o bs).map Prod.fst).filter fun a => F.flag a = some true).map
      fun a => F.next a - a).sum := by
  induction bs generalizing p o with
  | nil => rfl
  | cons b bs ih =>
    obtain ⟨hf, hn, -, hrest⟩ := h
    obtain ⟨u, n⟩ := b
    have := ih hrest
    cases u with
    | false =>
      rw [usedTotal_cons_false, this]
      simp [hf]
    | true =>
      rw [usedTotal_cons_true, this]
      simp [hf, hn]

/-- The fields of one block are the same in `F` and `F'`. -/
def AgreeAt (F F' : Fields) (x : ℕ) : Prop :=
  F'.flag x = F.flag x ∧ F'.next x = F.next x ∧ F'.prev x = F.prev x

theorem Linked.congr (h : Linked F p o bs) (hag : ∀ x ∈ place o bs, AgreeAt F F' x.1) :
    Linked F' p o bs := by
  induction bs generalizing p o with
  | nil => trivial
  | cons b bs ih =>
    obtain ⟨hf, hn, hp, hrest⟩ := h
    obtain ⟨ef, en, ep⟩ := hag (o, b) (by simp)
    exact ⟨ef.trans hf, en.trans hn, ep.trans hp,
      ih hrest fun x hx => hag x (mem_cons_of_mem _ hx)⟩

/-- The blocks after an edit: unchanged but for the back link of the first one. -/
theorem Linked.relink {p' : ℕ} (h : Linked F p o bs)
    (hag : ∀ x ∈ place o bs, F'.flag x.1 = F.flag x.1 ∧ F'.next x.1 = F.next x.1)
    (hprev : ∀ x ∈ (place o bs).tail, F'.prev x.1 = F.prev x.1)
    (hhead : bs ≠ [] → F'.prev o = p') : Linked F' p' o bs := by
  cases bs with
  | nil => trivial
  | cons b bs =>
    obtain ⟨hf, hn, -, hrest⟩ := h
    obtain ⟨ef, en⟩ := hag (o, b) (by simp)
    refine ⟨ef.trans hf, en.trans hn, hhead (by simp), hrest.congr fun x hx => ?_⟩
    obtain ⟨e1, e2⟩ := hag x (mem_cons_of_mem _ hx)
    exact ⟨e1, e2, hprev x hx⟩

/-- The rule for an edit in the middle: the blocks `old` are replaced by `new`, which tile the same
interval. The fields before the edit are unchanged, the new blocks are linked, and the fields after
it are unchanged but for the back link of the first block there. -/
theorem Linked.splice {pre old new post : List Blk} (h : Linked F p o (pre ++ old ++ post))
    (htotal : total new = total old) (hpre : ∀ x ∈ place o pre, AgreeAt F F' x.1)
    (hnew : Linked F' (lastAddr p o pre) (o + total pre) new)
    (hpost : ∀ x ∈ place (o + total pre + total old) post,
      F'.flag x.1 = F.flag x.1 ∧ F'.next x.1 = F.next x.1)
    (hprev : ∀ x ∈ (place (o + total pre + total old) post).tail, F'.prev x.1 = F.prev x.1)
    (hhead : post ≠ [] → F'.prev (o + total pre + total old) =
      lastAddr (lastAddr p o pre) (o + total pre) new) : Linked F' p o (pre ++ new ++ post) := by
  rw [linked_append, linked_append] at h ⊢
  obtain ⟨⟨h1, -⟩, h3⟩ := h
  refine ⟨⟨h1.congr hpre, hnew⟩, ?_⟩
  rw [total_append, ← add_assoc] at h3 ⊢
  rw [htotal, lastAddr_append]
  exact h3.relink hpost hprev hhead

end Linked

end RtThread.Lib
