import RtThread.Lib.Run
import RtThread.Mem.Plug

/-!
# `rt_free` gives a block back

On a block in use `rt_free` passes its assertions, marks the block unused, and plugs the holes on
both sides. The blocks in use afterwards are those before without the one freed, and the bytes of
their user areas are untouched, since only headers are written.
-/

namespace RtThread.Mem

open Lib List Bytes

variable {s s' : Heap} {bs bs' pre post : List Blk} {n : ℕ}

/-! ## User areas -/

/-- A block in use, with its offset. -/
def InUse (bs : List Blk) (x : ℕ × Blk) : Prop := x ∈ place 0 bs ∧ x.2.used = true

/-- The bytes of the user area of `x` are the same in `m` and `m'`. -/
def SameArea (x : ℕ × Blk) (m m' : Bytes) : Prop :=
  ∀ a, x.1 + 12 ≤ a → a < x.1 + x.2.size → m' a = m a

theorem SameArea.refl (x : ℕ × Blk) (m : Bytes) : SameArea x m m := fun _ _ _ => rfl

theorem SameArea.trans {x : ℕ × Blk} {m m' m'' : Bytes} (h : SameArea x m m')
    (h' : SameArea x m' m'') : SameArea x m m'' :=
  fun a h1 h2 => (h' a h1 h2).trans (h a h1 h2)

theorem sameArea_of_sameOff {x : ℕ × Blk} {m m' : Bytes}
    (h : Bytes.SameOff 12 (headers 0 bs ++ headers 0 bs') m m') (hx : x ∈ place 0 bs)
    (hx' : x ∈ place 0 bs') : SameArea x m m' := by
  intro a h1 h2
  refine h a fun y hy => ?_
  have hle : y ≤ x.1 ∨ x.1 + x.2.size ≤ y := by
    rw [mem_append] at hy
    rcases hy with hy | hy
    · exact header_le_or_ge hy hx
    · exact header_le_or_ge hy hx'
  omega

/-- What an operation does to the blocks in use: the block at `gone` is no longer in use, the block
`new` is, and the user areas of the others are untouched. -/
structure Effect (s : Heap) (bs : List Blk) (s' : Heap) (bs' : List Blk) (gone : Option ℕ)
    (new : Option (ℕ × Blk)) : Prop where
  /-- The invariant holds again. -/
  inv : Inv s' bs'
  /-- The heap stays where it is. -/
  bounds : SameBounds s s'
  /-- The blocks in use afterwards. -/
  inUse_iff : ∀ x, InUse bs' x ↔ InUse bs x ∧ x.1 ∉ gone ∨ x ∈ new
  /-- The new block is none of the others. -/
  fresh : ∀ x ∈ new, ∀ y, InUse bs y → y.1 ∉ gone → y.1 ≠ x.1
  /-- The user areas of the others are as before. -/
  same : ∀ x, InUse bs x → x.1 ∉ gone → SameArea x s.mem s'.mem

theorem Effect.refl (h : Inv s bs) : Effect s bs s bs none none :=
  ⟨h, SameBounds.refl s, by simp, by simp, fun x _ _ => SameArea.refl x s.mem⟩

theorem Effect.of_splice {old new : List Blk} {gone : Option ℕ} {newBlk : Option (ℕ × Blk)}
    (h' : Inv s' (pre ++ new ++ post)) (hb : SameBounds s s') (htotal : total new = total old)
    (hgone : ∀ x ∈ place (total pre) old, x.2.used = true → x.1 ∈ gone)
    (hin : ∀ q ∈ gone, total pre ≤ q ∧ q < total pre + total old)
    (hnew : ∀ x, x ∈ place (total pre) new ∧ x.2.used = true ↔ x ∈ newBlk)
    (hsame : ∀ x, InUse (pre ++ old ++ post) x → InUse (pre ++ new ++ post) x →
      SameArea x s.mem s'.mem) :
    Effect s (pre ++ old ++ post) s' (pre ++ new ++ post) gone newBlk := by
  have hpos : ∀ b ∈ pre ++ new, 0 < b.size := fun b hb => by
    have := h'.size_ge b (mem_append_left _ hb)
    omega
  obtain ⟨hiff, hfresh⟩ := inUse_splice (o := 0) post hpos htotal (by simpa using hgone)
    (by simpa using hin) (by simpa using hnew)
  exact ⟨h', hb, hiff, hfresh, fun x hx hg => hsame x hx ((hiff x).mpr (Or.inl ⟨hx, hg⟩))⟩

/-- `lfree` lies at or below every free block. -/
def Lowest (s : Heap) (bs : List Blk) : Prop :=
  ∀ x ∈ place 0 bs, x.2.used = false → s.lfree ≤ x.1

/-! ## `rt_free` -/

/-- The heap of `rt_free` before it plugs the holes. -/
def markFree (s : Heap) (q : ℕ) : Heap :=
  let m := setMagic (setUsed s.mem q 0) q HEAP_MAGIC
  { s with mem := m, lfree := if q < s.lfree then q else s.lfree,
           usedMem := sub32 s.usedMem (sub32 (next m q) q) }

theorem markFree_sameOff (s : Heap) (q : ℕ) : Bytes.SameOff 12 [q] s.mem (markFree s q).mem := by
  intro a ha
  have := ha q (by simp)
  simp only [markFree, setMagic, setUsed]
  rw [store_apply_of_out (by omega), store_apply_of_out (by omega)]

/-- Marking a block unused keeps the chain. -/
theorem Chain.markFree (h : Chain s (pre ++ ⟨true, n⟩ :: post)) :
    Chain (markFree s (total pre)) (pre ++ ⟨false, n⟩ :: post) := by
  obtain ⟨hf, hn, hp, hn12, hn4, -, htot⟩ := h.cut
  have hlt := h.end_lt
  have hspl : Chain s (pre ++ [⟨true, n⟩] ++ post) := by simpa using h
  have hold : total [(⟨true, n⟩ : Blk)] = n := by simp
  have hnext : next (setMagic (setUsed s.mem (total pre) 0) (total pre) HEAP_MAGIC) (total pre)
      = total pre + n := by
    rw [← hn]
    simp (disch := omega) only [next, setMagic, setUsed, load_store_of_disjoint]
  have hprev : prev (setMagic (setUsed s.mem (total pre) 0) (total pre) HEAP_MAGIC) (total pre)
      = lastAddr 0 0 pre := by
    rw [← hp]
    simp (disch := omega) only [prev, setMagic, setUsed, load_store_of_disjoint]
  have hres := hspl.edit [⟨false, n⟩] (Mem.markFree s (total pre)).lfree
    (Mem.markFree s (total pre)).usedMem s.maxMem (Mem.markFree s (total pre)).mem
    ?confined (by simp) ?sizes ?linked ?back ?used
  · simpa [Mem.markFree] using hres
  case confined =>
    intro a ha
    rw [hold] at ha
    exact markFree_sameOff s (total pre) a (by simp; omega)
  case sizes => simpa using ⟨hn12, hn4⟩
  case linked =>
    refine linked_cons.mpr ⟨flag_eq_false.mpr ⟨?_, ?_⟩, hnext, hprev, trivial⟩
    · exact magic_setMagic
    · rw [Mem.markFree, used, setMagic, load_store_of_disjoint (by omega)]
      exact used_setUsed (by norm_num)
  case back =>
    intro hne
    refine Eq.trans ?_ (h.cut_back hne)
    rw [hold]
    simp (disch := omega) only [Mem.markFree, prev, setMagic, setUsed, load_store_of_disjoint]
  case used =>
    have hle := usedTotal_le_total (pre ++ ⟨true, n⟩ :: post)
    have hu := h.used_eq
    have ht := h.total_eq
    simp only [usedTotal_append, usedTotal_cons_true, usedTotal_cons_false, usedTotal_nil,
      Mem.markFree, hnext] at hle hu ⊢
    have hsize : sub32 (total pre + n) (total pre) = n := by
      rw [sub32_eq (by omega) (by omega)]
      omega
    rw [hsize, sub32_eq (by omega) (by omega)]
    omega

theorem rtFree_eq {q : ℕ} (halign : (s.heapPtr + (q + 12)) % 4 = 0) (hlt : q + 12 < s.heapEnd)
    (hused : used s.mem q = 1) (hmagic : magic s.mem q = HEAP_MAGIC) :
    rtFree s (some (q + 12)) = plugHoles (markFree s q) q := by
  have halign' : (s.heapPtr + (q + 12)) % RT_ALIGN_SIZE = 0 := halign
  simp only [rtFree, sizeof_eq, Nat.add_sub_cancel]
  simp [guard_pos, halign', hlt, hused, hmagic, markFree]

/-- `rt_free` on a block in use merges it with the free blocks `f₁` before and `f₂` after it. -/
theorem rtFree_spec (h : Inv s (pre ++ ⟨true, n⟩ :: post)) :
    ∃ s' pre' f₁ f₂ post', rtFree s (some (total pre + 12)) = some s' ∧
      pre = pre' ++ f₁ ∧ post = f₂ ++ post' ∧
      (∀ b ∈ f₁, b.used = false) ∧ (∀ b ∈ f₂, b.used = false) ∧
      Inv s' (pre' ++ ⟨false, total f₁ + n + total f₂⟩ :: post') ∧
      s'.lfree = plugLfree (total pre') (total pre + n + total f₂) (min (total pre) s.lfree) ∧
      SameBounds s s' ∧ Bytes.SameOff 12 (headers 0 (pre ++ ⟨true, n⟩ :: post)) s.mem s'.mem := by
  obtain ⟨hf, -, -, -, -, ho4, htot⟩ := h.cut
  have hn16 : 16 ≤ n := h.used_ge ⟨true, n⟩ (by simp) rfl
  have hp4 := h.ptr_dvd
  obtain ⟨hmagic, hused⟩ := flag_eq_true.mp hf
  obtain ⟨hpre, hpost⟩ := noAdjFree_used.mp h.noAdj
  have hmin : (markFree s (total pre)).lfree = min (total pre) s.lfree := by
    simp only [markFree]
    split_ifs <;> omega
  have hlf : FreeOrEnd (pre ++ ⟨false, n⟩ :: post) (markFree s (total pre)).lfree := by
    rw [hmin]
    rcases Nat.le_total (total pre) s.lfree with hle | hle
    · rw [min_eq_left hle]
      exact Or.inr ⟨n, by simp⟩
    · rw [min_eq_right hle]
      exact h.lfree_ok.free
  obtain ⟨s', pre', f₁, f₂, post', hs', rfl, rfl, hf₁, hf₂, hinv, hlf', hb, hm⟩ :=
    plugHoles_spec h.toChain.markFree hpre hpost hlf
  refine ⟨s', pre', f₁, f₂, post', ?_, rfl, rfl, hf₁, hf₂, hinv, ?_, ?_, ?_⟩
  · rw [← hs']
    exact rtFree_eq (by omega) (by omega) hused hmagic
  · rw [hlf', hmin]
  · exact ⟨hb.ptr_eq, hb.end_eq, hb.size_eq⟩
  · refine ((markFree_sameOff s (total (pre' ++ f₁))).trans hm).mono fun a ha => ?_
    rw [mem_append, mem_singleton] at ha
    rcases ha with rfl | ha
    · exact mem_headers_cut _ _ _
    · simpa [headers] using ha

/-- The effect of `rt_free` on a block in use. If `lfree` was the lowest free block it is so again.
-/
theorem rtFree_effect {q : ℕ} (h : Inv s bs) (hq : (q, ⟨true, n⟩) ∈ place 0 bs) :
    ∃ s' bs', rtFree s (some (q + 12)) = some s' ∧ Effect s bs s' bs' (some q) none ∧
      (Lowest s bs → Lowest s' bs') := by
  obtain ⟨pre, post, rfl, hpre⟩ := exists_of_mem_place hq
  simp only [Nat.zero_add] at hpre
  subst hpre
  obtain ⟨s', pre', f₁, f₂, post', hs', rfl, rfl, hf₁, hf₂, hinv, hlf, hb, hm⟩ := rtFree_spec h
  have hn : 12 ≤ n := h.size_ge ⟨true, n⟩ (by simp)
  have heq : (pre' ++ f₁) ++ ⟨true, n⟩ :: (f₂ ++ post') = pre' ++ (f₁ ++ ⟨true, n⟩ :: f₂) ++ post' := by
    simp
  have hold : total (f₁ ++ ⟨true, n⟩ :: f₂) = total f₁ + n + total f₂ := by
    simp [Nat.add_assoc]
  rw [heq] at h hm ⊢
  refine ⟨s', pre' ++ [⟨false, total f₁ + n + total f₂⟩] ++ post', hs', ?_, ?_⟩
  · have hinv' : Inv s' (pre' ++ [⟨false, total f₁ + n + total f₂⟩] ++ post') := by simpa using hinv
    refine Effect.of_splice hinv' hb (by simp [hold]) ?_ ?_ ?_ ?_
    · -- The only block in use among those merged is the one freed.
      intro x hx hu
      have e1 := not_mem_place_of_unused (o := total pre') hf₁ hu
      have e2 := not_mem_place_of_unused (o := total pre' + total f₁ + n) hf₂ hu
      simp only [place_append, place_cons, mem_append, mem_cons, e1, e2, or_false,
        false_or] at hx
      simp [hx]
    · simp only [Option.mem_def, Option.some.injEq, forall_eq', total_append, total_cons]
      omega
    · simp
    · intro x hx hx'
      exact sameArea_of_sameOff (hm.mono fun a ha => mem_append_left _ ha) hx.1 hx'.1
  · intro hlow x hx hfree
    rw [hlf, plugLfree, total_append]
    simp only [append_assoc, singleton_append] at hx
    simp only [place_append, place_cons, mem_append, mem_cons, Nat.zero_add] at hx
    rcases hx with hx | rfl | hx
    · have h2 := hlow x (by simp [hx]) hfree
      split_ifs <;> omega
    · simp only
      split_ifs <;> omega
    · have := (place_bounds hx).1
      split_ifs <;> omega

end RtThread.Mem
