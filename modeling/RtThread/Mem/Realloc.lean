import RtThread.Mem.Malloc

/-!
# `rt_realloc` keeps, shrinks, or moves a block

A block that has the new size already is kept. A block that is larger by more than two headers is
split in place, and the part split off is merged with the free block after it, if there is one. In
every other case the contents move to a new block and the old one is freed.
-/

namespace RtThread.Mem

open Lib List Option

variable {s s' : Heap} {pre post bs : List Blk} {n k size : ℕ}

/-! ## Writing to a user area -/

variable {m : Bytes}

theorem Inv.of_bytes (h : Inv s bs)
    (hm : ∀ y ∈ headers 0 bs, ∀ a, y ≤ a → a < y + 12 → m a = s.mem a) :
    Inv { s with mem := m } bs := by
  have hend : s.heapEnd ∈ headers 0 bs := by
    rw [← h.total_eq]
    simp [headers]
  refine ⟨⟨?_, h.total_eq, h.size_ge, h.size_dvd, h.used_ge, ?_, ?_, h.end_eq, h.end_lt, h.ptr_dvd,
    h.used_eq⟩, h.noAdj, h.lfree_ok⟩
  · exact h.linked.congr fun x hx => agreeAt_of_bytes (hm x.1 (mem_headers_of_mem_place hx))
  · change used m s.heapEnd = 1
    exact Eq.trans (Bytes.load_congr fun a _ _ => hm _ hend a (by omega) (by omega)) h.end_used
  · change next m s.heapEnd = s.heapEnd
    exact Eq.trans (Bytes.load_congr fun a _ _ => hm _ hend a (by omega) (by omega)) h.end_next

theorem Inv.write {x : ℕ × Blk} (h : Inv s bs) (hx : x ∈ place 0 bs)
    (hm : ∀ a, a < x.1 + 12 ∨ x.1 + x.2.size ≤ a → m a = s.mem a) : Inv { s with mem := m } bs := by
  refine h.of_bytes fun y hy a _ _ => hm a ?_
  have := header_le_or_ge hy hx
  omega

theorem sameArea_of_write {m' : Bytes} {x y : ℕ × Blk} (hx : x ∈ place 0 bs) (hy : y ∈ place 0 bs)
    (hne : x.1 ≠ y.1) (hm : ∀ a, a < x.1 + 12 ∨ x.1 + x.2.size ≤ a → m' a = m a) :
    SameArea y m m' := by
  intro a _ _
  refine hm a ?_
  have := place_disjoint hx hy hne
  omega

theorem Effect.writeNew {s₁ : Heap} {bs₁ : List Blk} {gone : Option ℕ} {x : ℕ × Blk}
    (he : Effect s bs s₁ bs₁ gone (some x))
    (hm : ∀ a, a < x.1 + 12 ∨ x.1 + x.2.size ≤ a → m a = s₁.mem a) :
    Effect s bs { s₁ with mem := m } bs₁ gone (some x) := by
  have hx : InUse bs₁ x := (he.inUse_iff x).mpr (.inr rfl)
  refine ⟨he.inv.write hx.1 hm, ⟨he.bounds.ptr_eq, he.bounds.end_eq, he.bounds.size_eq⟩,
    he.inUse_iff, he.fresh, fun y hy hg => ?_⟩
  have hy₁ : InUse bs₁ y := (he.inUse_iff y).mpr (.inl ⟨hy, hg⟩)
  have hne : x.1 ≠ y.1 := (he.fresh x rfl y hy hg).symm
  exact (he.same y hy hg).trans (sameArea_of_write hx.1 hy₁.1 hne hm)

/-! ## Shrinking in place -/

/-- The heap of `rt_realloc` after it split the block, before it plugs the hole. -/
def shrunk (s : Heap) (o k e usedMem : ℕ) : Heap :=
  { s with mem := linkBack (splitBytes s.mem o k e) s.heapEnd e (o + k), usedMem := usedMem }

/-- Shrinking splits the block and plugs the hole. -/
theorem reallocShrink_eq (h : Chain s (pre ++ ⟨true, n⟩ :: post)) (hroom : size + 36 < n) :
    reallocShrink s (total pre) (n - 12) size
      = plugHoles (shrunk s (total pre) (size + 12) (total pre + n) (s.usedMem - (n - (size + 12))))
          (total pre + (size + 12)) := by
  obtain ⟨-, hn, -, -, -, -, htot⟩ := h.cut
  have hlt := h.end_lt
  have hend := h.end_eq
  have hu : n ≤ s.usedMem ∧ s.usedMem ≤ s.heapEnd := by
    have h1 := usedTotal_le_total (pre ++ ⟨true, n⟩ :: post)
    have h2 := h.used_eq
    have h3 := h.total_eq
    simp only [usedTotal_append, usedTotal_cons_true] at h1 h2
    omega
  have e1 : add32 (add32 (total pre) 12) size = total pre + (size + 12) := by
    rw [add32_eq (a := total pre) (by omega), add32_eq (by omega)]
    omega
  have e2 : add32 s.memSizeAligned 12 = s.heapEnd := by rw [add32_eq (by omega), hend]
  have e3 : sub32 s.usedMem (sub32 (n - 12) size) = s.usedMem - (n - (size + 12)) := by
    rw [sub32_eq (a := n - 12) (by omega) (by omega), sub32_eq (by omega) (by omega)]
    omega
  have r1 : next (setUsed (setMagic s.mem (total pre + (size + 12)) HEAP_MAGIC)
      (total pre + (size + 12)) 0) (total pre) = total pre + n := by
    refine Eq.trans ?_ hn
    simp (disch := omega) only [next, setMagic, setUsed, Bytes.load_store_of_disjoint]
  have r2 := (splitBytes_new (m := s.mem) (o := total pre) (k := size + 12) (e := total pre + n)
    (by omega) (by omega) (by omega)).2.1
  unfold reallocShrink shrunk linkBack
  simp only [sizeof_eq, e1, e2, e3, r1]
  unfold splitBytes at r2 ⊢
  simp only [r2]

theorem shrunk_sameOff (s : Heap) (o k e u : ℕ) :
    Bytes.SameOff 12 [o, o + k, e] s.mem (shrunk s o k e u).mem := by
  intro a ha
  have h1 := ha o (by simp)
  have h2 := ha (o + k) (by simp)
  have h3 := ha e (by simp)
  simp only [shrunk]
  rw [linkBack_apply (by omega)]
  exact splitBytes_sameOff s.mem o k e a (by simp; omega)

theorem Chain.shrunk (h : Chain s (pre ++ ⟨true, n⟩ :: post)) (h4 : 4 ≤ size) (hdvd : 4 ∣ size)
    (hroom : size + 36 < n) :
    Chain (shrunk s (total pre) (size + 12) (total pre + n) (s.usedMem - (n - (size + 12))))
      (pre ++ ⟨true, size + 12⟩ :: ⟨false, n - (size + 12)⟩ :: post) := by
  obtain ⟨hf, -, hp, -, -, -, htot⟩ := h.cut
  have hlt := h.end_lt
  obtain ⟨hmagic, hused⟩ := flag_eq_true.mp hf
  obtain ⟨hm1, hm2, hm3, hm4⟩ := splitBytes_old (m := s.mem) (o := total pre) (k := size + 12)
    (e := total pre + n) (by omega) (by omega)
  obtain ⟨hn1, hn2, hn3⟩ := splitBytes_new (m := s.mem) (o := total pre) (k := size + 12)
    (e := total pre + n) (by omega) (by omega) (by omega)
  obtain ⟨l1, l2, l3⟩ := linkBack_agree (o := total pre) (e := total pre + n)
    (splitBytes s.mem (total pre) (size + 12) (total pre + n)) s.heapEnd (total pre + (size + 12))
    (by omega)
  obtain ⟨g1, g2, g3⟩ := linkBack_agree (o := total pre + (size + 12)) (e := total pre + n)
    (splitBytes s.mem (total pre) (size + 12) (total pre + n)) s.heapEnd (total pre + (size + 12))
    (by omega)
  refine h.split (by omega) (by omega) (by omega) ?_ (l1.trans ?_) (l2.trans hm3)
    (l3.trans (hm4.trans hp)) (g1.trans hn1) (g2.trans hn2) (g3.trans hn3) ?_ ?_
  · intro a ha
    rw [linkBack_apply (by omega)]
    exact splitBytes_sameOff s.mem _ _ _ a (by simp; omega)
  · exact flag_eq_true.mpr ⟨hm1.trans hmagic, hm2.trans hused⟩
  · intro hne
    exact prev_linkBack (h.after_cut_ne_end hne) (by omega)
  · have hu := h.used_eq
    simp only [usedTotal_append, usedTotal_cons_true, usedTotal_cons_false] at hu ⊢
    omega

/-- `rt_realloc` splits no block above a hole: `lfree` lies below the block, or is the free block
after it. -/
def ShrinkBelow (s : Heap) (q n : ℕ) : Prop :=
  s.lfree < q ∨ s.lfree = q + n ∧ s.lfree ≠ s.heapEnd

/-- A hole behind a block in use is merged with nothing before it. -/
theorem eq_of_used_before {f : List Blk} {pre' : List Blk} (heq : pre ++ [⟨true, k⟩] = pre' ++ f)
    (hf : ∀ b ∈ f, b.used = false) : f = [] ∧ pre' = pre ++ [⟨true, k⟩] := by
  rcases eq_nil_or_concat' f with rfl | ⟨g, b, rfl⟩
  · exact ⟨rfl, by simpa using heq.symm⟩
  · rw [← append_assoc] at heq
    have hlast := append_inj_right' heq rfl
    simp only [cons.injEq, and_true] at hlast
    have hb := hf b (by simp)
    rw [← hlast] at hb
    cases hb

theorem shrunk_sameOff_headers (post : List Blk) (u : ℕ) (hk : k ≤ n) :
    Bytes.SameOff 12 (headers 0 ((pre ++ [⟨true, k⟩]) ++ ⟨false, n - k⟩ :: post)) s.mem
      (shrunk s (total pre) k (total pre + n) u).mem := by
  have h1 := mem_headers_cut pre ⟨true, k⟩ (⟨false, n - k⟩ :: post)
  have h2 := mem_headers_cut (pre ++ [⟨true, k⟩]) ⟨false, n - k⟩ post
  have h3 := mem_headers_after_cut (pre ++ [⟨true, k⟩]) ⟨false, n - k⟩ post
  have e2 : total (pre ++ [⟨true, k⟩]) = total pre + k := by simp
  have e3 : total pre + k + (n - k) = total pre + n := by omega
  rw [e2] at h2 h3
  simp only [e3] at h3
  rw [← singleton_append, ← append_assoc] at h1
  refine (shrunk_sameOff s (total pre) k (total pre + n) u).mono ?_
  simp only [mem_cons, not_mem_nil, or_false, forall_eq_or_imp, forall_eq]
  exact ⟨h1, h2, h3⟩

/-- The blocks in use after the merge are blocks of the chain between the split and the merge. -/
theorem mem_place_of_merged {f : List Blk} {x : ℕ × Blk}
    (hx : InUse (pre ++ [⟨true, k⟩, ⟨false, n + total f⟩] ++ post) x) :
    x ∈ place 0 ((pre ++ [⟨true, k⟩]) ++ ⟨false, n⟩ :: (f ++ post)) := by
  obtain ⟨hx, hu⟩ := hx
  rw [mem_place_mid] at hx
  simp only [place_cons, place_nil, mem_cons, not_mem_nil, or_false, total_cons, total_nil,
    Nat.add_zero] at hx
  simp only [place_append, place_cons, place_nil, mem_append, mem_cons, not_mem_nil,
    or_false, total_append, total_cons, total_nil, Nat.add_zero, Nat.zero_add]
  rcases hx with hx | (rfl | rfl) | hx
  · exact .inl (.inl hx)
  · exact .inl (.inr rfl)
  · cases hu
  · simp only [Nat.add_assoc] at hx ⊢
    exact .inr (.inr (.inr hx))

/-- The free block after the one that shrinks, if it was `lfree`, is merged. -/
theorem merged_of_lfree {f : List Blk} (h : Inv s (pre ++ ⟨true, n⟩ :: (f ++ post)))
    (hadj : NoAdjFree ((pre ++ [⟨true, k⟩]) ++ ⟨false, size⟩ :: post))
    (hlfree : s.lfree = total pre + n) (hne : s.lfree ≠ s.heapEnd) : 0 < total f := by
  have hend : total pre + n + (total f + total post) = s.heapEnd := by
    obtain ⟨-, -, -, -, -, -, htot⟩ := h.cut
    simpa using htot
  by_contra hzero
  have hfz : total f = 0 := by omega
  obtain ⟨b, rest, rfl⟩ : ∃ b rest, post = b :: rest := by
    cases post with
    | nil => exact absurd (by simp at hend; omega) hne
    | cons b rest => exact ⟨b, rest, rfl⟩
  have hb : b.used = true := by
    rw [noAdjFree_free] at hadj
    exact hadj.2.2.2 b (by simp)
  have hout := h.lfree_out (x := (total pre + n, b)) (by simp [hfz]) hb
  have hsize := h.size_ge b (by simp)
  simp only at *
  omega

/-- The effect of shrinking a block in place: it is in use with its new size, and the bytes that it
keeps are as before. `lfree` stays the lowest free block if it was at most the block after. -/
theorem reallocShrink_effect {q : ℕ} (size : ℕ) (h : Inv s bs) (hq : (q, ⟨true, n⟩) ∈ place 0 bs)
    (h4 : 4 ≤ size) (hdvd : 4 ∣ size) (hroom : size + 36 < n) :
    ∃ s' bs', reallocShrink s q (n - 12) size = some s' ∧
      Effect s bs s' bs' (some q) (some (q, ⟨true, size + 12⟩)) ∧
      SameArea (q, ⟨true, size + 12⟩) s.mem s'.mem ∧
      (Lowest s bs → ShrinkBelow s q n → Lowest s' bs') := by
  obtain ⟨pre, post, rfl, hpre⟩ := exists_of_mem_place hq
  simp only [Nat.zero_add] at hpre
  subst hpre
  obtain ⟨hadj, hadj'⟩ := noAdjFree_used.mp h.noAdj
  set k := size + 12 with hk
  set s₁ := shrunk s (total pre) k (total pre + n) (s.usedMem - (n - k)) with hs₁
  have hmid : Chain s₁ ((pre ++ [⟨true, k⟩]) ++ ⟨false, n - k⟩ :: post) := by
    simpa using h.shrunk h4 hdvd hroom
  have hlf : FreeOrEnd ((pre ++ [⟨true, k⟩]) ++ ⟨false, n - k⟩ :: post) s₁.lfree := by
    have hout : s.lfree < total pre ∨ total pre + n ≤ s.lfree :=
      h.lfree_out (x := (total pre, ⟨true, n⟩)) (by simp) rfl
    have hspl : FreeOrEnd (pre ++ [⟨true, n⟩] ++ post) s.lfree := by simpa using h.lfree_ok
    have hnew : FreeOrEnd (pre ++ [⟨true, k⟩, ⟨false, n - k⟩] ++ post) s.lfree :=
      hspl.splice (by simp; omega) (by simpa using hout) (by simp; omega)
    simpa [hs₁, Mem.shrunk] using hnew
  obtain ⟨s', pre', f₁, f₂, post', hs', hpre', rfl, hf₁, hf₂, hinv, hlf', hb, hm⟩ :=
    plugHoles_spec hmid (noAdjFree_used.mpr ⟨hadj, isChain_nil⟩) hadj' hlf
  obtain ⟨rfl, rfl⟩ := eq_of_used_before hpre' hf₁
  -- Only headers of the chain between the split and the merge are written.
  have hbytes : Bytes.SameOff 12 (headers 0 ((pre ++ [⟨true, k⟩]) ++ ⟨false, n - k⟩ :: (f₂ ++ post')))
      s.mem s'.mem := ((shrunk_sameOff_headers (f₂ ++ post') _ (by omega)).trans hm).mono (by simp)
  have hsame : ∀ x, InUse (pre ++ [⟨true, k⟩, ⟨false, n - k + total f₂⟩] ++ post') x →
      SameArea x s.mem s'.mem := fun x hx =>
    sameArea_of_sameOff (hbytes.mono fun a ha => mem_append_left _ ha) (mem_place_of_merged hx)
      (mem_place_of_merged hx)
  have hmerge := merged_of_lfree h hinv.noAdj
  have e1 : pre ++ ⟨true, n⟩ :: (f₂ ++ post') = pre ++ (⟨true, n⟩ :: f₂) ++ post' := by simp
  rw [e1] at h ⊢
  refine ⟨s', pre ++ [⟨true, k⟩, ⟨false, n - k + total f₂⟩] ++ post', ?_, ?_, ?_, ?_⟩
  · rw [reallocShrink_eq (by simpa using h.toChain) hroom, ← hk]
    simpa using hs'
  · refine Effect.of_splice (by simpa using hinv) ⟨hb.ptr_eq, hb.end_eq, hb.size_eq⟩ ?_ ?_ ?_ ?_
      fun x _ hx' => hsame x hx'
    · simp
      omega
    · intro x hx hu
      rw [place_cons, mem_cons] at hx
      rcases hx with rfl | hx
      · rfl
      · exact absurd hx (not_mem_place_of_unused hf₂ hu)
    · simp only [mem_def, some.injEq, forall_eq', total_cons]
      omega
    · intro x
      simp only [place_cons, place_nil, mem_cons, not_mem_nil, or_false, mem_def,
        some.injEq]
      constructor
      · rintro ⟨rfl | rfl, hu⟩
        · rfl
        · cases hu
      · rintro rfl
        exact ⟨.inl rfl, rfl⟩
  · exact hsame (total pre, ⟨true, k⟩) ⟨by simp, rfl⟩
  · intro hlow hbelow x hx hfree
    have hlfree : s'.lfree = plugLfree (total pre + k) (total pre + n + total f₂) s.lfree := by
      have e2 : total (pre ++ [⟨true, k⟩]) = total pre + k := by simp
      have e3 : total pre + k + (n - k) = total pre + n := by omega
      rw [hlf', e2, e3, hs₁, Mem.shrunk]
    rw [hlfree, plugLfree]
    have hlow' := hlow x
    rw [mem_place_mid] at hx hlow'
    simp only [place_cons, place_nil, mem_cons, not_mem_nil, or_false, total_cons,
      total_nil, Nat.add_zero] at hx hlow'
    unfold ShrinkBelow at hbelow
    rcases hx with hx | (rfl | rfl) | hx
    · -- A free block before the one that shrinks was free before, and `lfree` is not above it.
      have h2 := hlow' (.inl hx) hfree
      split_ifs <;> omega
    · cases hfree
    · simp only
      split_ifs <;> omega
    · have := (place_bounds hx).1
      split_ifs <;> omega

/-! ## Moving -/

/-- Moving copies the contents and frees the old block. -/
theorem reallocMove_effect {s₁ : Heap} {bs₁ : List Blk} {q q' : ℕ} (len : ℕ)
    (hq : (q, ⟨true, n⟩) ∈ place 0 bs) (he : Effect s bs s₁ bs₁ none (some (q', ⟨true, k⟩)))
    (hlen : len + 12 ≤ n) (hlen' : len + 12 ≤ k) :
    ∃ s' bs', rtFree { s₁ with mem := rtMemcpy s₁.mem (q' + 12) (q + 12) len } (some (q + 12))
        = some s' ∧
      Effect s bs s' bs' (some q) (some (q', ⟨true, k⟩)) ∧
      (∀ i < len, s'.mem (q' + 12 + i) = s.mem (q + 12 + i)) ∧
      (Lowest s₁ bs₁ → Lowest s' bs') := by
  have hold : InUse bs (q, ⟨true, n⟩) := ⟨hq, rfl⟩
  have hq₁ : InUse bs₁ (q, ⟨true, n⟩) := (he.inUse_iff _).mpr (.inl ⟨hold, by simp⟩)
  have hnew : InUse bs₁ (q', ⟨true, k⟩) := (he.inUse_iff _).mpr (.inr rfl)
  have hne : q ≠ q' := he.fresh _ rfl _ hold (by simp)
  have hdisj := place_disjoint hq₁.1 hnew.1 hne
  simp only at hdisj
  -- The copy stays in the new block.
  have hcopy : ∀ a, a < q' + 12 ∨ q' + k ≤ a →
      rtMemcpy s₁.mem (q' + 12) (q + 12) len a = s₁.mem a := fun a ha => rtMemcpy_of_out (by omega)
  have he₁ := he.writeNew hcopy
  obtain ⟨s', bs', hs', he', hlow⟩ := rtFree_effect he₁.inv hq₁.1
  refine ⟨s', bs', hs', ⟨he'.inv, he₁.bounds.trans he'.bounds, ?_, ?_, ?_⟩, ?_, hlow⟩
  · intro x
    rw [he'.inUse_iff, he₁.inUse_iff]
    constructor
    · rintro (⟨⟨hx, -⟩ | hx, hxq⟩ | hx)
      · exact .inl ⟨hx, hxq⟩
      · exact .inr hx
      · cases hx
    · rintro (⟨hx, hxq⟩ | hx)
      · exact .inl ⟨.inl ⟨hx, by simp⟩, hxq⟩
      · refine .inl ⟨.inr hx, ?_⟩
        simp only [mem_def, some.injEq] at hx ⊢
        rw [← hx]
        exact hne
  · intro x hx y hy _
    exact he.fresh x hx y hy (by simp)
  · intro x hx hxq
    exact (he₁.same x hx (by simp)).trans
      (he'.same x ((he₁.inUse_iff x).mpr (.inl ⟨hx, by simp⟩)) hxq)
  · intro i hi
    have hfree := he'.same (q', ⟨true, k⟩) hnew (by simpa using hne) (q' + 12 + i) (by simp)
      (by simp only; omega)
    have hsrc := he.same _ hold (by simp) (q + 12 + i) (by simp) (by simp only; omega)
    calc s'.mem (q' + 12 + i) = rtMemcpy s₁.mem (q' + 12) (q + 12) len (q' + 12 + i) := hfree
      _ = s₁.mem (q + 12 + i) := rtMemcpy_of_mem (by omega) hi
      _ = s.mem (q + 12 + i) := hsrc

/-! ## `rt_realloc` -/

theorem size_le_reqSize (size : ℕ) (h : size ≤ 2^32 - 4) : size ≤ reqSize size := by
  unfold reqSize
  rw [min_size_aligned_eq, rtAlign_four]
  split_ifs <;> omega

theorem userSize_eq {q : ℕ} {u : Bool} (h : Inv s bs) (hq : (q, ⟨u, n⟩) ∈ place 0 bs) :
    userSize s (q + 12) = n - 12 := by
  have hlt := h.end_lt
  have hn12 := h.size_ge _ (mem_of_mem_place hq)
  have hbound := (place_bounds hq).2
  rw [Nat.zero_add, h.total_eq] at hbound
  have hnext : next s.mem q = q + n := (h.linked.at_mem hq).2
  simp only at hn12 hbound
  simp only [userSize, sizeof_eq, Nat.add_sub_cancel, hnext]
  rw [sub32_eq (a := q + n) (by omega) (by omega), sub32_eq (by omega) (by omega)]
  omega

theorem Effect.keep {q : ℕ} (h : Inv s bs) (hq : (q, ⟨true, n⟩) ∈ place 0 bs) :
    Effect s bs s bs (some q) (some (q, ⟨true, n⟩)) := by
  refine ⟨h, SameBounds.refl s, fun x => ?_, ?_, fun x _ _ => SameArea.refl x s.mem⟩
  · simp only [mem_def, some.injEq]
    constructor
    · intro hx
      by_cases hxq : q = x.1
      · refine .inr (place_unique (fun b hb => ?_) hq hx.1 hxq)
        have := h.size_ge b hb
        omega
      · exact .inl ⟨hx, hxq⟩
    · rintro (⟨hx, -⟩ | rfl)
      · exact hx
      · exact ⟨hq, rfl⟩
  · intro x hx y _ hy
    simp only [mem_def, some.injEq] at hx hy
    rw [← hx]
    exact fun heq => hy heq.symm

variable {fuel : ℕ} {r : Option ℕ}

theorem rtRealloc_zero {p newsize : ℕ} (hzero : rtAlign newsize RT_ALIGN_SIZE = 0) :
    rtRealloc fuel s (some p) newsize = (rtFree s (some p)).map (none, ·) := by
  simp only [rtRealloc, hzero]
  rw [if_neg (Nat.not_lt_zero _), if_pos trivial]
  cases rtFree s (some p) <;> rfl

/-- The effect of `rt_realloc` on a block in use: none where the request fails; the block is freed
where the request aligns to zero; otherwise the block is in use, possibly elsewhere, with room for
the aligned request and the old contents. `lfree` stays the lowest free block unless a split leaves
a hole below it. -/
theorem rtRealloc_effect {newsize q : ℕ} (h : Inv s bs) (hq : (q, ⟨true, n⟩) ∈ place 0 bs)
    (hr : rtRealloc fuel s (some (q + 12)) newsize = some (r, s')) :
    rtAlign newsize RT_ALIGN_SIZE ≠ 0 ∧ r = none ∧ s' = s ∨
    rtAlign newsize RT_ALIGN_SIZE = 0 ∧ r = none ∧
      (∃ bs', Effect s bs s' bs' (some q) none ∧ (Lowest s bs → Lowest s' bs')) ∨
    ∃ q' k bs', rtAlign newsize RT_ALIGN_SIZE ≠ 0 ∧ r = some (q' + 12) ∧
      rtAlign newsize RT_ALIGN_SIZE + 12 ≤ k ∧ Effect s bs s' bs' (some q) (some (q', ⟨true, k⟩)) ∧
      (∀ i < min (n - 12) (rtAlign newsize RT_ALIGN_SIZE),
        s'.mem (q' + 12 + i) = s.mem (q + 12 + i)) ∧
      (Lowest s bs → (rtAlign newsize RT_ALIGN_SIZE + 36 < n → ShrinkBelow s q n) →
        Lowest s' bs') := by
  have hlt := h.end_lt
  have hend := h.end_eq
  have hn16 : 16 ≤ n := h.used_ge ⟨true, n⟩ (mem_of_mem_place hq) rfl
  have hbound := (place_bounds hq).2
  rw [Nat.zero_add, h.total_eq] at hbound
  simp only at hbound
  have hsize := userSize_eq h hq
  have hdvd : 4 ∣ rtAlign newsize RT_ALIGN_SIZE := by
    rw [rtAlign_four]
    omega
  unfold rtRealloc at hr
  simp only [sizeof_eq, min_size_eq, Nat.add_sub_cancel, hsize] at hr
  set w := rtAlign newsize RT_ALIGN_SIZE with hw
  by_cases hbig : w > s.memSizeAligned
  · -- More than the whole heap.
    rw [if_pos hbig] at hr
    simp only [some.injEq, Prod.mk.injEq] at hr
    exact .inl ⟨by omega, hr.1.symm, hr.2.symm⟩
  rw [if_neg hbig] at hr
  by_cases hzero : w = 0
  · rw [if_pos hzero] at hr
    obtain ⟨s₁, bs₁, hs₁, he, hlow⟩ := rtFree_effect h hq
    rw [hs₁] at hr
    obtain ⟨rfl, rfl⟩ := hr
    exact .inr (.inl ⟨hzero, rfl, bs₁, he, hlow⟩)
  rw [if_neg hzero, if_neg (by omega)] at hr
  have hsum : add32 (add32 w 12) 12 = w + 24 := by
    rw [add32_eq (a := w) (by omega), add32_eq (by omega)]
  rw [hsum] at hr
  by_cases hsame : n - 12 = w
  · -- The same size.
    rw [if_pos hsame] at hr
    obtain ⟨rfl, rfl⟩ := hr
    exact .inr (.inr ⟨q, n, bs, hzero, rfl, by omega, Effect.keep h hq, fun _ _ => rfl,
      fun hlow _ => hlow⟩)
  rw [if_neg hsame] at hr
  by_cases hshrink : w + 24 < n - 12
  · rw [if_pos hshrink] at hr
    obtain ⟨s₁, bs₁, hs₁, he, harea, hlow⟩ := reallocShrink_effect w h hq (by omega) hdvd
      (by omega)
    rw [hs₁] at hr
    simp only [bind_eq_bind, bind_some, some.injEq, Prod.mk.injEq] at hr
    obtain ⟨rfl, rfl⟩ := hr
    refine .inr (.inr ⟨q, w + 12, bs₁, hzero, rfl, le_rfl, he, ?_,
      fun hl hbelow => hlow hl (hbelow (by omega))⟩)
    intro i hi
    exact harea (q + 12 + i) (by simp) (by simp only; omega)
  · rw [if_neg hshrink] at hr
    cases hmal : rtMalloc fuel s w with
    | none =>
      rw [hmal] at hr
      cases hr
    | some res =>
      obtain ⟨nmem, s₁⟩ := res
      rw [hmal] at hr
      simp only [bind_eq_bind, bind_some] at hr
      rcases rtMalloc_effect h hmal with ⟨rfl, rfl⟩ | ⟨q', k, bs₁, rfl, hk, he, hlow⟩
      · simp only [some.injEq, Prod.mk.injEq] at hr
        exact .inl ⟨hzero, hr.1.symm, hr.2.symm⟩
      · have hreq := size_le_reqSize w (by omega)
        have hlen : (if n - 12 < w then n - 12 else w) = min (n - 12) w := by
          split_ifs <;> omega
        simp only [hlen] at hr
        obtain ⟨s₂, bs₂, hs₂, he₂, hcopy, hlow₂⟩ :=
          reallocMove_effect (min (n - 12) w) hq he (by omega) (by omega)
        rw [hs₂] at hr
        obtain ⟨rfl, rfl⟩ := hr
        exact .inr (.inr ⟨q', k, bs₂, hzero, rfl, by omega, he₂, hcopy,
          fun hl _ => hlow₂ (hlow hl)⟩)

theorem rtRealloc_null_effect {newsize : ℕ} (h : Inv s bs)
    (hr : rtRealloc fuel s none newsize = some (r, s')) :
    r = none ∧ s' = s ∨ ∃ q k bs', r = some (q + 12) ∧ rtAlign newsize RT_ALIGN_SIZE + 12 ≤ k ∧
      Effect s bs s' bs' none (some (q, ⟨true, k⟩)) ∧ (Lowest s bs → Lowest s' bs') := by
  unfold rtRealloc at hr
  simp only at hr
  split_ifs at hr with hbig hzero
  · simp only [some.injEq, Prod.mk.injEq] at hr
    exact .inl ⟨hr.1.symm, hr.2.symm⟩
  · simp only [rtFree, bind_eq_bind, bind_some, some.injEq, Prod.mk.injEq] at hr
    exact .inl ⟨hr.1.symm, hr.2.symm⟩
  · have hlt := h.end_lt
    have hend := h.end_eq
    have hreq := size_le_reqSize (rtAlign newsize RT_ALIGN_SIZE) (by omega)
    rcases rtMalloc_effect h hr with hnone | ⟨q, k, bs', rfl, hk, he, hlow⟩
    · exact .inl hnone
    · exact .inr ⟨q, k, bs', rfl, by omega, he, hlow⟩

/-! ## `rt_calloc` -/

/-- The effect of `rt_calloc` where the product does not align to zero: that of `rt_malloc`, since
the bytes cleared lie in the new block. -/
theorem rtCalloc_effect {count : ℕ} (h : Inv s bs) (hfit : mul32 count size ≤ 2^32 - 4)
    (hr : rtCalloc fuel s count size = some (r, s')) :
    r = none ∧ s' = s ∨ ∃ q k bs', r = some (q + 12) ∧ mul32 count size + 12 ≤ k ∧
      Effect s bs s' bs' none (some (q, ⟨true, k⟩)) ∧ (Lowest s bs → Lowest s' bs') := by
  obtain ⟨⟨p, s₁⟩, hmal, hret⟩ := bind_eq_some_iff.mp hr
  rcases rtMalloc_effect h hmal with ⟨rfl, rfl⟩ | ⟨q, k, bs₁, rfl, hk, he, hlow⟩
  · simp only [some.injEq, Prod.mk.injEq] at hret
    exact .inl ⟨hret.1.symm, hret.2.symm⟩
  · obtain ⟨rfl, rfl⟩ := hret
    have hreq := size_le_reqSize _ hfit
    refine .inr ⟨q, k, bs₁, rfl, by omega, he.writeNew fun a ha => ?_, hlow⟩
    refine rtMemset_of_out fun i hi heq => ?_
    -- The new block ends below `2^32`, so the addresses do not wrap.
    have hin : InUse bs₁ (q, ⟨true, k⟩) := (he.inUse_iff _).mpr (.inr rfl)
    have hb := (place_bounds hin.1).2
    rw [Nat.zero_add, he.inv.total_eq] at hb
    have hlt := he.inv.end_lt
    simp only at ha hb
    omega

end RtThread.Mem
