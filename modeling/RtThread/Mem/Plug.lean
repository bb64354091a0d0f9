import RtThread.Mem.Chain

/-!
# `plug_holes` merges free neighbours

Each half of `plug_holes` either finds no free neighbour and does nothing, or merges two free blocks
into one. A merge rewrites the `next` of the lower block and the `prev` of the block after the upper
one, and moves `lfree` down if it was the upper block.
-/

namespace RtThread.Mem

open Lib List Bytes Nat

variable {s : Heap} {pre post : List Blk} {n k : ℕ}

/-- The heap after a merge: the free block `o` takes `nn` as its next, `nn` takes `o` as its
previous, and `lfree` is moved from the upper block `q` to `o`. -/
def merged (s : Heap) (o q nn : ℕ) : Heap :=
  { s with lfree := if s.lfree = q then o else s.lfree
           mem := setPrev (setNext s.mem o nn) nn o }

theorem merged_sameOff (s : Heap) (o q nn : ℕ) :
    Bytes.SameOff 12 [o, nn] s.mem (merged s o q nn).mem := by
  intro a ha
  have h1 := ha o (by simp)
  have h2 := ha nn (by simp)
  simp only [merged, setPrev, setNext]
  rw [store_apply_of_out (by omega), store_apply_of_out (by omega)]

/-- Merging two free blocks keeps the chain. -/
theorem Chain.merge (h : Chain s (pre ++ ⟨false, n⟩ :: ⟨false, k⟩ :: post)) :
    Chain (merged s (total pre) (total pre + n) (total pre + n + k))
      (pre ++ ⟨false, n + k⟩ :: post) := by
  obtain ⟨hf, hn, hp, hn12, hn4, ho4, htot⟩ := h.cut
  have h' : Chain s ((pre ++ [⟨false, n⟩]) ++ ⟨false, k⟩ :: post) := by simpa using h
  obtain ⟨-, -, -, hk12, hk4, -, htot'⟩ := h'.cut
  simp only [total_append, total_cons, total_nil, add_zero] at htot'
  have hlt := h.end_lt
  have hspl : Chain s (pre ++ [⟨false, n⟩, ⟨false, k⟩] ++ post) := by simpa using h
  have hold : total [(⟨false, n⟩ : Blk), ⟨false, k⟩] = n + k := by simp
  have hres := hspl.edit [⟨false, n + k⟩]
    (if s.lfree = total pre + n then total pre else s.lfree) s.usedMem s.maxMem
    (setPrev (setNext s.mem (total pre) (total pre + n + k)) (total pre + n + k) (total pre))
    ?confined (by simp) ?sizes ?linked ?back ?used
  · simpa [merged] using hres
  case confined =>
    intro a ha
    simp only [hold, setPrev, setNext] at ha ⊢
    rw [store_apply_of_out (by omega), store_apply_of_out (by omega)]
  case sizes =>
    simp only [mem_cons, not_mem_nil, or_false, forall_eq]
    exact ⟨by omega, Nat.dvd_add hn4 hk4, by simp⟩
  case linked =>
    obtain ⟨hmagic, hused⟩ := flag_eq_false.mp hf
    refine linked_cons.mpr ⟨flag_eq_false.mpr ⟨?_, ?_⟩, ?_, ?_, trivial⟩
    · rw [← hmagic]
      simp (disch := omega) only [magic, setPrev, setNext, load_store_of_disjoint]
    · rw [← hused]
      simp (disch := omega) only [used, setPrev, setNext, load_store_of_disjoint]
    · simp (disch := omega) only [fields, next, setPrev, setNext, load_store_of_disjoint,
        load_store_same]
      omega
    · rw [← hp]
      simp (disch := omega) only [fields, prev, setPrev, setNext, load_store_of_disjoint]
  case back =>
    intro _
    rw [hold, ← add_assoc]
    simp only [lastAddr_cons, lastAddr_nil, prev, setPrev, load_store_same]
    omega
  case used =>
    rw [h.used_eq]
    simp

/-- The parts of the heap that no operation changes. -/
structure SameBounds (s s' : Heap) : Prop where
  ptr_eq : s'.heapPtr = s.heapPtr
  end_eq : s'.heapEnd = s.heapEnd
  size_eq : s'.memSizeAligned = s.memSizeAligned

theorem SameBounds.refl (s : Heap) : SameBounds s s := ⟨rfl, rfl, rfl⟩

theorem SameBounds.trans {s₁ s₂ s₃ : Heap} (h : SameBounds s₁ s₂) (h' : SameBounds s₂ s₃) :
    SameBounds s₁ s₃ :=
  ⟨h'.ptr_eq.trans h.ptr_eq, h'.end_eq.trans h.end_eq, h'.size_eq.trans h.size_eq⟩

/-! ## The two halves -/

theorem plugForward_of_used (h : Chain s (pre ++ ⟨false, n⟩ :: post))
    (hhead : ∀ b ∈ post.head?, b.used = true) : plugForward s (total pre) = s := by
  obtain ⟨-, hn, -, -, -, -, htot⟩ := h.cut
  unfold plugForward
  rw [if_neg]
  rintro ⟨-, hfree, hne⟩
  rw [hn] at hfree hne
  cases post with
  | nil =>
    rw [total_nil] at htot
    omega
  | cons b post =>
    have h' : Chain s ((pre ++ [⟨false, n⟩]) ++ ⟨b.used, b.size⟩ :: post) := by simpa using h
    have hb : b.used = true := hhead b (by simp)
    rw [hb] at h'
    have hflag := (flag_eq_true.mp h'.cut.1).2
    simp only [total_append, total_cons, total_nil, add_zero] at hflag
    omega

theorem plugForward_of_free (h : Chain s (pre ++ ⟨false, n⟩ :: ⟨false, k⟩ :: post)) :
    plugForward s (total pre) = merged s (total pre) (total pre + n) (total pre + n + k) := by
  obtain ⟨-, hn, -, hn12, -, -, htot⟩ := h.cut
  have h' : Chain s ((pre ++ [⟨false, n⟩]) ++ ⟨false, k⟩ :: post) := by simpa using h
  obtain ⟨hf, hnn, -, hk12, -, -, -⟩ := h'.cut
  simp only [total_append, total_cons, total_nil, add_zero] at hf hnn htot
  have hused := (flag_eq_false.mp hf).2
  -- The second read of `nmem->next` is after the write to `mem->next`, a different header.
  have hre : next (setNext s.mem (total pre) (total pre + n + k)) (total pre + n)
      = total pre + n + k := by
    rw [← hnn]
    simp (disch := omega) only [next, setNext, load_store_of_disjoint]
  unfold plugForward merged
  rw [hn, if_pos ⟨by omega, hused, by omega⟩]
  simp only [hnn, hre]

theorem plugBackward_of_used (h : Chain s (pre ++ ⟨false, n⟩ :: post))
    (hlast : ∀ b ∈ pre.getLast?, b.used = true) : plugBackward s (total pre) = s := by
  obtain ⟨-, -, hp, -, -, -, -⟩ := h.cut
  unfold plugBackward
  rw [if_neg]
  rintro ⟨hne, hfree⟩
  rw [hp] at hne hfree
  rcases lastAddr_eq 0 0 pre with ⟨rfl, hl⟩ | ⟨pre, b, rfl, hl⟩
  · exact hne (by simp)
  · rw [hl, zero_add] at hfree
    have hb : b.used = true := hlast b (by simp)
    have h' : Chain s (pre ++ ⟨b.used, b.size⟩ :: ⟨false, n⟩ :: post) := by simpa using h
    rw [hb] at h'
    have hflag := (flag_eq_true.mp h'.cut.1).2
    omega

theorem plugBackward_of_free (h : Chain s (pre ++ ⟨false, n⟩ :: ⟨false, k⟩ :: post)) :
    plugBackward s (total pre + n) = merged s (total pre) (total pre + n) (total pre + n + k) := by
  obtain ⟨hf, -, -, hn12, -, -, htot⟩ := h.cut
  have h' : Chain s ((pre ++ [⟨false, n⟩]) ++ ⟨false, k⟩ :: post) := by simpa using h
  obtain ⟨-, hnn, hp, hk12, -, -, -⟩ := h'.cut
  simp only [total_append, total_cons, total_nil, add_zero, lastAddr_append, lastAddr_cons,
    lastAddr_nil, zero_add] at hnn hp
  have hused := (flag_eq_false.mp hf).2
  have hre : next (setNext s.mem (total pre) (total pre + n + k)) (total pre + n)
      = total pre + n + k := by
    rw [← hnn]
    simp (disch := omega) only [next, setNext, load_store_of_disjoint]
  unfold plugBackward merged
  rw [hp, if_pos ⟨by omega, hused⟩]
  simp only [hnn, hre]

/-! ## `plug_holes` -/

/-- Where `lfree` is after the free blocks from `o` to `e` have become one. -/
def plugLfree (o e lfree : ℕ) : ℕ := if o ≤ lfree ∧ lfree < e then o else lfree

section

variable (h : Chain s (pre ++ ⟨false, n⟩ :: post))
include h

/-- The forward half absorbs the free block behind, if there is one. -/
theorem plugForward_spec (hpost : NoAdjFree post)
    (hlf : FreeOrEnd (pre ++ ⟨false, n⟩ :: post) s.lfree) :
    ∃ f post', post = f ++ post' ∧ (∀ b ∈ f, b.used = false) ∧ NoAdjFree post' ∧
      (∀ b ∈ post'.head?, b.used = true) ∧
      Chain (plugForward s (total pre)) (pre ++ ⟨false, n + total f⟩ :: post') ∧
      (plugForward s (total pre)).lfree = plugLfree (total pre) (total pre + n + total f) s.lfree ∧
      SameBounds s (plugForward s (total pre)) ∧
      Bytes.SameOff 12 (headers 0 (pre ++ ⟨false, n⟩ :: post)) s.mem
        (plugForward s (total pre)).mem := by
  have hlf₀ := hlf.eq_of_mem (x := (total pre, ⟨false, n⟩)) (by simp)
  simp only at hlf₀
  by_cases hhead : ∀ b ∈ post.head?, b.used = true
  · rw [plugForward_of_used h hhead]
    refine ⟨[], post, rfl, by simp, hpost, hhead, by simpa using h, ?_, SameBounds.refl s,
      Bytes.SameOff.refl _ _ _⟩
    unfold plugLfree
    split_ifs with hin
    · exact hlf₀ hin.1 (by simpa using hin.2)
    · rfl
  · -- The next block is free.
    obtain ⟨k, post', rfl⟩ : ∃ k post', post = ⟨false, k⟩ :: post' := by
      rcases post with _ | ⟨⟨u, k⟩, post'⟩
      · simp at hhead
      · cases u
        · exact ⟨k, post', rfl⟩
        · simp at hhead
    have hpost₀ : NoAdjFree ([] ++ ⟨false, k⟩ :: post') := hpost
    obtain ⟨-, hpost', -, hnext⟩ := noAdjFree_free.mp hpost₀
    have hlf₁ := hlf.eq_of_mem (x := (total pre + n, ⟨false, k⟩)) (by simp)
    simp only at hlf₁
    have hk12 : 12 ≤ k := h.size_ge ⟨false, k⟩ (by simp)
    rw [plugForward_of_free h]
    refine ⟨[⟨false, k⟩], post', rfl, by simp, hpost', hnext, by simpa using h.merge, ?_,
      ⟨rfl, rfl, rfl⟩, ?_⟩
    · simp only [merged, plugLfree, total_cons, total_nil, add_zero]
      split_ifs <;> omega
    · refine (merged_sameOff s _ _ _).mono ?_
      have h1 := mem_headers_cut pre ⟨false, n⟩ (⟨false, k⟩ :: post')
      have h2 := mem_headers_after_cut (pre ++ [⟨false, n⟩]) ⟨false, k⟩ post'
      simp only [total_append, total_cons, total_nil, add_zero, append_assoc,
        singleton_append] at h2
      simpa using ⟨h1, h2⟩

/-- The backward half merges with the free block in front. -/
theorem plugBackward_spec (hpre : NoAdjFree pre)
    (hlf : FreeOrEnd (pre ++ ⟨false, n⟩ :: post) s.lfree) :
    ∃ pre' f, pre = pre' ++ f ∧ (∀ b ∈ f, b.used = false) ∧ NoAdjFree pre' ∧
      (∀ b ∈ pre'.getLast?, b.used = true) ∧
      Chain (plugBackward s (total pre)) (pre' ++ ⟨false, total f + n⟩ :: post) ∧
      (plugBackward s (total pre)).lfree = plugLfree (total pre') (total pre + n) s.lfree ∧
      SameBounds s (plugBackward s (total pre)) ∧
      Bytes.SameOff 12 (headers 0 (pre ++ ⟨false, n⟩ :: post)) s.mem
        (plugBackward s (total pre)).mem := by
  have hlf₀ := hlf.eq_of_mem (x := (total pre, ⟨false, n⟩)) (by simp)
  simp only at hlf₀
  by_cases hlast : ∀ b ∈ pre.getLast?, b.used = true
  · rw [plugBackward_of_used h hlast]
    refine ⟨pre, [], by simp, by simp, hpre, hlast, by simpa using h, ?_, SameBounds.refl s,
      Bytes.SameOff.refl _ _ _⟩
    unfold plugLfree
    split_ifs with hin
    · exact hlf₀ hin.1 hin.2
    · rfl
  · -- The previous block is free.
    obtain ⟨pre', k, rfl⟩ : ∃ pre' k, pre = pre' ++ [⟨false, k⟩] := by
      rcases eq_nil_or_concat' pre with rfl | ⟨pre', ⟨u, k⟩, rfl⟩
      · simp at hlast
      · cases u
        · exact ⟨pre', k, rfl⟩
        · simp at hlast
    obtain ⟨hpre', -, hprev, -⟩ := noAdjFree_free.mp hpre
    have h' : Chain s (pre' ++ ⟨false, k⟩ :: ⟨false, n⟩ :: post) := by simpa using h
    have hlf₁ := hlf.eq_of_mem (x := (total pre', ⟨false, k⟩)) (by simp)
    simp only [total_append, total_cons, total_nil, add_zero] at hlf₀ hlf₁
    have hn12 : 12 ≤ n := h.size_ge ⟨false, n⟩ (by simp)
    simp only [total_append, total_cons, total_nil, add_zero]
    rw [plugBackward_of_free h']
    refine ⟨pre', [⟨false, k⟩], rfl, by simp, hpre', hprev, by simpa using h'.merge, ?_,
      ⟨rfl, rfl, rfl⟩, ?_⟩
    · simp only [merged, plugLfree]
      split_ifs <;> omega
    · refine (merged_sameOff s _ _ _).mono ?_
      have h1 := mem_headers_cut pre' ⟨false, k⟩ (⟨false, n⟩ :: post)
      have h2 := mem_headers_after_cut (pre' ++ [⟨false, k⟩]) ⟨false, n⟩ post
      simp only [total_append, total_cons, total_nil, add_zero, append_assoc,
        singleton_append] at h2 ⊢
      simpa using ⟨h1, h2⟩

/-- `plug_holes` on a free block merges it with the free blocks `f₁` before and `f₂` after it, so
that the invariant holds again, and moves `lfree` to the merged block if it was one of its parts. -/
theorem plugHoles_spec (hpre : NoAdjFree pre)
    (hpost : NoAdjFree post) (hlf : FreeOrEnd (pre ++ ⟨false, n⟩ :: post) s.lfree) :
    ∃ s' pre' f₁ f₂ post', plugHoles s (total pre) = some s' ∧
      pre = pre' ++ f₁ ∧ post = f₂ ++ post' ∧
      (∀ b ∈ f₁, b.used = false) ∧ (∀ b ∈ f₂, b.used = false) ∧
      Inv s' (pre' ++ ⟨false, total f₁ + n + total f₂⟩ :: post') ∧
      s'.lfree = plugLfree (total pre') (total pre + n + total f₂) s.lfree ∧
      SameBounds s s' ∧ Bytes.SameOff 12 (headers 0 (pre ++ ⟨false, n⟩ :: post)) s.mem s'.mem := by
  obtain ⟨hf, -, -, hn12, -, -, htot⟩ := h.cut
  obtain ⟨f₂, post', rfl, hf₂, hpost', hhead, hc₁, hlf₁, hb₁, hm₁⟩ := plugForward_spec h hpost hlf
  have hbig : ∀ b ∈ [] ++ ⟨false, n⟩ :: f₂, 0 < b.size := by
    intro b hb
    have := h.size_ge b (mem_append_right _ (mem_append_left post' hb))
    omega
  have hok₁ : FreeOrEnd (pre ++ ⟨false, n + total f₂⟩ :: post') (plugForward s (total pre)).lfree := by
    rw [hlf₁, plugLfree, add_assoc]
    have := FreeOrEnd.coalesce pre post' hbig (by simpa using hlf)
    simpa using this
  obtain ⟨pre', f₁, rfl, hf₁, hpre', hlast, hc₂, hlf₂, hb₂, hm₂⟩ := plugBackward_spec hc₁ hpre hok₁
  have hbig' : ∀ b ∈ f₁ ++ ⟨false, n + total f₂⟩ :: [], 0 < b.size := by
    intro b hb
    have := hc₁.size_ge b (by
      rw [append_assoc]
      exact mem_append_right _ (append_cons .. ▸ mem_append_left post' hb))
    omega
  have hok₂ : FreeOrEnd (pre' ++ ⟨false, total f₁ + n + total f₂⟩ :: post')
      (plugBackward (plugForward s (total (pre' ++ f₁))) (total (pre' ++ f₁))).lfree := by
    rw [hlf₂, plugLfree, total_append]
    have := FreeOrEnd.coalesce pre' post' hbig' (by simpa using hok₁)
    simpa [add_assoc] using this
  refine ⟨plugBackward (plugForward s (total (pre' ++ f₁))) (total (pre' ++ f₁)), pre', f₁, f₂,
    post', ?_, rfl, rfl, hf₁, hf₂, ⟨?_, ?_, hok₂⟩, ?_, hb₁.trans hb₂, ?_⟩
  · have hused := (flag_eq_false.mp hf).2
    unfold plugHoles
    rw [if_pos ⟨by omega, hused⟩]
  · simpa [add_assoc] using hc₂
  · exact noAdjFree_free.mpr ⟨hpre', hpost', hlast, hhead⟩
  · rw [hlf₂, hlf₁]
    simp only [plugLfree, total_append]
    split_ifs <;> omega
  · -- Every header of the chain after the first half is one before it.
    refine (hm₁.trans hm₂).mono ?_
    intro a ha
    rw [mem_append] at ha
    rcases ha with ha | ha
    · exact ha
    · exact headers_merge_subset ha

end

end RtThread.Mem
