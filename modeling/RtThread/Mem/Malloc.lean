import RtThread.Mem.Free

/-!
# `rt_malloc` takes a block

The search walks the chain from `lfree` on and stops at the first free block with room. `rt_malloc`
then takes that block as it is or splits it, and moves `lfree` to the next free block if it was the
block taken.
-/

namespace RtThread.Mem

open Lib List Option Bytes

variable {s : Heap} {pre post bs : List Blk} {n k size : ℕ} {u : Bool}

/-! ## The search -/

variable {fuel : ℕ}

theorem mallocSearch_cons (h : Chain s (pre ++ ⟨u, n⟩ :: post)) :
    mallocSearch s size (fuel + 1) (total pre) = if total pre < sub32 s.memSizeAligned size then
        if u = false ∧ size + 12 ≤ n then some (some (total pre))
        else mallocSearch s size fuel (total (pre ++ [⟨u, n⟩])) else some none := by
  obtain ⟨hf, hn, -, hn12, -, -, htot⟩ := h.cut
  have hlt := h.end_lt
  have hroom : sub32 (total pre + n) (add32 (total pre) 12) = n - 12 := by
    rw [add32_eq (by omega), sub32_eq (by omega) (by omega)]
    omega
  have hused : used s.mem (total pre) = 0 ↔ u = false := by
    cases u with
    | false => simp [(flag_eq_false.mp hf).2]
    | true => simp [(flag_eq_true.mp hf).2]
  have hfit : n - 12 ≥ size ↔ size + 12 ≤ n := by omega
  rw [mallocSearch, hn, sizeof_eq, hroom]
  simp only [hused, hfit, total_append, total_cons, total_nil, Nat.add_zero]

theorem mallocSearch_end (h : Chain s pre) : mallocSearch s size (fuel + 1) (total pre) =
      if total pre < sub32 s.memSizeAligned size then mallocSearch s size fuel (total pre)
      else some none := by
  rw [mallocSearch, h.total_eq, h.end_used, h.end_next]
  simp

/-- A search that ends with a block has found a free one with room. -/
theorem mallocSearch_found {ptr : ℕ} {suf : List Blk} (h : Chain s (pre ++ suf))
    (hr : mallocSearch s size fuel (total pre) = some (some ptr)) :
    ∃ mid n post, suf = mid ++ ⟨false, n⟩ :: post ∧ ptr = total pre + total mid ∧
      size + 12 ≤ n ∧ ∀ b ∈ mid, b.used = true ∨ b.size < size + 12 := by
  induction fuel generalizing pre suf with
  | zero => simp [mallocSearch] at hr
  | succ fuel ih =>
    cases suf with
    | nil =>
      rw [mallocSearch_end (by simpa using h)] at hr
      split_ifs at hr
      · exact ih h hr
      · cases hr
    | cons b suf =>
      obtain ⟨v, n⟩ := b
      rw [mallocSearch_cons h] at hr
      split_ifs at hr with hloop hfit
      · obtain ⟨rfl, hroom⟩ := hfit
        simp only [some.injEq] at hr
        exact ⟨[], n, suf, rfl, by simp [hr], hroom, by simp⟩
      · have h' : Chain s ((pre ++ [⟨v, n⟩]) ++ suf) := by simpa using h
        obtain ⟨mid, n', post, rfl, hptr, hn', hmid⟩ := ih h' hr
        refine ⟨⟨v, n⟩ :: mid, n', post, rfl, ?_, hn', ?_⟩
        · rw [hptr]
          simp [Nat.add_assoc]
        · intro b hb
          rw [mem_cons] at hb
          rcases hb with rfl | hb
          · cases v with
            | true => exact .inl rfl
            | false => exact .inr (by simpa using hfit)
          · exact hmid b hb
      · cases hr

/-! ## Splitting a block -/

/-- The bytes of a split: the header of the new unused block at `o + k`, between the block `o` and
`e`. -/
def splitBytes (m : Bytes) (o k e : ℕ) : Bytes :=
  let m := setMagic m (o + k) HEAP_MAGIC
  let m := setUsed m (o + k) 0
  let m := setNext m (o + k) e
  let m := setPrev m (o + k) o
  setNext m o (o + k)

theorem Chain.split {lfree usedMem maxMem : ℕ} {m : Bytes} (h : Chain s (pre ++ ⟨u, n⟩ :: post))
    (hk16 : 16 ≤ k) (hk4 : 4 ∣ k) (hkn : k + 12 ≤ n)
    (hconf : Confined (total pre) (total pre + n) s.mem m)
    (hf : flag m (total pre) = some true) (hn : next m (total pre) = total pre + k)
    (hp : prev m (total pre) = lastAddr 0 0 pre)
    (hf' : flag m (total pre + k) = some false) (hn' : next m (total pre + k) = total pre + n)
    (hp' : prev m (total pre + k) = total pre)
    (hback : post ≠ [] → prev m (total pre + n) = total pre + k)
    (hused : usedMem = usedTotal (pre ++ ⟨true, k⟩ :: ⟨false, n - k⟩ :: post)) :
    Chain { s with lfree := lfree, usedMem := usedMem, maxMem := maxMem, mem := m }
      (pre ++ ⟨true, k⟩ :: ⟨false, n - k⟩ :: post) := by
  have hn4 : 4 ∣ n := h.size_dvd ⟨u, n⟩ (by simp)
  have hspl : Chain s (pre ++ [⟨u, n⟩] ++ post) := by simpa using h
  have hold : total [(⟨u, n⟩ : Blk)] = n := by simp
  have hres := hspl.edit [⟨true, k⟩, ⟨false, n - k⟩] lfree usedMem maxMem m (by rwa [hold]) (by simp; omega) ?sizes ?linked ?back
    (by rw [hused]; simp)
  · simpa using hres
  case sizes =>
    simp only [mem_cons, not_mem_nil, or_false, forall_eq_or_imp, forall_eq]
    exact ⟨⟨by omega, hk4, fun _ => hk16⟩, by omega, Nat.dvd_sub hn4 hk4, by simp⟩
  case linked =>
    have he : total pre + k + (n - k) = total pre + n := by omega
    exact linked_cons.mpr ⟨hf, hn, hp, linked_cons.mpr ⟨hf', hn'.trans he.symm, hp', trivial⟩⟩
  case back =>
    intro hne
    rw [hold]
    simpa using hback hne

section SplitBytes

variable {m : Bytes} {o e : ℕ}

theorem splitBytes_sameOff (m : Bytes) (o k e : ℕ) :
    Bytes.SameOff 12 [o, o + k] m (splitBytes m o k e) := by
  intro a ha
  have h1 := ha o (by simp)
  have h2 := ha (o + k) (by simp)
  simp only [splitBytes, setPrev, setNext, setMagic, setUsed]
  repeat rw [store_apply_of_out (by omega)]

theorem splitBytes_new (hk : 12 ≤ k) (ho : o < 2^32) (he : e < 2^32) :
    flag (splitBytes m o k e) (o + k) = some false ∧ next (splitBytes m o k e) (o + k) = e ∧
      prev (splitBytes m o k e) (o + k) = o := by
  refine ⟨flag_eq_false.mpr ⟨?_, ?_⟩, ?_, ?_⟩ <;>
    simp (disch := omega) only [splitBytes, magic, used, next, prev, setPrev, setNext, setMagic,
      setUsed, load_store_of_disjoint, load_store_same]
  · decide
  · decide
  · omega
  · omega

theorem splitBytes_old (hk : 12 ≤ k) (ho : o + k < 2^32) :
    magic (splitBytes m o k e) o = magic m o ∧ used (splitBytes m o k e) o = used m o ∧
      next (splitBytes m o k e) o = o + k ∧ prev (splitBytes m o k e) o = prev m o := by
  refine ⟨?_, ?_, ?_, ?_⟩ <;>
    simp (disch := omega) only [splitBytes, magic, used, next, prev, setPrev, setNext, setMagic,
      setUsed, load_store_of_disjoint, load_store_same]
  omega

end SplitBytes

/-- The bytes after the back link of `e` is set, unless `e` is the closing block. -/
def linkBack (m : Bytes) (heapEnd e q : ℕ) : Bytes := if e ≠ heapEnd then setPrev m e q else m

section LinkBack

variable {m : Bytes} {heapEnd o e q : ℕ}

theorem linkBack_apply {a : ℕ} (h : a < e + 8 ∨ e + 12 ≤ a) : linkBack m heapEnd e q a = m a := by
  unfold linkBack
  split_ifs
  · exact store_apply_of_out (by omega)
  · rfl

theorem linkBack_agree (m : Bytes) (heapEnd q : ℕ) (h : o + 12 ≤ e) :
    AgreeAt (fields m) (fields (linkBack m heapEnd e q)) o :=
  agreeAt_of_bytes fun _ _ _ => linkBack_apply (by omega)

theorem prev_linkBack (hne : e ≠ heapEnd) (hq : q < 2^32) :
    prev (linkBack m heapEnd e q) e = q := by
  unfold linkBack
  rw [if_pos hne, prev, setPrev, load_store_same]
  omega

end LinkBack

theorem Chain.after_cut_ne_end (h : Chain s (pre ++ ⟨u, n⟩ :: post)) (hne : post ≠ []) :
    total pre + n ≠ s.heapEnd := by
  have htot := h.cut.2.2.2.2.2.2
  rcases total_eq_zero_or_ge fun b (hb : b ∈ post) => h.size_ge b (by simp [hb]) with rfl | hge
  · exact absurd rfl hne
  · omega

section

variable (h : Chain s (pre ++ ⟨false, n⟩ :: post))
include h

theorem Chain.used_add_free_le : s.usedMem + n ≤ s.heapEnd := by
  have h1 := usedTotal_le_total pre
  have h2 := usedTotal_le_total post
  have h3 := h.used_eq
  have htot := h.cut.2.2.2.2.2.2
  simp only [usedTotal_append, usedTotal_cons_false] at h3
  omega

/-! ## The two ways to take a block -/

theorem mallocSplit_eq (hroom : size + 36 ≤ n) : (mallocSplit s (total pre) size).mem = linkBack
        (setUsed (splitBytes s.mem (total pre) (size + 12) (total pre + n)) (total pre) 1)
        s.heapEnd (total pre + n) (total pre + (size + 12)) ∧
      (mallocSplit s (total pre) size).usedMem = s.usedMem + (size + 12) := by
  obtain ⟨-, hn, -, -, -, -, htot⟩ := h.cut
  have hlt := h.end_lt
  have hend := h.end_eq
  have hu := h.used_add_free_le
  have e1 : add32 (add32 (total pre) 12) size = total pre + (size + 12) := by
    rw [add32_eq (a := total pre) (by omega), add32_eq (by omega)]
    omega
  have e2 : add32 s.memSizeAligned 12 = s.heapEnd := by rw [add32_eq (by omega), hend]
  have e3 : add32 s.usedMem (add32 size 12) = s.usedMem + (size + 12) := by
    rw [add32_eq (a := size) (by omega), add32_eq (by omega)]
  -- The reads of `next` in between.
  have r1 : next (setUsed (setMagic s.mem (total pre + (size + 12)) HEAP_MAGIC)
      (total pre + (size + 12)) 0) (total pre) = total pre + n := by
    rw [← hn]
    simp (disch := omega) only [next, setMagic, setUsed, load_store_of_disjoint]
  have r2 : next (setUsed (splitBytes s.mem (total pre) (size + 12) (total pre + n)) (total pre) 1)
      (total pre + (size + 12)) = total pre + n := by
    have := (splitBytes_new (m := s.mem) (o := total pre) (k := size + 12) (e := total pre + n)
      (by omega) (by omega) (by omega)).2.1
    refine Eq.trans ?_ this
    simp (disch := omega) only [next, setUsed, load_store_of_disjoint]
  unfold mallocSplit linkBack
  simp only [sizeof_eq, e1, e2, e3, r1]
  unfold splitBytes at r2 ⊢
  simp only [r2, and_self]

/-- Splitting a block keeps the chain. -/
theorem Chain.mallocSplit (h12 : 12 ≤ size)
    (h4 : 4 ∣ size) (hroom : size + 36 ≤ n) :
    Chain { mallocSplit s (total pre) size with
        mem := setMagic (mallocSplit s (total pre) size).mem (total pre) HEAP_MAGIC }
      (pre ++ ⟨true, size + 12⟩ :: ⟨false, n - (size + 12)⟩ :: post) := by
  obtain ⟨hf, -, hp, -, -, -, htot⟩ := h.cut
  have hlt := h.end_lt
  obtain ⟨hmem, hum⟩ := mallocSplit_eq h hroom
  obtain ⟨hmagic, -⟩ := flag_eq_false.mp hf
  set o := total pre with ho
  set m₀ := splitBytes s.mem o (size + 12) (o + n) with hm₀
  obtain ⟨hm1, -, hm3, hm4⟩ := splitBytes_old (m := s.mem) (o := o) (k := size + 12) (e := o + n)
    (by omega) (by omega)
  obtain ⟨hn1, hn2, hn3⟩ := splitBytes_new (m := s.mem) (o := o) (k := size + 12) (e := o + n)
    (by omega) (by omega) (by omega)
  rw [← hm₀] at hm1 hm3 hm4 hn1 hn2 hn3
  -- The new block's header is not written again.
  have hnew : AgreeAt (fields m₀) (fields (setMagic (linkBack (setUsed m₀ o 1) s.heapEnd (o + n)
      (o + (size + 12))) o HEAP_MAGIC)) (o + (size + 12)) := by
    refine agreeAt_of_bytes fun a _ _ => ?_
    rw [setMagic, store_apply_of_out (by omega), linkBack_apply (by omega), setUsed,
      store_apply_of_out (by omega)]
  obtain ⟨g1, g2, g3⟩ := hnew
  obtain ⟨-, l2, l3⟩ := linkBack_agree (o := o) (e := o + n) (setUsed m₀ o 1) s.heapEnd
    (o + (size + 12)) (by omega)
  rw [hmem]
  refine h.split (by omega) (by omega) (by omega) ?_ (flag_eq_true.mpr ⟨?_, ?_⟩) ?_ ?_
    (g1.trans hn1) (g2.trans hn2) (g3.trans hn3) ?_ ?_
  · intro a ha
    have hsame := splitBytes_sameOff s.mem o (size + 12) (o + n) a (by simp; omega)
    rw [setMagic, store_apply_of_out (by omega), linkBack_apply (by omega), setUsed,
      store_apply_of_out (by omega)]
    exact hsame
  · exact magic_setMagic
  · rw [used, setMagic, load_store_of_disjoint (by omega)]
    refine Eq.trans (load_congr fun a _ _ => linkBack_apply (by omega)) ?_
    exact used_setUsed (by norm_num)
  · rw [next, setMagic, load_store_of_disjoint (by omega)]
    refine Eq.trans l2 (Eq.trans ?_ hm3)
    simp (disch := omega) only [fields, next, setUsed, load_store_of_disjoint]
  · rw [prev, setMagic, load_store_of_disjoint (by omega)]
    refine Eq.trans l3 (Eq.trans ?_ (hm4.trans hp))
    simp (disch := omega) only [fields, prev, setUsed, load_store_of_disjoint]
  · intro hne
    rw [prev, setMagic, load_store_of_disjoint (by omega)]
    exact prev_linkBack (h.after_cut_ne_end hne) (by omega)
  · rw [hum, h.used_eq]
    simp only [usedTotal_append, usedTotal_cons_true, usedTotal_cons_false]
    omega

/-- So does taking it as it is. -/
theorem Chain.mallocWhole (hn16 : 16 ≤ n) :
    Chain { mallocWhole s (total pre) with
        mem := setMagic (mallocWhole s (total pre)).mem (total pre) HEAP_MAGIC }
      (pre ++ ⟨true, n⟩ :: post) := by
  obtain ⟨hf, hn, hp, -, hn4, -, htot⟩ := h.cut
  have hlt := h.end_lt
  have hspl : Chain s (pre ++ [⟨false, n⟩] ++ post) := by simpa using h
  have hold : total [(⟨false, n⟩ : Blk)] = n := by simp
  have hu := h.used_add_free_le
  have hn' : next (setUsed s.mem (total pre) 1) (total pre) = total pre + n := by
    refine Eq.trans ?_ hn
    simp (disch := omega) only [next, setUsed, load_store_of_disjoint]
  have hres := hspl.edit [⟨true, n⟩] s.lfree (Mem.mallocWhole s (total pre)).usedMem
    (Mem.mallocWhole s (total pre)).maxMem
    (setMagic (setUsed s.mem (total pre) 1) (total pre) HEAP_MAGIC)
    ?confined (by simp) ?sizes ?linked ?back ?used
  · simpa [Mem.mallocWhole] using hres
  case confined =>
    intro a ha
    rw [setMagic, store_apply_of_out (by omega), setUsed, store_apply_of_out (by omega)]
  case sizes => simpa using ⟨by omega, hn4, hn16⟩
  case linked =>
    refine linked_cons.mpr ⟨flag_eq_true.mpr ⟨?_, ?_⟩, Eq.trans ?_ hn', Eq.trans ?_ hp, trivial⟩
    · exact magic_setMagic
    · rw [used, setMagic, load_store_of_disjoint (by omega)]
      exact used_setUsed (by norm_num)
    · simp (disch := omega) only [fields, next, setMagic, load_store_of_disjoint]
    · simp (disch := omega) only [fields, prev, setMagic, setUsed, load_store_of_disjoint]
  case back =>
    intro hne
    rw [hold]
    refine Eq.trans ?_ (h.cut_back hne)
    simp (disch := omega) only [prev, setMagic, setUsed, load_store_of_disjoint]
  case used =>
    have hsize : sub32 (total pre + n) (total pre) = n := by
      rw [sub32_eq (by omega) (by omega)]
      omega
    have h3 := h.used_eq
    simp only [Mem.mallocWhole, hn', hsize]
    rw [add32_eq (by omega), h3]
    simp only [usedTotal_append, usedTotal_cons_true, usedTotal_cons_false, usedTotal_nil]
    omega

end

/-- The blocks that a free block of size `n` becomes when `size` bytes of it are taken. -/
def takeBlocks (n size : ℕ) : List Blk :=
  if size + 36 ≤ n then [⟨true, size + 12⟩, ⟨false, n - (size + 12)⟩] else [⟨true, n⟩]

theorem total_takeBlocks (n size : ℕ) : total (takeBlocks n size) = n := by
  unfold takeBlocks
  split_ifs
  · simp only [total_cons, total_nil]
    omega
  · simp

/-- Marking the block found: its blocks are replaced, and only headers are written. -/
theorem mallocMark_spec (h : Chain s (pre ++ ⟨false, n⟩ :: post)) (h12 : 12 ≤ size)
    (h4 : 4 ∣ size) (hroom : size + 12 ≤ n) :
    Chain (mallocMark s (total pre) size) (pre ++ takeBlocks n size ++ post) ∧
      (mallocMark s (total pre) size).lfree = s.lfree ∧
      SameBounds s (mallocMark s (total pre) size) ∧
      Bytes.SameOff 12 (headers 0 (pre ++ ⟨false, n⟩ :: post) ++
        headers 0 (pre ++ takeBlocks n size ++ post)) s.mem (mallocMark s (total pre) size).mem := by
  obtain ⟨-, hn, -, -, -, -, htot⟩ := h.cut
  have hlt := h.end_lt
  have e1 : sub32 (total pre + n) (add32 (total pre) 12) = n - 12 := by
    rw [add32_eq (by omega), sub32_eq (by omega) (by omega)]
    omega
  have e2 : add32 (add32 size 12) 12 = size + 24 := by
    rw [add32_eq (a := size) (by omega), add32_eq (by omega)]
  have hcond : (n - 12 ≥ size + 24) ↔ size + 36 ≤ n := by omega
  have hhead := mem_headers_cut pre ⟨false, n⟩ post
  unfold mallocMark takeBlocks
  simp only [hn, sizeof_eq, min_size_aligned_eq, e1, e2, hcond]
  split_ifs with hsplit
  · refine ⟨by simpa using h.mallocSplit h12 h4 hsplit, rfl, ⟨rfl, rfl, rfl⟩, ?_⟩
    -- The headers written are those of the block, of the new one, and of the one after.
    have hafter := mem_headers_after_cut pre ⟨false, n⟩ post
    have hnew := mem_headers_cut (pre ++ [⟨true, size + 12⟩]) ⟨false, n - (size + 12)⟩ post
    simp only [total_append, total_cons, total_nil, Nat.add_zero, append_assoc,
      singleton_append] at hnew
    intro a ha
    have h1 := ha _ (mem_append_left _ hhead)
    have h2 := ha _ (mem_append_left _ hafter)
    have h3 := ha _ (mem_append_right _ (by simpa using hnew))
    have hsame := splitBytes_sameOff s.mem (total pre) (size + 12) (total pre + n) a (by simp; omega)
    rw [(mallocSplit_eq h hsplit).1]
    simp only at h2 ⊢
    rw [setMagic, store_apply_of_out (by omega), linkBack_apply (by omega), setUsed,
      store_apply_of_out (by omega)]
    exact hsame
  · refine ⟨by simpa using h.mallocWhole (by omega), rfl, ⟨rfl, rfl, rfl⟩, ?_⟩
    intro a ha
    have h1 := ha _ (mem_append_left _ hhead)
    simp only [mallocWhole]
    rw [setMagic, store_apply_of_out (by omega), setUsed, store_apply_of_out (by omega)]

/-! ## Moving `lfree` -/

/-- From the block `lfree` on, the loop finds the first free block, if `fuel` lets it reach it. -/
theorem advanceLfree_spec (fuel : ℕ) {suf : List Blk} (h : Chain s (pre ++ suf))
    (hlf : s.lfree = total pre) :
    advanceLfree s fuel = none ∧ fuel ≤ suf.length ∨
      ∃ c, advanceLfree s fuel = some { s with lfree := c } ∧
        FirstFree (pre ++ suf) (total pre) c := by
  induction suf generalizing pre s fuel with
  | nil =>
    cases fuel with
    | zero => exact .inl ⟨rfl, le_rfl⟩
    | succ fuel =>
      right
      have hend : total pre = s.heapEnd := by simpa using h.total_eq
      refine ⟨total pre, ?_, .inl (by simp), le_rfl, fun x _ _ hx => hx⟩
      rw [advanceLfree, if_neg (by rw [hlf, hend]; simp), ← hlf]
  | cons b suf ih =>
    cases fuel with
    | zero => exact .inl ⟨rfl, by simp⟩
    | succ fuel =>
      obtain ⟨v, n⟩ := b
      obtain ⟨hf, hn, -, hn12, -, -, htot⟩ := h.cut
      cases v with
      | false =>
        right
        have hused := (flag_eq_false.mp hf).2
        refine ⟨total pre, ?_, .inr ⟨n, by simp⟩, le_rfl, fun x _ _ hx => hx⟩
        rw [advanceLfree, if_neg (by rw [hlf, hused]; simp), ← hlf]
      | true =>
        have hused := (flag_eq_true.mp hf).2
        have h' : Chain { s with lfree := total pre + n } ((pre ++ [⟨true, n⟩]) ++ suf) := by
          simpa using h.withLfree (total pre + n) s.maxMem
        rw [advanceLfree, if_pos (by rw [hlf, hused]; omega), hlf, hn]
        rcases ih fuel h' (by simp) with ⟨hnone, hle⟩ | ⟨c, hc, hfree, hge, hmin⟩
        · exact .inl ⟨hnone, by simpa using hle⟩
        · right
          simp only [total_append, total_cons, total_nil, Nat.add_zero] at hge hmin
          refine ⟨c, hc, by simpa using hfree, by omega, fun x hx hxf hle => ?_⟩
          refine hmin x (by simpa using hx) hxf ?_
          -- The block at `lfree` is in use, so `x` is another one, and lies beyond it.
          have hne : x.1 ≠ total pre := by
            intro heq
            have := place_unique (fun b hb => by have := h.size_ge b hb; omega) hx
              (y := (total pre, ⟨true, n⟩)) (by simp) heq
            rw [this] at hxf
            cases hxf
          have := place_disjoint hx (y := (total pre, ⟨true, n⟩)) (by simp) hne
          simp only at *
          omega

/-! ## `rt_malloc` -/

/-- The size that `rt_malloc` looks for: the request, aligned and clamped. -/
def reqSize (size : ℕ) : ℕ :=
  if rtAlign size RT_ALIGN_SIZE < MIN_SIZE_ALIGNED then MIN_SIZE_ALIGNED
  else rtAlign size RT_ALIGN_SIZE

theorem reqSize_ge (size : ℕ) : 12 ≤ reqSize size := by
  unfold reqSize
  rw [min_size_aligned_eq]
  split_ifs <;> omega

theorem reqSize_dvd (size : ℕ) : 4 ∣ reqSize size := by
  unfold reqSize
  rw [min_size_aligned_eq, rtAlign_four]
  split_ifs <;> omega

theorem noAdjFree_takeBlocks (h : NoAdjFree (pre ++ ⟨false, n⟩ :: post)) :
    NoAdjFree (pre ++ takeBlocks n size ++ post) := by
  obtain ⟨hpre, hpost, -, hhead⟩ := noAdjFree_free.mp h
  unfold takeBlocks
  split_ifs
  · have hrest : NoAdjFree ([] ++ ⟨false, n - (size + 12)⟩ :: post) :=
      noAdjFree_cons_free.mpr ⟨hpost, hhead⟩
    simpa using noAdjFree_used.mpr ⟨hpre, hrest⟩
  · simpa using noAdjFree_used.mpr ⟨hpre, hpost⟩

/-- Taking the free block at the cut, if the fuel lets `lfree` move to the next free block. -/
theorem mallocTake_spec (fuel : ℕ) (h : Inv s (pre ++ ⟨false, n⟩ :: post)) (h12 : 12 ≤ size)
    (h4 : 4 ∣ size) (hroom : size + 12 ≤ n) :
    mallocTake fuel s (total pre) size = none ∧ fuel ≤ (takeBlocks n size ++ post).length ∨
      ∃ s', mallocTake fuel s (total pre) size = some (some (total pre + 12), s') ∧
        Inv s' (pre ++ takeBlocks n size ++ post) ∧ SameBounds s s' ∧
        Bytes.SameOff 12 (headers 0 (pre ++ ⟨false, n⟩ :: post) ++
          headers 0 (pre ++ takeBlocks n size ++ post)) s.mem s'.mem ∧
        (total pre = s.lfree → FirstFree (pre ++ takeBlocks n size ++ post) (total pre) s'.lfree) ∧
        (total pre ≠ s.lfree → s'.lfree = s.lfree) := by
  obtain ⟨-, -, -, -, -, ho4, htot⟩ := h.cut
  have hp4 := h.ptr_dvd
  obtain ⟨hc, hlf, hb, hm⟩ := mallocMark_spec h.toChain h12 h4 hroom
  obtain ⟨s₁, hmark⟩ : ∃ s₁, mallocMark s (total pre) size = s₁ := ⟨_, rfl⟩
  rw [hmark] at hc hlf hb hm
  have hadj : NoAdjFree (pre ++ takeBlocks n size ++ post) := noAdjFree_takeBlocks h.noAdj
  -- The assertions of `rt_malloc` hold.
  have hg1 : total pre + 12 + size ≤ s₁.heapEnd := by
    rw [hb.end_eq]
    omega
  have hg2 : (s₁.heapPtr + total pre + 12) % RT_ALIGN_SIZE = 0 := by
    rw [hb.ptr_eq]
    unfold RT_ALIGN_SIZE
    omega
  by_cases heq : total pre = s.lfree
  · have hc' : Chain s₁ (pre ++ (takeBlocks n size ++ post)) := by
      simpa using hc
    rcases advanceLfree_spec fuel hc' (by rw [hlf, heq]) with ⟨hnone, hle⟩ | ⟨c, hsome, hfirst⟩
    · left
      refine ⟨?_, hle⟩
      simp only [mallocTake, hmark]
      rw [if_pos (by rw [hlf, heq]), hnone]
      rfl
    · right
      rw [← append_assoc] at hfirst
      refine ⟨{ s₁ with lfree := c }, ?_,
        ⟨hc.withLfree c _, hadj, hfirst.1⟩, ⟨hb.ptr_eq, hb.end_eq, hb.size_eq⟩, hm,
        fun _ => hfirst, fun hne => absurd heq hne⟩
      simp only [mallocTake, hmark]
      rw [if_pos (by rw [hlf, heq]), hsome]
      simp [hg1, hg2]
  · right
    have hout : s.lfree < total pre ∨ total pre + n ≤ s.lfree := by
      by_contra hin
      exact heq (h.lfree_ok.eq_of_mem (x := (total pre, ⟨false, n⟩)) (by simp) (by simp only; omega)
        (by simp only; omega)).symm
    have hok : FreeOrEnd (pre ++ takeBlocks n size ++ post) s.lfree := by
      have hspl : FreeOrEnd (pre ++ [⟨false, n⟩] ++ post) s.lfree := by simpa using h.lfree_ok
      refine hspl.splice (by simp [total_takeBlocks]) (by simpa using hout) ?_
      simp only [mem_singleton, forall_eq]
      omega
    refine ⟨s₁, ?_, ⟨hc, hadj, by rw [hlf]; exact hok⟩, hb, hm,
      fun h => absurd h heq, fun _ => hlf⟩
    simp only [mallocTake, hmark]
    rw [if_neg (by rw [hlf]; exact heq)]
    simp [hg1, hg2]

theorem rtMalloc_refuse (h : size = 0 ∨ s.memSizeAligned < rtAlign size RT_ALIGN_SIZE) :
    rtMalloc fuel s size = some (none, s) := by
  unfold rtMalloc
  by_cases h0 : size = 0
  · rw [if_pos h0]
  · rw [if_neg h0]
    exact if_pos (h.resolve_left h0)

theorem rtMalloc_eq (h0 : size ≠ 0)
    (hle : rtAlign size RT_ALIGN_SIZE ≤ s.memSizeAligned) :
    rtMalloc fuel s size = match mallocSearch s (reqSize size) fuel s.lfree with
      | none => none
      | some none => some (none, s)
      | some (some ptr) => mallocTake fuel s ptr (reqSize size) := by
  unfold rtMalloc
  rw [if_neg h0]
  exact if_neg (by omega)

theorem Inv.cut_lfree (h : Inv s bs) : ∃ pre suf, bs = pre ++ suf ∧ total pre = s.lfree := by
  rcases h.lfree_ok with hend | ⟨k, hk⟩
  · exact ⟨bs, [], by simp, hend.symm⟩
  · obtain ⟨pre, post, rfl, hpre⟩ := exists_of_mem_place hk
    exact ⟨pre, _, rfl, by simpa using hpre⟩

/-- What `rt_malloc` does: nothing, or it takes the free block that the search found. -/
theorem rtMalloc_spec {r : Option ℕ} {s' : Heap} (h : Inv s bs)
    (hr : rtMalloc fuel s size = some (r, s')) :
    r = none ∧ s' = s ∨ size ≠ 0 ∧ rtAlign size RT_ALIGN_SIZE ≤ s.memSizeAligned ∧
      ∃ pre n post, bs = pre ++ ⟨false, n⟩ :: post ∧
        reqSize size + 12 ≤ n ∧ r = some (total pre + 12) ∧
        Inv s' (pre ++ takeBlocks n (reqSize size) ++ post) ∧ SameBounds s s' ∧
        Bytes.SameOff 12 (headers 0 bs ++ headers 0 (pre ++ takeBlocks n (reqSize size) ++ post))
          s.mem s'.mem ∧ (total pre = s.lfree →
          FirstFree (pre ++ takeBlocks n (reqSize size) ++ post) (total pre) s'.lfree) ∧
        (total pre ≠ s.lfree → s.lfree < total pre ∧ s'.lfree = s.lfree) := by
  by_cases hrefuse : size = 0 ∨ s.memSizeAligned < rtAlign size RT_ALIGN_SIZE
  · rw [rtMalloc_refuse hrefuse] at hr
    simp only [some.injEq, Prod.mk.injEq] at hr
    exact .inl ⟨hr.1.symm, hr.2.symm⟩
  · obtain ⟨h0, hle⟩ := not_or.mp hrefuse
    rw [rtMalloc_eq h0 (by omega)] at hr
    split at hr
    · cases hr
    · simp only [some.injEq, Prod.mk.injEq] at hr
      exact .inl ⟨hr.1.symm, hr.2.symm⟩
    · rename_i ptr hsearch
      right
      refine ⟨h0, by omega, ?_⟩
      -- The search starts at a block of the chain.
      obtain ⟨pre, suf, rfl, hpre⟩ := h.cut_lfree
      rw [← hpre] at hsearch
      obtain ⟨mid, n, post, rfl, hptr, hroom, -⟩ := mallocSearch_found h.toChain hsearch
      have h' : Inv s ((pre ++ mid) ++ ⟨false, n⟩ :: post) := by simpa using h
      have hptr' : ptr = total (pre ++ mid) := by simpa using hptr
      rw [hptr'] at hr
      rcases mallocTake_spec fuel h' (reqSize_ge size) (reqSize_dvd size) hroom with
        ⟨hnone, -⟩ | ⟨s'', hs'', hinv, hb, hm, hlf, hlf'⟩
      · rw [hnone] at hr
        cases hr
      · rw [hs''] at hr
        obtain ⟨rfl, rfl⟩ := hr
        refine ⟨pre ++ mid, n, post, by simp, hroom, rfl, hinv, hb, by simpa using hm, hlf, fun hne =>
          ⟨?_, hlf' hne⟩⟩
        rw [total_append, hpre] at hne ⊢
        omega

theorem takeBlocks_cons (hroom : size + 12 ≤ n) : ∃ k rest, takeBlocks n size = ⟨true, k⟩ :: rest ∧
    size + 12 ≤ k ∧ k ≤ n ∧ ∀ b ∈ rest, b.used = false := by
  unfold takeBlocks
  split_ifs with h
  · exact ⟨size + 12, _, rfl, le_rfl, hroom, by simp⟩
  · exact ⟨n, [], rfl, hroom, le_rfl, by simp⟩

/-- The effect of `rt_malloc`: none, or a new block in use with room for the request. If `lfree` was
the lowest free block it is so again. -/
theorem rtMalloc_effect {r : Option ℕ} {s' : Heap} (h : Inv s bs)
    (hr : rtMalloc fuel s size = some (r, s')) :
    r = none ∧ s' = s ∨ ∃ q k bs', r = some (q + 12) ∧ reqSize size + 12 ≤ k ∧
      Effect s bs s' bs' none (some (q, ⟨true, k⟩)) ∧ (Lowest s bs → Lowest s' bs') := by
  rcases rtMalloc_spec h hr with hnone | ⟨-, -, pre, n, post, rfl, hroom, rfl, hinv, hb, hm, hlf, hlf'⟩
  · exact .inl hnone
  right
  obtain ⟨k, rest, htake, hk, -, hrest⟩ := takeBlocks_cons hroom
  have htot : total (takeBlocks n (reqSize size)) = n := total_takeBlocks _ _
  have heq : pre ++ ⟨false, n⟩ :: post = pre ++ [⟨false, n⟩] ++ post := by simp
  rw [heq] at h hm ⊢
  refine ⟨total pre, k, pre ++ takeBlocks n (reqSize size) ++ post, rfl, hk, ?_, ?_⟩
  · refine Effect.of_splice hinv hb (by simp [htot]) (by simp) (by simp) ?_ ?_
    · intro x
      rw [htake]
      simp only [place_cons, mem_cons, mem_def, some.injEq]
      constructor
      · rintro ⟨rfl | hx, hu⟩
        · rfl
        · exact absurd hx (not_mem_place_of_unused hrest hu)
      · rintro rfl
        exact ⟨.inl rfl, rfl⟩
    · intro x hx hx'
      exact sameArea_of_sameOff hm hx.1 hx'.1
  · intro hlow x hx hfree
    -- `lfree` was at most the block taken.
    have hle : s.lfree ≤ total pre := hlow (total pre, ⟨false, n⟩) (by simp) rfl
    have hin := mem_place_mid.mp hx
    rw [htot] at hin
    have hge : x ∈ place 0 pre ∧ s.lfree ≤ x.1 ∨ total pre ≤ x.1 := by
      rcases hin with hin | hin | hin
      · exact .inl ⟨hin, hlow x (by simp [hin]) hfree⟩
      · exact .inr (place_bounds hin).1
      · have := (place_bounds hin).1
        exact .inr (by omega)
    by_cases heq : total pre = s.lfree
    · exact (hlf heq).2.2 x hx hfree (by omega)
    · omega

end RtThread.Mem
