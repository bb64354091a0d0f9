import RtThread.Mem.Safety

/-!
# Which requests `rt_malloc` can serve

A request is searched for with its size aligned and clamped (`reqSize`), and the search ends where
`ptr < mem_size_aligned - size` fails. A free block with room lies below that bound, or at it: at the
bound it is the last block of the heap and the size fits exactly, and then the search passes it by. If
`mem_size_aligned` is below the least size of a block the difference wraps around, and the search goes
round at the closing block for ever. In all other cases the search finds the lowest block with room.
-/

namespace RtThread.Mem

open Lib List Option

variable {s : Heap} {pre suf bs : List Blk} {n size fuel : ℕ}

/-! ## The search -/

theorem mallocSearch_lt {ptr ptr' : ℕ} (h : mallocSearch s size fuel ptr = some (some ptr')) :
    ptr' < sub32 s.memSizeAligned size := by
  induction fuel generalizing ptr with
  | zero => cases h
  | succ fuel ih =>
    rw [mallocSearch] at h
    split_ifs at h with hlt
    · cases h
      exact hlt
    · exact ih h
    · cases h

theorem mallocSearch_none (h : Chain s (pre ++ suf))
    (hr : mallocSearch s size fuel (total pre) = some none) :
    ∀ x ∈ place (total pre) suf, x.2.used = false → size + 12 ≤ x.2.size →
      sub32 s.memSizeAligned size ≤ x.1 := by
  induction fuel generalizing pre suf with
  | zero => cases hr
  | succ fuel ih =>
    intro x hx hfree hroom
    have hle := (place_bounds hx).1
    cases suf with
    | nil => cases hx
    | cons b suf =>
      rw [mallocSearch_cons h] at hr
      split_ifs at hr with hlt hfit
      · cases hr
      · have h' : Chain s ((pre ++ [b]) ++ suf) := by simpa using h
        rcases mem_cons.mp hx with rfl | hx
        · exact absurd ⟨hfree, hroom⟩ hfit
        · exact ih h' hr x (by simpa using hx) hfree hroom
      · omega

theorem mallocSearch_ends (h : Chain s (pre ++ suf)) (hbound : sub32 s.memSizeAligned size ≤ s.heapEnd)
    (hfuel : suf.length < fuel) : mallocSearch s size fuel (total pre) ≠ none := by
  induction fuel generalizing pre suf with
  | zero => omega
  | succ fuel ih =>
    cases suf with
    | nil =>
      have hchain : Chain s pre := by simpa using h
      rw [mallocSearch_end hchain, if_neg (by rw [hchain.total_eq]; omega)]
      simp
    | cons b suf =>
      have h' : Chain s ((pre ++ [b]) ++ suf) := by simpa using h
      rw [mallocSearch_cons h]
      split_ifs
      · simp
      · exact ih h' (by simpa using hfuel)
      · simp

theorem mallocSearch_stuck (h : Chain s (pre ++ suf))
    (hbound : s.heapEnd < sub32 s.memSizeAligned size) (hroom : ∀ b ∈ suf, b.size < size + 12) :
    mallocSearch s size fuel (total pre) = none := by
  induction fuel generalizing pre suf with
  | zero => rfl
  | succ fuel ih =>
    have hle := h.total_eq
    rw [total_append] at hle
    cases suf with
    | nil =>
      rw [mallocSearch_end (by simpa using h), if_pos (by omega)]
      exact ih h (by simp)
    | cons b suf =>
      obtain ⟨hb, hroom⟩ := forall_mem_cons.mp hroom
      have h' : Chain s ((pre ++ [b]) ++ suf) := by simpa using h
      rw [mallocSearch_cons h, if_pos (by omega), if_neg fun hfit => by omega]
      exact ih h' hroom

/-! ## Blocks with room -/

/-- The block at `a` is free and has room for a request. -/
def Fits (s : Heap) (size a : ℕ) : Prop :=
  used s.mem a = 0 ∧ a + SIZEOF_STRUCT_MEM + reqSize size ≤ next s.mem a

/-- `rt_malloc` returns, it returns a block if and only if one of the blocks fits, and then it is the
lowest. -/
def Served (s : Heap) (offs : List ℕ) (size : ℕ) : Prop :=
  ∃ r s', (∃ fuel, rtMalloc fuel s size = some (r, s')) ∧
    (r.isSome = true ↔ ∃ a ∈ offs, Fits s size a) ∧
    ∀ p ∈ r, ∃ a, p = a + SIZEOF_STRUCT_MEM ∧ IsLeast {a | a ∈ offs ∧ Fits s size a} a

theorem fits_iff (h : Inv s bs) {x : ℕ × Blk} (hx : x ∈ place 0 bs) :
    Fits s size x.1 ↔ x.2.used = false ∧ reqSize size + 12 ≤ x.2.size := by
  have hnext : next s.mem x.1 = x.1 + x.2.size := (h.linked.at_mem hx).2
  unfold Fits
  rw [h.used_eq_zero_iff hx, hnext, sizeof_eq]
  exact and_congr_right fun _ => by omega

theorem Fits.le_bound (h : Inv s bs) {x : ℕ × Blk} (hx : x ∈ place 0 bs)
    (hfit : Fits s size x.1) : x.1 + reqSize size ≤ s.memSizeAligned := by
  have hroom := ((fits_iff h hx).mp hfit).2
  have hend := (place_bounds hx).2
  rw [h.total_eq, h.end_eq] at hend
  omega

theorem Inv.align_le (h : Inv s bs) (hle : size ≤ s.memSizeAligned) :
    rtAlign size RT_ALIGN_SIZE ≤ s.memSizeAligned := by
  have hdvd : 4 ∣ s.heapEnd := by
    rw [← h.total_eq]
    exact dvd_sum fun n hn => by
      obtain ⟨b, hb, rfl⟩ := mem_map.mp hn
      exact h.size_dvd b hb
  have hend := h.end_eq
  rw [rtAlign_four]
  omega

theorem Inv.exists_start (h : Inv s bs) (hlow : Lowest s bs) :
    ∃ pre suf, bs = pre ++ suf ∧ total pre = s.lfree ∧
      ∀ x ∈ place 0 bs, x.2.used = false → x ∈ place (total pre) suf := by
  obtain ⟨pre, suf, rfl, hpre⟩ := h.cut_lfree
  refine ⟨pre, suf, rfl, hpre, fun x hx hfree => ?_⟩
  have hle := hlow x hx hfree
  rw [place_append, mem_append, Nat.zero_add] at hx
  refine hx.resolve_left fun hx => ?_
  have := h.toChain.before_cut hx
  omega

theorem rtMalloc_stuck (h : Inv s bs) (hpos : size ≠ 0)
    (halign : rtAlign size RT_ALIGN_SIZE ≤ s.memSizeAligned) (hsmall : s.memSizeAligned < 12) :
    rtMalloc fuel s size = none := by
  have hend := h.end_eq
  obtain ⟨pre, suf, rfl, hpre⟩ := h.cut_lfree
  have hsize : reqSize size = 12 := by
    unfold reqSize
    rw [min_size_aligned_eq]
    split_ifs <;> omega
  have hstuck : mallocSearch s (reqSize size) fuel (total pre) = none := by
    refine mallocSearch_stuck h.toChain (by unfold sub32; omega) fun b hb => ?_
    have hb := single_le_sum (fun _ _ => Nat.zero_le _) b.size
      (mem_map_of_mem (f := Blk.size) hb)
    have htotal := h.total_eq
    rw [total_append] at htotal
    unfold total at htotal
    omega
  rw [rtMalloc_eq hpos halign, ← hpre, hstuck]

theorem Served.min_size_le {offs : List ℕ} (hserved : Served s offs size) (h : Inv s bs)
    (hpos : size ≠ 0) (hle : size ≤ s.memSizeAligned) : MIN_SIZE_ALIGNED ≤ s.memSizeAligned := by
  obtain ⟨r, s', ⟨fuel, hr⟩, -⟩ := hserved
  rw [min_size_aligned_eq]
  by_contra hsmall
  rw [rtMalloc_stuck h hpos (h.align_le hle) (by omega)] at hr
  cases hr

theorem Inv.bound_eq (h : Inv s bs) (halign : rtAlign size RT_ALIGN_SIZE ≤ s.memSizeAligned)
    (hmin : 12 ≤ s.memSizeAligned) :
    sub32 s.memSizeAligned (reqSize size) = s.memSizeAligned - reqSize size := by
  have hend := h.end_eq
  have hlt := h.end_lt
  refine sub32_eq ?_ (by omega)
  unfold reqSize
  rw [min_size_aligned_eq]
  split_ifs <;> omega

theorem Inv.search_returns (h : Inv s (pre ++ suf))
    (halign : rtAlign size RT_ALIGN_SIZE ≤ s.memSizeAligned) (hmin : 12 ≤ s.memSizeAligned)
    (hfuel : (pre ++ suf).length + 3 ≤ fuel) :
    ∃ found, mallocSearch s (reqSize size) fuel (total pre) = some found := by
  have hend := h.end_eq
  rw [length_append] at hfuel
  refine ne_none_iff_exists'.mp (mallocSearch_ends h.toChain ?_ (by omega))
  rw [h.bound_eq halign hmin]
  omega

theorem Inv.take_returns (h : Inv s (pre ++ ⟨false, n⟩ :: suf)) (hroom : reqSize size + 12 ≤ n)
    (hfuel : (pre ++ ⟨false, n⟩ :: suf).length + 3 ≤ fuel) :
    ∃ s', mallocTake fuel s (total pre) (reqSize size) = some (some (total pre + 12), s') := by
  rcases mallocTake_spec fuel h (reqSize_ge size) (reqSize_dvd size) hroom with
    ⟨-, hshort⟩ | ⟨s', hs', -⟩
  · exfalso
    unfold takeBlocks at hshort
    rw [length_append, length_cons] at hfuel
    split_ifs at hshort <;> simp at hshort <;> omega
  · exact ⟨s', hs'⟩

/-- `rt_malloc` returns, unless the size of the heap is below the least size of a block and the
request is not refused at once. -/
theorem Inv.rtMalloc_returns (h : Inv s bs)
    (hok : size ≠ 0 → rtAlign size RT_ALIGN_SIZE ≤ s.memSizeAligned → 12 ≤ s.memSizeAligned) :
    ∃ fuel r, rtMalloc fuel s size = some r := by
  by_cases hrefuse : size = 0 ∨ s.memSizeAligned < rtAlign size RT_ALIGN_SIZE
  · exact ⟨0, _, rtMalloc_refuse hrefuse⟩
  obtain ⟨hpos, hle⟩ := not_or.mp hrefuse
  have halign : rtAlign size RT_ALIGN_SIZE ≤ s.memSizeAligned := by omega
  obtain ⟨pre, suf, rfl, hpre⟩ := h.cut_lfree
  set fuel := (pre ++ suf).length + 3 with hfuel
  refine ⟨fuel, ?_⟩
  obtain ⟨found, hsearch⟩ := h.search_returns halign (hok hpos halign) hfuel.ge
  rw [rtMalloc_eq hpos halign, ← hpre, hsearch]
  cases found with
  | none => exact ⟨_, rfl⟩
  | some ptr =>
    obtain ⟨mid, n, post, rfl, hptr, hroom, -⟩ := mallocSearch_found h.toChain hsearch
    have h' : Inv s ((pre ++ mid) ++ ⟨false, n⟩ :: post) := by simpa using h
    obtain ⟨s', hs'⟩ := h'.take_returns hroom (by simpa using hfuel.ge)
    rw [total_append, ← hptr] at hs'
    exact ⟨_, hs'⟩

theorem rtMalloc_lt {p : ℕ} {s' : Heap} (h : Inv s bs) (hlow : Lowest s bs) (hpos : size ≠ 0)
    (hle : size ≤ s.memSizeAligned) (hr : rtMalloc fuel s size = some (some p, s')) :
    p < sub32 s.memSizeAligned (reqSize size) + SIZEOF_STRUCT_MEM := by
  obtain ⟨pre, suf, rfl, hpre, -⟩ := h.exists_start hlow
  rw [rtMalloc_eq hpos (h.align_le hle), ← hpre] at hr
  split at hr
  · cases hr
  · cases hr
  · next ptr hsearch =>
    have hbound := mallocSearch_lt hsearch
    obtain ⟨mid, n, post, rfl, hptr, hroom, -⟩ := mallocSearch_found h.toChain hsearch
    have h' : Inv s ((pre ++ mid) ++ ⟨false, n⟩ :: post) := by simpa using h
    rw [hptr, ← total_append] at hr
    rcases mallocTake_spec fuel h' (reqSize_ge size) (reqSize_dvd size) hroom with
      ⟨hnone, -⟩ | ⟨s'', hs'', -⟩
    · rw [hnone] at hr
      cases hr
    · rw [hs''] at hr
      simp only [some.injEq, Prod.mk.injEq, total_append] at hr
      rw [sizeof_eq]
      omega

/-- The search serves a request in a heap with room for a block of the least size, unless the lowest
block that fits does so exactly at the end of the heap. -/
theorem Inv.served (h : Inv s bs) (hlow : Lowest s bs) (hpos : size ≠ 0)
    (hle : size ≤ s.memSizeAligned) (hmin : MIN_SIZE_ALIGNED ≤ s.memSizeAligned)
    (hexact : ∀ a, IsLeast {a | a ∈ (place 0 bs).map Prod.fst ∧ Fits s size a} a →
      a + reqSize size ≠ s.memSizeAligned) : Served s ((place 0 bs).map Prod.fst) size := by
  have halign := h.align_le hle
  rw [min_size_aligned_eq] at hmin
  have hbound := h.bound_eq halign hmin
  obtain ⟨pre, suf, rfl, hpre, hfree⟩ := h.exists_start hlow
  set fuel := (pre ++ suf).length + 3 with hfuel
  obtain ⟨found, hsearch⟩ := h.search_returns halign hmin hfuel.ge
  have hrun : rtMalloc fuel s size = _ := rtMalloc_eq hpos halign
  rw [← hpre, hsearch] at hrun
  cases found with
  | none =>
    refine ⟨none, s, ⟨fuel, hrun⟩, ?_, by simp⟩
    simp only [isSome_none, Bool.false_eq_true, false_iff]
    rintro ⟨a, ha, hfit⟩
    -- All blocks that fit lie at the bound, so this one is the least.
    have hat : ∀ b ∈ (place 0 (pre ++ suf)).map Prod.fst, Fits s size b →
        b + reqSize size = s.memSizeAligned := by
      intro b hb hfits
      obtain ⟨x, hx, rfl⟩ := mem_map.mp hb
      obtain ⟨hunused, hroom⟩ := (fits_iff h hx).mp hfits
      have := mallocSearch_none h.toChain hsearch x (hfree x hx hunused) hunused hroom
      have := Fits.le_bound h hx hfits
      omega
    refine hexact a ⟨⟨ha, hfit⟩, fun b hb => ?_⟩ (hat a ha hfit)
    have := hat a ha hfit
    have := hat b hb.1 hb.2
    omega
  | some ptr =>
    obtain ⟨mid, n, post, rfl, hptr, hroom, hmid⟩ := mallocSearch_found h.toChain hsearch
    have h' : Inv s ((pre ++ mid) ++ ⟨false, n⟩ :: post) := by simpa using h
    have hx : (ptr, (⟨false, n⟩ : Blk)) ∈ place 0 (pre ++ (mid ++ ⟨false, n⟩ :: post)) := by
      simp [hptr]
    have hfit : Fits s size ptr := (fits_iff h hx).mpr ⟨rfl, hroom⟩
    have hmem := mem_map_of_mem (f := Prod.fst) hx
    obtain ⟨s', hs'⟩ := h'.take_returns hroom (by simpa using hfuel.ge)
    rw [total_append, ← hptr] at hs'
    refine ⟨_, s', ⟨fuel, hrun.trans hs'⟩, by simpa using ⟨ptr, by simpa using hmem, hfit⟩, ?_⟩
    simp only [mem_def, some.injEq, forall_eq', sizeof_eq]
    refine ⟨ptr, rfl, ⟨hmem, hfit⟩, fun b hb => ?_⟩
    -- A block that fits is free, so not in front of the start, and does not lie in between.
    obtain ⟨y, hy, rfl⟩ := mem_map.mp hb.1
    obtain ⟨hunused, hroom'⟩ := (fits_iff h hy).mp hb.2
    have hsuf := hfree y hy hunused
    rw [place_append, mem_append] at hsuf
    rcases hsuf with hbetween | hafter
    · rcases hmid y.2 (mem_of_mem_place hbetween) with hused | hshort
      · rw [hunused] at hused
        cases hused
      · omega
    · have := (place_bounds hafter).1
      omega

theorem Served.not_at_end (h : Inv s bs) (hlow : Lowest s bs) (hpos : size ≠ 0)
    (hle : size ≤ s.memSizeAligned) {a : ℕ} {offs : List ℕ} (hserved : Served s offs size)
    (ha : IsLeast {a | a ∈ offs ∧ Fits s size a} a) : a + reqSize size ≠ s.memSizeAligned := by
  obtain ⟨r, s', ⟨fuel, hr⟩, hiff, hleast⟩ := hserved
  obtain ⟨p, rfl⟩ := isSome_iff_exists.mp (hiff.mpr ⟨a, ha.1⟩)
  obtain ⟨a', rfl, ha'⟩ := hleast p rfl
  obtain rfl := ha'.unique ha
  have hlt := rtMalloc_lt h hlow hpos hle hr
  have hend := h.end_eq
  have hend' := h.end_lt
  intro heq
  rw [sub32_eq (by omega) (by omega)] at hlt
  omega

/-! ## Over runs -/

/-- The calls of `rt_malloc` and `rt_free`, and what the clients write to their blocks. -/
def MallocFree (_ : State) : Act → Prop
  | .malloc _ => True
  | .free _ => True
  | .store _ _ _ => True
  | _ => False

instance (σ : State) (a : Act) : Decidable (MallocFree σ a) := by
  apply @Act.casesOn _ a <;> intros <;> unfold MallocFree <;> infer_instance

/-- In every state that `rt_malloc` and `rt_free` lead to, a request that is not larger than the heap
is served exactly if the heap has room for a block of the least size, and the lowest block that fits
does not fit exactly at the end of the heap. -/
theorem malloc_serves {σ : State} (h : Reachable heapSystem MallocFree σ) (size : ℕ) (hpos : 0 < size)
    (hle : size ≤ σ.heap.memSizeAligned) : ∃ offs, WellFormed σ.heap offs ∧
      (Served σ.heap offs size ↔ MIN_SIZE_ALIGNED ≤ σ.heap.memSizeAligned ∧
        ∀ a, IsLeast {a | a ∈ offs ∧ Fits σ.heap size a} a →
          a + reqSize size ≠ σ.heap.memSizeAligned) := by
  have hrun : Reachable heapSystem (fun σ a => CallocFits σ a ∧ HoleBelow σ a) σ := by
    refine h.mono fun _ a ha => ?_
    cases a with
    | malloc _ | free _ | store _ _ _ => exact ⟨trivial, trivial⟩
    | calloc _ _ | realloc _ _ => cases ha
  obtain ⟨bs, ⟨hinv, -⟩, hlow⟩ := reachable_lowest hrun
  refine ⟨_, hinv.wellFormed, fun hserved => ⟨?_, fun a ha => ?_⟩, fun ⟨hmin, hexact⟩ => ?_⟩
  · exact hserved.min_size_le hinv (by omega) hle
  · exact Served.not_at_end hinv hlow (by omega) hle hserved ha
  · exact hinv.served hlow (by omega) hle hmin hexact

/-- After two requests, the first of them freed again, 20 bytes are served: a block for them at the
end of the heap would start at 212. -/
theorem malloc_serves_twenty : ∃ σ offs, Reachable heapSystem MallocFree σ ∧ σ.live = {64} ∧
    WellFormed σ.heap offs ∧ Served σ.heap offs 20 := by
  obtain ⟨σ, hσ, hlive, hsize, hused⟩ : ∃ σ, Reachable heapSystem MallocFree σ ∧ σ.live = {64} ∧
      σ.heap.memSizeAligned = 232 ∧ used σ.heap.mem 212 ≠ 0 := by
    refine exists_reachable_of_run (f := exec 20)
      freshHeap_init [.malloc 40, .malloc 20, .free (some 12)] ?_ fun _ _ _ h => ⟨20, h⟩
    decide
  obtain ⟨offs, hwell, hserved⟩ := malloc_serves hσ 20 (by norm_num) (by omega)
  refine ⟨σ, offs, hσ, hlive, hwell, hserved.mpr ⟨by rw [hsize]; decide, ?_⟩⟩
  rintro a ⟨⟨-, hfit, -⟩, -⟩ heq
  have hreq : reqSize 20 = 20 := by decide
  obtain rfl : a = 212 := by omega
  exact hused hfit

/-- The fresh heap is one free block with 232 bytes, and a request for 232 bytes is refused. -/
theorem whole_heap_refused : ∃ σ offs, Reachable heapSystem MallocFree σ ∧ WellFormed σ.heap offs ∧
    232 ≤ σ.heap.memSizeAligned ∧ (∃ a ∈ offs, Fits σ.heap 232 a) ∧
    (rtMalloc 3 σ.heap 232).map Prod.fst = some none := by
  have hreach : Reachable heapSystem CallocFits freshHeap := .init freshHeap_init
  obtain ⟨bs, hinv, -⟩ := reachable_inv hreach
  refine ⟨freshHeap, _, .init freshHeap_init, hinv.wellFormed, by decide,
    ⟨0, mem_of_mem_head? hinv.wellFormed.first, by decide, by decide⟩, ?_⟩
  decide

/-- In every state of a run in which no product of `rt_calloc` wraps when it is aligned, the search
for a block ends exactly if the request is refused before it, or the heap has room for a block of the
least size. -/
theorem malloc_search_ends {σ : State} (h : Reachable heapSystem CallocFits σ) (size : ℕ) :
    (∃ fuel r, rtMalloc fuel σ.heap size = some r) ↔ ¬ (size ≠ 0 ∧
      rtAlign size RT_ALIGN_SIZE ≤ σ.heap.memSizeAligned ∧
      σ.heap.memSizeAligned < MIN_SIZE_ALIGNED) := by
  obtain ⟨bs, hinv, -⟩ := reachable_inv h
  rw [min_size_aligned_eq]
  constructor
  · rintro ⟨fuel, r, hr⟩ ⟨hpos, halign, hsmall⟩
    rw [rtMalloc_stuck hinv hpos halign hsmall] at hr
    cases hr
  · intro hok
    exact hinv.rtMalloc_returns fun hpos halign => by
      by_contra hsmall
      exact hok ⟨hpos, halign, by omega⟩

/-- A request to the fresh heap. -/
theorem malloc_search_ends_fresh : ∃ fuel r, rtMalloc fuel freshHeap.heap 40 = some r :=
  (malloc_search_ends (.init freshHeap_init) 40).mpr (by decide)

/-- A heap of 28 bytes has four bytes for a block. A request for one byte is aligned to four and
passes the check, and then the search for twelve does not end. -/
theorem tiny_heap_search_stuck : ∃ σ, heapSystem.init σ ∧ σ.heap.memSizeAligned = 4 ∧
    ∀ fuel, rtMalloc fuel σ.heap 1 = none := by
  have hmap : (rtSystemHeapInit 0x20000000 0x2000001C fun _ => 0).map (·.memSizeAligned) = some 4 := by
    decide
  obtain ⟨s, hs, hsize⟩ := map_eq_some_iff.mp hmap
  have hinit : heapSystem.init ⟨s, ∅⟩ :=
    ⟨0x20000000, 0x2000001C, fun _ => 0, by norm_num, by norm_num, hs, rfl⟩
  obtain ⟨bs, hinv, -⟩ := reachable_inv (Reachable.init hinit)
  refine ⟨⟨s, ∅⟩, hinit, hsize, fun fuel => rtMalloc_stuck hinv one_ne_zero ?_ ?_⟩
  · rw [hsize]
    decide
  · rw [hsize]
    norm_num

/-! ## A request given back -/

theorem free_front_unique {f₁ f₂ l₁ l₂ : List Blk} (heq : f₁ ++ l₁ = f₂ ++ l₂)
    (hf₁ : ∀ b ∈ f₁, b.used = false) (hf₂ : ∀ b ∈ f₂, b.used = false)
    (hl₁ : ∀ b ∈ l₁.head?, b.used = true) (hl₂ : ∀ b ∈ l₂.head?, b.used = true) :
    f₁ = f₂ ∧ l₁ = l₂ := by
  have hnil : ∀ c l : List Blk, (∀ b ∈ c, b.used = false) → (∀ b ∈ (c ++ l).head?, b.used = true) →
      c = [] := by
    intro c l hfree hused
    cases c with
    | nil => rfl
    | cons b c => exact absurd (hused b rfl) (by simp [hfree b])
  rcases append_eq_append_iff.mp heq with ⟨c, rfl, rfl⟩ | ⟨c, rfl, rfl⟩
  · obtain rfl := hnil c l₂ (fun b hb => hf₂ b (by simp [hb])) hl₁
    simp
  · obtain rfl := hnil c l₁ (fun b hb => hf₁ b (by simp [hb])) hl₂
    simp

/-- A block that was just taken, when freed, is merged with what was left of it, and with nothing
else: the blocks are those of before. -/
theorem Inv.free_taken {p : ℕ} {s' : Heap} (h : Inv s bs)
    (hr : rtMalloc fuel s size = some (some p, s')) :
    ∃ s'', rtFree s' (some p) = some s'' ∧ Inv s'' bs ∧ s''.lfree = s.lfree := by
  rcases rtMalloc_spec h hr with
    ⟨hnone, -⟩ | ⟨-, -, pre, n, post, rfl, hroom, hp, hinv, -, -, hlf, hlf'⟩
  · cases hnone
  obtain rfl := some.inj hp
  obtain ⟨-, -, hlast, hhead⟩ := noAdjFree_free.mp h.noAdj
  obtain ⟨k, rest, htake, hk, -, hrest⟩ := takeBlocks_cons hroom
  have htotal := total_takeBlocks n (reqSize size)
  rw [htake, total_cons] at htotal
  rw [htake, append_assoc] at hinv
  obtain ⟨s'', pre', f₁, f₂, post', hs'', hpre, hpost, hf₁, hf₂, hinv', hlf'', -⟩ := rtFree_spec hinv
  obtain ⟨-, -, -, hhead'⟩ := noAdjFree_free.mp hinv'.noAdj
  -- The block before is in use, so nothing is merged in front.
  obtain rfl : f₁ = [] := by
    rcases eq_nil_or_concat f₁ with hnil | ⟨f, b, rfl⟩
    · exact hnil
    · have hused := hlast b (by simp [hpre])
      rw [hf₁ b (by simp)] at hused
      cases hused
  obtain ⟨rfl, rfl⟩ := free_front_unique hpost hrest hf₂ hhead hhead'
  rw [append_nil] at hpre
  subst hpre
  rw [total_nil, Nat.zero_add, htotal] at hinv'
  refine ⟨s'', hs'', hinv', ?_⟩
  rw [hlf'', plugLfree]
  by_cases heq : total pre = s.lfree
  · -- The search for the next free block went upwards from here.
    have hge := (hlf heq).2.1
    rw [min_eq_left hge, if_pos (by omega), heq]
  · obtain ⟨hlt, hsame⟩ := hlf' heq
    rw [hsame, min_eq_right (by omega), if_neg (by omega)]

theorem Inv.used_congr {s' : Heap} (h : Inv s bs) (h' : Inv s' bs) :
    ∀ a ∈ (place 0 bs).map Prod.fst, used s'.mem a = used s.mem a := by
  intro a ha
  obtain ⟨x, hx, rfl⟩ := mem_map.mp ha
  have hf : flag s.mem x.1 = some x.2.used := (h.linked.at_mem hx).1
  have hf' : flag s'.mem x.1 = some x.2.used := (h'.linked.at_mem hx).1
  cases hu : x.2.used with
  | false =>
    rw [hu] at hf hf'
    rw [(flag_eq_false.mp hf).2, (flag_eq_false.mp hf').2]
  | true =>
    rw [hu] at hf hf'
    rw [(flag_eq_true.mp hf).2, (flag_eq_true.mp hf').2]

/-- In every state that `rt_malloc`, `rt_realloc` and `rt_free` lead to, a block that `rt_malloc`
returns can be given back at once, and then the offsets of the blocks, their flags, `lfree` and
`used_mem` are those from before the request. -/
theorem free_undoes_malloc {σ : State} (h : Reachable heapSystem NoCalloc σ) (fuel size p : ℕ)
    (s' : Heap) (hr : rtMalloc fuel σ.heap size = some (some p, s')) :
    ∃ s'' offs, rtFree s' (some p) = some s'' ∧ WellFormed σ.heap offs ∧ WellFormed s'' offs ∧
      (∀ a ∈ offs, used s''.mem a = used σ.heap.mem a) ∧ s''.lfree = σ.heap.lfree ∧
      s''.usedMem = σ.heap.usedMem := by
  have hrun : Reachable heapSystem CallocFits σ := by
    refine h.mono fun _ a ha => ?_
    cases a with
    | malloc _ | free _ | store _ _ _ | realloc _ _ => trivial
    | calloc _ _ => cases ha
  obtain ⟨bs, hinv, -⟩ := reachable_inv hrun
  obtain ⟨s'', hs'', hinv'', hlfree⟩ := hinv.free_taken hr
  exact ⟨s'', _, hs'', hinv.wellFormed, hinv''.wellFormed, hinv.used_congr hinv'', hlfree,
    hinv''.used_eq.trans hinv.used_eq.symm⟩

/-- Ten bytes, taken from the hole that a freed block left and given back. -/
theorem free_undoes_malloc_hole : ∃ σ s' s'', Reachable heapSystem NoCalloc σ ∧ σ.live = {64} ∧
    rtMalloc 20 σ.heap 10 = some (some 12, s') ∧ rtFree s' (some 12) = some s'' ∧
    s''.lfree = σ.heap.lfree ∧ s''.usedMem = σ.heap.usedMem := by
  obtain ⟨σ, hσ, hlive, hfound⟩ : ∃ σ, Reachable heapSystem NoCalloc σ ∧ σ.live = {64} ∧
      (rtMalloc 20 σ.heap 10).map Prod.fst = some (some 12) := by
    refine exists_reachable_of_run (f := exec 20) freshHeap_init
      [.malloc 40, .malloc 20, .free (some 12)] ?_ fun _ _ _ h => ⟨20, h⟩
    decide
  obtain ⟨s', hr⟩ := exists_of_map_fst hfound
  obtain ⟨s'', offs, hs'', -, -, -, hlfree, hused⟩ := free_undoes_malloc hσ 20 10 12 s' hr
  exact ⟨σ, s', s'', hσ, hlive, hr, hs'', hlfree, hused⟩

end RtThread.Mem
