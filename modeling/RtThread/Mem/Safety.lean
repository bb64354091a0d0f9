import Mathlib
import RtThread.Mem.Run

/-!
# Safety of the small-memory heap

What a client may rely on in every state of a run: the block chain is well formed, the areas that it
holds are its own, and the free block that a search starts from is the lowest one. Each holds under
a condition on the calls, since the product of `rt_calloc` may be so large that aligning it gives zero,
and `rt_realloc` that shrinks a block in place may leave a hole below `lfree`.
-/

namespace RtThread.Mem

open Lib List Option

/-! ## The chain -/

/-- The block chain of a heap, read from the headers: `offs` are the offsets of its blocks. -/
structure WellFormed (s : Heap) (offs : List ℕ) : Prop where
  /-- The chain starts at offset 0. -/
  first : offs.head? = some 0
  /-- Following `next` one reaches `heap_end` through increasing offsets. -/
  chain : (offs ++ [s.heapEnd]).IsChain fun a b => next s.mem a = b ∧ a < b
  /-- The offsets are aligned. -/
  aligned : ∀ a ∈ offs ++ [s.heapEnd], RT_ALIGN_SIZE ∣ a
  /-- The `prev` of the next block is the block. -/
  back : ∀ a ∈ offs, next s.mem a ≠ s.heapEnd → prev s.mem (next s.mem a) = a
  /-- No two neighbouring blocks are free. -/
  noAdj : offs.IsChain fun a b => used s.mem a ≠ 0 ∨ used s.mem b ≠ 0
  /-- `lfree` is a free block of the chain, or `heap_end`. -/
  lfree : s.lfree = s.heapEnd ∨ s.lfree ∈ offs ∧ used s.mem s.lfree = 0
  /-- `used_mem` is the sum of the sizes of the used blocks. -/
  usedMem : s.usedMem
    = ((offs.filter fun a => used s.mem a ≠ 0).map fun a => next s.mem a - a).sum

variable {s : Heap} {bs : List Blk}

theorem WellFormed.next_zero {offs : List ℕ} (h : WellFormed s offs) :
    0 < next s.mem 0 ∧ (next s.mem 0 = s.heapEnd ∨ next s.mem 0 ∈ offs) := by
  have hfirst := h.first
  have hchain := h.chain
  cases offs with
  | nil => simp at hfirst
  | cons a offs =>
    simp only [head?_cons, some.injEq] at hfirst
    subst hfirst
    rw [cons_append, isChain_cons] at hchain
    cases offs with
    | nil =>
      obtain ⟨h1, h2⟩ := hchain.1 s.heapEnd (by simp)
      exact ⟨by omega, .inl h1⟩
    | cons b offs =>
      obtain ⟨h1, h2⟩ := hchain.1 b (by simp)
      exact ⟨by omega, .inr (by simp [h1])⟩

theorem Inv.used_eq_zero_iff (h : Inv s bs) {x : ℕ × Blk} (hx : x ∈ place 0 bs) :
    used s.mem x.1 = 0 ↔ x.2.used = false := by
  have hf : flag s.mem x.1 = some x.2.used := (h.linked.at_mem hx).1
  cases hu : x.2.used with
  | false =>
    rw [hu] at hf
    simp [(flag_eq_false.mp hf).2]
  | true =>
    rw [hu] at hf
    simp [(flag_eq_true.mp hf).2]

/-- What the invariant says about the headers. -/
theorem Inv.wellFormed (h : Inv s bs) : WellFormed s ((place 0 bs).map Prod.fst) := by
  have hpos : ∀ b ∈ bs, 0 < b.size := fun b hb => by
    have := h.size_ge b hb
    omega
  have hflag : ∀ a ∈ (place 0 bs).map Prod.fst,
      ((fields s.mem).flag a = some true ↔ used s.mem a ≠ 0) := by
    intro a ha
    obtain ⟨x, hx, rfl⟩ := mem_map.mp ha
    have hf : (fields s.mem).flag x.1 = some x.2.used := (h.linked.at_mem hx).1
    rw [hf, Ne, h.used_eq_zero_iff hx]
    simp
  have htot := h.total_eq
  refine ⟨?_, ?_, ?_, ?_, ?_, ?_, ?_⟩
  · -- The chain is not empty, since `heap_end` is above the first header.
    cases bs with
    | nil =>
      have := h.end_eq
      simp only [total_nil] at htot
      omega
    | cons b bs => simp
  · have := h.linked.isChain_next hpos
    rwa [Nat.zero_add, htot] at this
  · intro a ha
    rw [mem_append, mem_singleton] at ha
    have hal : ∀ x ∈ place 0 bs, 4 ∣ x.1 := fun x hx => place_aligned (Nat.dvd_zero 4) h.size_dvd hx
    rcases ha with ha | rfl
    · obtain ⟨x, hx, rfl⟩ := mem_map.mp ha
      exact hal x hx
    · rw [← htot]
      exact dvd_sum fun n hn => by
        obtain ⟨b, hb, rfl⟩ := mem_map.mp hn
        exact h.size_dvd b hb
  · intro a ha hne
    obtain ⟨⟨q, ⟨u, n⟩⟩, hx, rfl⟩ := mem_map.mp ha
    obtain ⟨pre, post, rfl, hpre⟩ := exists_of_mem_place hx
    simp only [Nat.zero_add] at hpre hne ⊢
    subst hpre
    obtain ⟨-, hn, -, -, -, -, hend⟩ := h.cut
    rw [hn] at hne ⊢
    refine h.cut_back ?_
    rintro rfl
    exact hne (by simpa using hend)
  · refine List.IsChain.imp_of_mem_imp ?_ (h.linked.isChain_flag h.noAdj)
    intro a b ha hb hab
    exact hab.imp (hflag a ha).mp (hflag b hb).mp
  · rcases h.lfree_ok with hend | ⟨n, hn⟩
    · exact .inl (hend.trans htot)
    · exact .inr ⟨mem_map_of_mem hn, (h.used_eq_zero_iff hn).mpr rfl⟩
  · rw [h.used_eq, h.linked.usedTotal_eq]
    congr 2
    refine filter_congr fun a ha => ?_
    simp [hflag a ha]

/-! ## A heap

The runs below are on the heap of 256 bytes at `0x20000000`, with memory that holds ones.
-/

/-- A heap of 256 bytes. -/
def freshHeap : State :=
  ⟨(rtSystemHeapInit 0x20000000 0x20000100 fun _ => 1).getD ⟨0, 0, 0, 0, 0, 0, fun _ => 0⟩, ∅⟩

theorem freshHeap_init : heapSystem.init freshHeap := by
  refine ⟨0x20000000, 0x20000100, fun _ => 1, by norm_num, by norm_num, ?_, rfl⟩
  unfold freshHeap
  have hsome : (rtSystemHeapInit 0x20000000 0x20000100 fun _ => 1).isSome = true := by decide
  obtain ⟨s, hs⟩ := isSome_iff_exists.mp hsome
  rw [hs]
  rfl

/-- A run with every kind of action, which ends with a shrink that is merged with the block after.
-/
theorem exists_run : ∃ σ, Reachable heapSystem (fun σ a => CallocFits σ a ∧ HoleBelow σ a) σ ∧
    σ.live = {12, 96} := by
  refine exists_reachable_of_run (f := exec 20) freshHeap_init
    [.malloc 40, .calloc 5 4, .malloc 20, .store 12 3 7, .free (some 64), .realloc (some 12) 4] ?_
    fun _ _ _ h => ⟨20, h⟩
  decide +kernel

/-! ## The chain over runs -/

variable {σ : State}

/-- The block chain stays well formed in every run in which no product of `rt_calloc` wraps when it
is aligned. -/
theorem chain_wellFormed (h : Reachable heapSystem CallocFits σ) :
    ∃ offs, WellFormed σ.heap offs := by
  obtain ⟨bs, hinv, -⟩ := reachable_inv h
  exact ⟨_, hinv.wellFormed⟩

/-- The chain at the end of a run. -/
theorem chain_wellFormed_run : ∃ σ, Reachable heapSystem CallocFits σ ∧ σ.live = {12, 96} ∧
    ∃ offs, WellFormed σ.heap offs := by
  obtain ⟨σ, hσ, hlive⟩ := exists_run
  have hσ' : Reachable heapSystem CallocFits σ := hσ.mono fun _ _ h => h.1
  exact ⟨σ, hσ', hlive, chain_wellFormed hσ'⟩

theorem exec_calloc {fuel q : ℕ} {σ : State} {s₁ : Heap} (count size : ℕ) (hc : count < 2^32)
    (hsz : size < 2^32) (hmal : rtMalloc fuel σ.heap (mul32 count size) = some (some q, s₁)) :
    exec fuel σ (.calloc count size) =
      some ⟨{ s₁ with mem := rtMemset s₁.mem q 0 (mul32 count size) }, insert q σ.live⟩ := by
  have hg : count < 2^32 ∧ size < 2^32 := ⟨hc, hsz⟩
  simp only [exec, rtCalloc, guard_pos hg, hmal]
  rfl

theorem rtMemset_all {m : Bytes} {a q count : ℕ} (hcount : 2^32 - 3 ≤ count) (hq3 : 3 < q)
    (hq : q < 2^32) (ha : a < 2^32) (hne : a + 3 < q ∨ q ≤ a) : rtMemset m q 0 count a = 0 := by
  have hi : (q + (a + 2^32 - q) % 2^32) % 2^32 = a := by omega
  have hlt : (a + 2^32 - q) % 2^32 < count := by omega
  have := rtMemset_of_mem (m := m) (s := q) (c := 0) hlt
  rwa [hi] at this

theorem next_rtMemset_all {m : Bytes} {q count : ℕ} (hcount : 2^32 - 3 ≤ count) (hq : q + 12 < 2^32) :
    next (rtMemset m (q + 12) 0 count) q = 0 :=
  Bytes.load_eq_zero fun a _ _ => rtMemset_all hcount (by omega) hq (by omega) (by omega)

/-- A request of `2^32 - 1` bytes to `rt_calloc` clears the first header: the chain is lost. -/
theorem calloc_breaks_chain :
    ∃ σ, Reachable heapSystem always σ ∧ ¬ ∃ offs, WellFormed σ.heap offs := by
  have hfound : (rtMalloc 10 freshHeap.heap (2^32 - 1)).map Prod.fst = some (some 12) := by
    decide
  obtain ⟨s₁, hmal⟩ := exists_of_map_fst hfound
  have hprod : mul32 1 (2^32 - 1) = 2^32 - 1 := by decide
  have hstep := exec_calloc (σ := freshHeap) 1 (2^32 - 1) (by norm_num) (by norm_num)
    (by rw [hprod]; exact hmal)
  rw [hprod] at hstep
  refine ⟨_, .step (.init freshHeap_init) trivial ⟨10, hstep⟩, ?_⟩
  rintro ⟨offs, hwf⟩
  -- The next of the first block is zero now.
  have hnext : next (rtMemset s₁.mem 12 0 (2^32 - 1)) 0 = 0 :=
    next_rtMemset_all (by norm_num) (by norm_num)
  have hpos := hwf.next_zero.1
  simp only [hnext] at hpos
  omega

/-! ## User areas -/

/-- The user area of a pointer: from just after the header to the next header. -/
def UserArea (s : Heap) (p : ℕ) : Set ℕ := Set.Ico p (next s.mem (p - SIZEOF_STRUCT_MEM))

/-- The user areas of the live pointers, against each other and against the blocks at `offs`. -/
structure AreasApart (σ : State) (offs : List ℕ) : Prop where
  /-- A live pointer is that of a block of the chain. -/
  block : ∀ p ∈ σ.live, SIZEOF_STRUCT_MEM ≤ p ∧ p - SIZEOF_STRUCT_MEM ∈ offs
  /-- The area lies between `heap_ptr` and `heap_end`. -/
  inside : ∀ p ∈ σ.live, UserArea σ.heap p ⊆ Set.Ico 0 σ.heap.heapEnd
  /-- Two areas are disjoint. -/
  disjoint : ∀ p ∈ σ.live, ∀ q ∈ σ.live, p ≠ q → Disjoint (UserArea σ.heap p) (UserArea σ.heap q)
  /-- An area contains no header. -/
  noHeader : ∀ p ∈ σ.live, ∀ b ∈ offs ++ [σ.heap.heapEnd],
    Disjoint (Set.Ico b (b + SIZEOF_STRUCT_MEM)) (UserArea σ.heap p)

theorem userArea_eq {q n : ℕ} {u : Bool} (h : Inv s bs) (hq : (q, ⟨u, n⟩) ∈ place 0 bs) :
    UserArea s (q + 12) = Set.Ico (q + 12) (q + n) := by
  have hn : next s.mem q = q + n := (h.linked.at_mem hq).2
  rw [UserArea, sizeof_eq, Nat.add_sub_cancel, hn]

/-- What it says about the areas of a client. -/
theorem RunInv.areasApart (h : RunInv σ bs) : AreasApart σ ((place 0 bs).map Prod.fst) := by
  obtain ⟨hinv, hlive⟩ := h
  have htot := hinv.total_eq
  refine ⟨?_, ?_, ?_, ?_⟩
  · intro p hp
    obtain ⟨q, n, rfl, hq⟩ := hlive.block hp
    rw [sizeof_eq, Nat.add_sub_cancel]
    exact ⟨by omega, mem_map_of_mem hq⟩
  · intro p hp a ha
    obtain ⟨q, n, rfl, hq⟩ := hlive.block hp
    have hb := (place_bounds hq).2
    rw [userArea_eq hinv hq, Set.mem_Ico] at ha
    simp only [Nat.zero_add] at hb
    exact ⟨Nat.zero_le a, by omega⟩
  · intro p hp p' hp' hne
    obtain ⟨q, n, rfl, hq⟩ := hlive.block hp
    obtain ⟨q', n', rfl, hq'⟩ := hlive.block hp'
    have := place_disjoint hq hq' (by simp only; omega)
    rw [userArea_eq hinv hq, userArea_eq hinv hq', Set.disjoint_left]
    intro a ha ha'
    rw [Set.mem_Ico] at ha ha'
    simp only at this
    omega
  · intro p hp b hb
    obtain ⟨q, n, rfl, hq⟩ := hlive.block hp
    have hb : b ∈ headers 0 bs := by
      rw [headers, Nat.zero_add, htot]
      exact hb
    have := header_le_or_ge hb hq
    rw [userArea_eq hinv hq, Set.disjoint_left]
    intro a ha ha'
    rw [sizeof_eq, Set.mem_Ico] at ha
    rw [Set.mem_Ico] at ha'
    simp only at this
    omega

/-- In every run in which no product of `rt_calloc` wraps when it is aligned, the user areas of the
live pointers are apart, no call changes a byte of an area that it is not about, and a successful
`rt_realloc` keeps the contents up to the smaller of the two sizes. -/
theorem user_areas_kept (h : Reachable heapSystem CallocFits σ) :
    (∃ offs, WellFormed σ.heap offs ∧ AreasApart σ offs) ∧
    (∀ a σ', CallocFits σ a → heapSystem.step σ a σ' → ∀ p ∈ σ.live, p ∉ a.on →
      ∀ x ∈ UserArea σ.heap p, σ'.heap.mem x = σ.heap.mem x) ∧
    (∀ fuel p size q s', p ∈ σ.live → rtRealloc fuel σ.heap (some p) size = some (some q, s') →
      ∀ i < min (userSize σ.heap p) (rtAlign size RT_ALIGN_SIZE),
        q + i ∈ UserArea s' q ∧ s'.mem (q + i) = σ.heap.mem (p + i)) := by
  obtain ⟨bs, hinv⟩ := reachable_inv h
  refine ⟨⟨_, hinv.1.wellFormed, hinv.areasApart⟩, ?_, ?_⟩
  · rintro a σ' hok ⟨fuel, hs⟩ p hp hpa x hx
    obtain ⟨q, n, rfl, hq⟩ := hinv.2.block hp
    obtain ⟨bs', ho⟩ := exec_outcome hinv hok hs
    rw [userArea_eq hinv.1 hq, Set.mem_Ico] at hx
    exact (ho.kept (q, ⟨true, n⟩) ⟨hq, rfl⟩ hpa).2 x hx.1 hx.2
  · intro fuel p size q s' hp hre i hi
    obtain ⟨b, n, rfl, hb⟩ := hinv.2.block hp
    rw [userSize_eq hinv.1 hb] at hi
    rcases rtRealloc_effect hinv.1 hb hre with ⟨-, hnone, -⟩ | ⟨-, hnone, -⟩ |
      ⟨q', k, bs', -, hq, hk, he, hcopy, -⟩
    · cases hnone
    · cases hnone
    · rw [some.injEq] at hq
      subst hq
      have hnew : InUse bs' (q', ⟨true, k⟩) := (he.inUse_iff _).mpr (.inr rfl)
      rw [userArea_eq he.inv hnew.1, Set.mem_Ico]
      exact ⟨by omega, hcopy i hi⟩

/-- The areas at the end of a run, and an action there. -/
theorem user_areas_kept_run : ∃ σ, Reachable heapSystem CallocFits σ ∧ 12 ∈ σ.live ∧ 96 ∈ σ.live ∧
    Disjoint (UserArea σ.heap 12) (UserArea σ.heap 96) ∧
    ∀ σ', heapSystem.step σ (.free (some 96)) σ' →
      ∀ x ∈ UserArea σ.heap 12, σ'.heap.mem x = σ.heap.mem x := by
  obtain ⟨σ, hσ, hlive⟩ := exists_run
  have hσ' : Reachable heapSystem CallocFits σ := hσ.mono fun _ _ h => h.1
  have h12 : 12 ∈ σ.live := by simp [hlive]
  have h96 : 96 ∈ σ.live := by simp [hlive]
  obtain ⟨⟨offs, -, hapart⟩, hkept, -⟩ := user_areas_kept hσ'
  exact ⟨σ, hσ', h12, h96, hapart.disjoint 12 h12 96 h96 (by norm_num),
    fun σ' hs => hkept (.free (some 96)) σ' trivial hs 12 h12 (by simp [Act.on])⟩

/-- A request of `2^32 - 1` bytes to `rt_calloc` clears the area of another live pointer. -/
theorem calloc_clears_live_area : ∃ σ σ' p x, Reachable heapSystem CallocFits σ ∧
    heapSystem.step σ (.calloc 1 (2^32 - 1)) σ' ∧ p ∈ σ.live ∧ p ∉ (Act.calloc 1 (2^32 - 1)).on ∧
    x ∈ UserArea σ.heap p ∧ σ'.heap.mem x ≠ σ.heap.mem x := by
  obtain ⟨σ, hσ, hlive, hnext, hbyte, hfound⟩ :
      ∃ σ, Reachable heapSystem CallocFits σ ∧ 12 ∈ σ.live ∧ next σ.heap.mem 0 = 24 ∧
        σ.heap.mem 12 = 1 ∧ (rtMalloc 10 σ.heap (2^32 - 1)).map Prod.fst = some (some 36) := by
    refine exists_reachable_of_run (f := exec 10) freshHeap_init [.malloc 12] ?_ fun _ _ _ h => ⟨10, h⟩
    decide
  obtain ⟨s₁, hmal⟩ := exists_of_map_fst hfound
  have hprod : mul32 1 (2^32 - 1) = 2^32 - 1 := by decide
  have hstep := exec_calloc (σ := σ) 1 (2^32 - 1) (by norm_num) (by norm_num)
    (by rw [hprod]; exact hmal)
  rw [hprod] at hstep
  refine ⟨σ, _, 12, 12, hσ, ⟨10, hstep⟩, hlive, by simp [Act.on], ?_, ?_⟩
  · rw [UserArea, sizeof_eq, Set.mem_Ico, Nat.sub_self, hnext]
    omega
  · have hzero : rtMemset s₁.mem 36 0 (2^32 - 1) 12 = 0 :=
      rtMemset_all (by norm_num) (by norm_num) (by norm_num) (by norm_num) (by norm_num)
    dsimp only
    rw [hzero, hbyte]
    decide

/-! ## A failed `rt_realloc` -/

theorem rtFree_usedMem_lt {s' : Heap} {q n : ℕ} (h : Inv s bs) (hq : (q, ⟨true, n⟩) ∈ place 0 bs)
    (hr : rtFree s (some (q + 12)) = some s') : s'.usedMem < s.usedMem := by
  obtain ⟨pre, post, rfl, hpre⟩ := exists_of_mem_place hq
  simp only [Nat.zero_add] at hpre
  subst hpre
  have hn : 12 ≤ n := h.size_ge ⟨true, n⟩ (by simp)
  obtain ⟨s₁, pre', f₁, f₂, post', hs₁, rfl, rfl, -, -, hinv, -⟩ := rtFree_spec h
  rw [hr, some.injEq] at hs₁
  subst hs₁
  rw [hinv.used_eq, h.used_eq]
  simp only [usedTotal_append, usedTotal_cons_true, usedTotal_cons_false]
  omega

/-- In every state of a run in which no product of `rt_calloc` wraps when it is aligned, `rt_realloc`
of a live pointer that returns nothing has left the heap as it was, exactly if the new size does not
become zero when it is aligned. -/
theorem failed_realloc_keeps (h : Reachable heapSystem CallocFits σ)
    (fuel p newsize : ℕ) (s' : Heap) (hp : p ∈ σ.live) (hpos : newsize ≠ 0)
    (hlt : newsize < 2^32) (hr : rtRealloc fuel σ.heap (some p) newsize = some (none, s')) :
    s' = σ.heap ↔ newsize ≤ 2^32 - RT_ALIGN_SIZE := by
  obtain ⟨bs, hinv, hlive⟩ := reachable_inv h
  obtain ⟨q, n, rfl, hq⟩ := hlive.block hp
  have halign : rtAlign newsize RT_ALIGN_SIZE = 0 ↔ ¬ newsize ≤ 2^32 - RT_ALIGN_SIZE := by
    rw [rtAlign_four, RT_ALIGN_SIZE]
    omega
  by_cases hzero : rtAlign newsize RT_ALIGN_SIZE = 0
  · -- The aligned size is zero, which is a request to free the block.
    rw [rtRealloc_zero hzero, map_eq_some_iff] at hr
    obtain ⟨s₁, hfree, heq⟩ := hr
    obtain rfl : s₁ = s' := (Prod.mk.inj heq).2
    refine iff_of_false (fun hsame => ?_) (halign.mp hzero)
    have hless := rtFree_usedMem_lt hinv hq hfree
    rw [hsame] at hless
    omega
  · rcases rtRealloc_effect hinv hq hr with ⟨-, -, hsame⟩ | ⟨hzero', -⟩ | ⟨_, _, _, -, hsome, -⟩
    · exact iff_of_true hsame (not_not.mp fun hle => hzero (halign.mpr hle))
    · exact absurd hzero' hzero
    · cases hsome

/-- A block of 40 bytes, which cannot be made one of 1000. -/
theorem failed_realloc_keeps_forty : ∃ σ s', Reachable heapSystem CallocFits σ ∧ 12 ∈ σ.live ∧
    rtRealloc 20 σ.heap (some 12) 1000 = some (none, s') ∧ s' = σ.heap := by
  obtain ⟨σ, hσ, hlive, hfound⟩ : ∃ σ, Reachable heapSystem CallocFits σ ∧ 12 ∈ σ.live ∧
      (rtRealloc 20 σ.heap (some 12) 1000).map Prod.fst = some none := by
    refine exists_reachable_of_run (f := exec 20) freshHeap_init [.malloc 40] ?_ fun _ _ _ h => ⟨20, h⟩
    decide
  obtain ⟨s', hr⟩ := exists_of_map_fst hfound
  exact ⟨σ, s', hσ, hlive, hr, (failed_realloc_keeps hσ 20 12 1000 s' hlive (by norm_num)
    (by norm_num) hr).mpr (by decide)⟩

/-- A new size of `2^32 - 1` is aligned to zero, so `rt_realloc` frees the block and returns nothing.
-/
theorem failed_realloc_frees : ∃ σ s', Reachable heapSystem CallocFits σ ∧ 12 ∈ σ.live ∧
    rtRealloc 20 σ.heap (some 12) (2^32 - 1) = some (none, s') ∧
    used σ.heap.mem 0 = 1 ∧ used s'.mem 0 = 0 ∧ s'.usedMem ≠ σ.heap.usedMem := by
  obtain ⟨σ, hσ, hlive, hfound⟩ : ∃ σ, Reachable heapSystem CallocFits σ ∧ 12 ∈ σ.live ∧
      (rtRealloc 20 σ.heap (some 12) (2^32 - 1)).map
        (fun r => (r.1, used σ.heap.mem 0, used r.2.mem 0, decide (r.2.usedMem = σ.heap.usedMem)))
        = some (none, 1, 0, false) := by
    refine exists_reachable_of_run (f := exec 20) freshHeap_init [.malloc 40] ?_ fun _ _ _ h => ⟨20, h⟩
    decide
  obtain ⟨⟨r, s'⟩, hr, heq⟩ := map_eq_some_iff.mp hfound
  simp only [Prod.mk.injEq, decide_eq_false_iff_not] at heq
  obtain ⟨rfl, hused, hfree, hne⟩ := heq
  exact ⟨σ, s', hσ, hlive, hr, hused, hfree, hne⟩

/-! ## The lowest free block -/

/-- In every run in which no product of `rt_calloc` wraps when it is aligned, and no split of
`rt_realloc` leaves a hole below `lfree`, no block below `lfree` is free. -/
theorem lfree_lowest (h : Reachable heapSystem (fun σ a => CallocFits σ a ∧ HoleBelow σ a) σ) :
    ∃ offs, WellFormed σ.heap offs ∧ ∀ a ∈ offs, used σ.heap.mem a = 0 → σ.heap.lfree ≤ a := by
  obtain ⟨bs, hinv, hlow⟩ := reachable_lowest h
  refine ⟨_, hinv.1.wellFormed, fun a ha hfree => ?_⟩
  obtain ⟨x, hx, rfl⟩ := mem_map.mp ha
  exact hlow x hx ((hinv.1.used_eq_zero_iff hx).mp hfree)

/-- The lowest free block at the end of a run. -/
theorem lfree_lowest_run : ∃ σ,
    Reachable heapSystem (fun σ a => CallocFits σ a ∧ HoleBelow σ a) σ ∧ σ.live = {12, 96} ∧
    ∃ offs, WellFormed σ.heap offs ∧ ∀ a ∈ offs, used σ.heap.mem a = 0 → σ.heap.lfree ≤ a := by
  obtain ⟨σ, hσ, hlive⟩ := exists_run
  exact ⟨σ, hσ, hlive, lfree_lowest hσ⟩

/-- The calls of `rt_malloc`, `rt_realloc`, and `rt_free`. -/
def NoCalloc (_ : State) : Act → Prop
  | .malloc _ => True
  | .realloc _ _ => True
  | .free _ => True
  | _ => False

instance (σ : State) (a : Act) : Decidable (NoCalloc σ a) := by
  unfold NoCalloc
  split <;> infer_instance

/-- Three blocks, the last of them freed: shrinking the first leaves a hole at offset 16 below
`lfree`, which stays at the block freed. -/
theorem shrink_leaves_lower_hole : ∃ σ, Reachable heapSystem NoCalloc σ ∧
    ∃ offs, WellFormed σ.heap offs ∧ ∃ a ∈ offs, used σ.heap.mem a = 0 ∧ a < σ.heap.lfree := by
  obtain ⟨σ, hσ, hnext, hend, hused, hlf⟩ :
      ∃ σ, Reachable heapSystem NoCalloc σ ∧ next σ.heap.mem 0 = 16 ∧ σ.heap.heapEnd ≠ 16 ∧
        used σ.heap.mem 16 = 0 ∧ σ.heap.lfree = 84 := by
    refine exists_reachable_of_run (f := exec 20) freshHeap_init
      [.malloc 40, .malloc 20, .malloc 20, .free (some 96), .realloc (some 12) 4] ?_
      fun _ _ _ h => ⟨20, h⟩
    decide
  have hσ' : Reachable heapSystem CallocFits σ := hσ.mono fun _ a _ => by cases a <;> trivial
  obtain ⟨bs, hinv, -⟩ := reachable_inv hσ'
  refine ⟨σ, hσ, _, hinv.wellFormed, 16, ?_, hused, by omega⟩
  have hmem := hinv.wellFormed.next_zero.2
  rw [hnext] at hmem
  exact hmem.resolve_left hend.symm

end RtThread.Mem
