import RtThread.Mem.Realloc
import Mathlib.Data.Finset.Basic

/-!
# Runs of the small-memory heap

A client initialises the heap and then calls the allocator and writes to the areas it was given. The
state of a run is the heap together with the live pointers, those handed out and not given back. A
pointer passed to `rt_free` or `rt_realloc` is NULL or live. A call that returns does so after
finitely many iterations of its loops, so a step is an execution with some fuel.
-/

namespace RtThread.Mem

open Lib Function Option

/-- The heap and its client. -/
structure State where
  /-- The heap. -/
  heap : Heap
  /-- The pointers that the client holds. -/
  live : Finset ℕ

/-- What a client does. -/
inductive Act
  /-- `rt_malloc(size)`. -/
  | malloc (size : ℕ)
  /-- `rt_calloc(count, size)`. -/
  | calloc (count size : ℕ)
  /-- `rt_realloc(p, size)`. -/
  | realloc (p : Option ℕ) (size : ℕ)
  /-- `rt_free(p)`. -/
  | free (p : Option ℕ)
  /-- The client writes `v` to the byte `i` of its area `p`. -/
  | store (p i : ℕ) (v : UInt8)
deriving DecidableEq

/-- The live pointers with the one returned, if any. -/
def give (r : Option ℕ) (live : Finset ℕ) : Finset ℕ := r.elim live fun p => insert p live

/-- The live pointers after `rt_realloc(p, size)` returned `r`. A size that aligns to zero frees the
block; a request that fails leaves it live. -/
def reallocLive (p : Option ℕ) (size : ℕ) (r : Option ℕ) (live : Finset ℕ) : Finset ℕ :=
  match p with
  | none => give r live
  | some p =>
    if rtAlign size RT_ALIGN_SIZE = 0 then live.erase p
    else r.elim live fun q => insert q (live.erase p)

/-- One action, with `fuel` iterations for each loop; `none` if the pointer is neither NULL nor
live, an argument is not a word, an assertion fails, or the fuel does not suffice. -/
def exec (fuel : ℕ) (σ : State) : Act → Option State
  | .malloc size => do
    guard (size < 2^32)
    let (r, s) ← rtMalloc fuel σ.heap size
    some ⟨s, give r σ.live⟩
  | .calloc count size => do
    guard (count < 2^32 ∧ size < 2^32)
    let (r, s) ← rtCalloc fuel σ.heap count size
    some ⟨s, give r σ.live⟩
  | .realloc p size => do
    guard (size < 2^32 ∧ ∀ q ∈ p, q ∈ σ.live)
    let (r, s) ← rtRealloc fuel σ.heap p size
    some ⟨s, reallocLive p size r σ.live⟩
  | .free p => do
    guard (∀ q ∈ p, q ∈ σ.live)
    let s ← rtFree σ.heap p
    some ⟨s, p.elim σ.live σ.live.erase⟩
  | .store p i v => do
    guard (p ∈ σ.live ∧ i < userSize σ.heap p)
    some ⟨{ σ.heap with mem := update σ.heap.mem (p + i) v }, σ.live⟩

/-- The runs from a heap that has been initialised. -/
def heapSystem : System State Act where
  init σ := ∃ beginAddr endAddr m, beginAddr < 2^32 ∧ endAddr < 2^32 ∧
    rtSystemHeapInit beginAddr endAddr m = some σ.heap ∧ σ.live = ∅
  step σ a σ' := ∃ fuel, exec fuel σ a = some σ'

/-! ## The run invariant -/

/-- The live pointers are the user areas of the blocks in use. -/
def LiveOf (bs : List Blk) (live : Finset ℕ) : Prop :=
  ∀ p, p ∈ live ↔ ∃ x, InUse bs x ∧ p = x.1 + 12

/-- The invariant of a run. -/
def RunInv (σ : State) (bs : List Blk) : Prop := Inv σ.heap bs ∧ LiveOf bs σ.live

variable {s s' : Heap} {bs bs' : List Blk} {live : Finset ℕ}

theorem LiveOf.block (h : LiveOf bs live) {p : ℕ} (hp : p ∈ live) :
    ∃ q n, p = q + 12 ∧ (q, ⟨true, n⟩) ∈ place 0 bs := by
  obtain ⟨⟨q, ⟨u, n⟩⟩, ⟨hx, hu⟩, rfl⟩ := (h p).mp hp
  simp only at hu
  subst hu
  exact ⟨q, n, rfl, hx⟩

theorem LiveOf.after {gone : Option ℕ} {new : Option (ℕ × Blk)} {live' : Finset ℕ}
    (h : LiveOf bs live) (he : Effect s bs s' bs' gone new)
    (hlive : ∀ p, p ∈ live' ↔ (p ∈ live ∧ ∀ q ∈ gone, p ≠ q + 12) ∨ ∃ x ∈ new, p = x.1 + 12) :
    LiveOf bs' live' := by
  intro p
  rw [hlive, h p]
  constructor
  · rintro (⟨⟨x, hx, rfl⟩, hg⟩ | ⟨x, hx, rfl⟩)
    · refine ⟨x, (he.inUse_iff x).mpr (.inl ⟨hx, fun hmem => ?_⟩), rfl⟩
      exact hg x.1 hmem rfl
    · exact ⟨x, (he.inUse_iff x).mpr (.inr hx), rfl⟩
  · rintro ⟨x, hx, rfl⟩
    rcases (he.inUse_iff x).mp hx with ⟨hx, hg⟩ | hx
    · refine .inl ⟨⟨x, hx, rfl⟩, fun q hq heq => hg ?_⟩
      have : x.1 = q := by omega
      rwa [this]
    · exact .inr ⟨x, hx, rfl⟩

/-! ## What an action does -/

/-- The pointer that an act is about. -/
def Act.on : Act → Option ℕ
  | .malloc _ => none
  | .calloc _ _ => none
  | .realloc p _ => p
  | .free p => p
  | .store p _ _ => some p

/-- The product of a call of `rt_calloc`, as a word, does not wrap when it is aligned. -/
def CallocFits (_ : State) : Act → Prop
  | .calloc count size => mul32 count size ≤ 2^32 - 4
  | _ => True

/-- A call of `rt_realloc` that splits the block does so above `lfree`, or just below a free block
that is `lfree`. -/
def HoleBelow (σ : State) : Act → Prop
  | .realloc (some p) size =>
    rtAlign size RT_ALIGN_SIZE ≠ 0 →
    rtAlign size RT_ALIGN_SIZE + SIZEOF_STRUCT_MEM + MIN_SIZE < userSize σ.heap p →
      σ.heap.lfree < p - SIZEOF_STRUCT_MEM ∨
        σ.heap.lfree = next σ.heap.mem (p - SIZEOF_STRUCT_MEM) ∧ σ.heap.lfree ≠ σ.heap.heapEnd
  | _ => True

instance (σ : State) (a : Act) : Decidable (CallocFits σ a) := by
  unfold CallocFits
  split <;> infer_instance

instance (σ : State) (a : Act) : Decidable (HoleBelow σ a) := by
  unfold HoleBelow
  split <;> infer_instance

/-- What one action does to a heap that meets the invariant: the invariant holds again, every block
in use that the action is not about stays in use with its contents, and `lfree` stays the lowest
free block unless a split leaves a hole below it. -/
structure Outcome (σ : State) (bs : List Blk) (a : Act) (σ' : State) (bs' : List Blk) : Prop where
  inv : RunInv σ' bs'
  bounds : SameBounds σ.heap σ'.heap
  kept : ∀ x, InUse bs x → x.1 + 12 ∉ a.on →
    InUse bs' x ∧ SameArea x σ.heap.mem σ'.heap.mem
  lowest : Lowest σ.heap bs → HoleBelow σ a → Lowest σ'.heap bs'

theorem Outcome.of_effect {σ σ' : State} {a : Act} {gone : Option ℕ} {new : Option (ℕ × Blk)}
    (h : RunInv σ bs) (he : Effect σ.heap bs σ'.heap bs' gone new) (hlive : ∀ p, p ∈ σ'.live ↔
      (p ∈ σ.live ∧ ∀ q ∈ gone, p ≠ q + 12) ∨ ∃ x ∈ new, p = x.1 + 12)
    (hon : ∀ q ∈ gone, q + 12 ∈ a.on)
    (hlow : Lowest σ.heap bs → HoleBelow σ a → Lowest σ'.heap bs') : Outcome σ bs a σ' bs' := by
  refine ⟨⟨he.inv, h.2.after he hlive⟩, he.bounds, fun x hx hxa => ?_, hlow⟩
  have hg : x.1 ∉ gone := fun hmem => hxa (hon x.1 hmem)
  exact ⟨(he.inUse_iff x).mpr (.inl ⟨hx, hg⟩), he.same x hx hg⟩

theorem mem_give {r : Option ℕ} {p : ℕ} : p ∈ give r live ↔ p ∈ live ∨ p ∈ r := by
  cases r with
  | none => simp [give]
  | some q =>
    simp only [give, elim_some, Finset.mem_insert, mem_def, some.injEq]
    tauto

section Actions

variable {σ σ' : State} {fuel : ℕ}

theorem malloc_outcome {size : ℕ} (h : RunInv σ bs) (hs : exec fuel σ (.malloc size) = some σ') :
    ∃ bs', Outcome σ bs (.malloc size) σ' bs' := by
  obtain ⟨-, hs⟩ := of_guard_bind hs
  obtain ⟨⟨r, s⟩, hmal, hret⟩ := bind_eq_some_iff.mp hs
  simp only [some.injEq] at hret
  subst hret
  rcases rtMalloc_effect h.1 hmal with ⟨rfl, rfl⟩ | ⟨q, k, bs', rfl, -, he, hlow⟩
  · exact ⟨bs, Outcome.of_effect h (Effect.refl h.1) (by simp [give]) (by simp) fun hl _ => hl⟩
  · exact ⟨bs', Outcome.of_effect h he (by simp [mem_give, eq_comm]) (by simp) fun hl _ => hlow hl⟩

theorem calloc_outcome {count size : ℕ} (h : RunInv σ bs) (hfit : mul32 count size ≤ 2^32 - 4)
    (hs : exec fuel σ (.calloc count size) = some σ') :
    ∃ bs', Outcome σ bs (.calloc count size) σ' bs' := by
  obtain ⟨-, hs⟩ := of_guard_bind hs
  obtain ⟨⟨r, s⟩, hcal, hret⟩ := bind_eq_some_iff.mp hs
  simp only [some.injEq] at hret
  subst hret
  rcases rtCalloc_effect h.1 hfit hcal with ⟨rfl, rfl⟩ | ⟨q, k, bs', rfl, -, he, hlow⟩
  · exact ⟨bs, Outcome.of_effect h (Effect.refl h.1) (by simp [give]) (by simp) fun hl _ => hl⟩
  · exact ⟨bs', Outcome.of_effect h he (by simp [mem_give, eq_comm]) (by simp) fun hl _ => hlow hl⟩

theorem free_outcome {p : Option ℕ} (h : RunInv σ bs) (hs : exec fuel σ (.free p) = some σ') :
    ∃ bs', Outcome σ bs (.free p) σ' bs' := by
  obtain ⟨hp, hs⟩ := of_guard_bind hs
  obtain ⟨s, hfree, hret⟩ := bind_eq_some_iff.mp hs
  simp only [some.injEq] at hret
  subst hret
  cases p with
  | none =>
    simp only [rtFree, some.injEq] at hfree
    subst hfree
    exact ⟨bs, Outcome.of_effect h (Effect.refl h.1) (by simp) (by simp) fun hl _ => hl⟩
  | some p =>
    obtain ⟨q, n, rfl, hq⟩ := h.2.block (hp p rfl)
    obtain ⟨s₁, bs', hs₁, he, hlow⟩ := rtFree_effect h.1 hq
    rw [hs₁, some.injEq] at hfree
    subst hfree
    refine ⟨bs', Outcome.of_effect h he ?_ (by simp [Act.on]) fun hl _ => hlow hl⟩
    intro p
    simp only [elim_some, Finset.mem_erase, mem_def, some.injEq, forall_eq',
      reduceCtorEq, false_and, exists_false, or_false]
    exact and_comm

theorem store_outcome {p i : ℕ} {v : UInt8} (h : RunInv σ bs)
    (hs : exec fuel σ (.store p i v) = some σ') : ∃ bs', Outcome σ bs (.store p i v) σ' bs' := by
  obtain ⟨⟨hp, hi⟩, hret⟩ := of_guard_bind hs
  simp only [some.injEq] at hret
  subst hret
  obtain ⟨q, n, rfl, hq⟩ := h.2.block hp
  rw [userSize_eq h.1 hq] at hi
  have hm : ∀ a, a < q + 12 ∨ q + n ≤ a →
      update σ.heap.mem (q + 12 + i) v a = σ.heap.mem a := fun a ha =>
    update_of_ne (by omega) v σ.heap.mem
  refine ⟨bs, ⟨h.1.write hq hm, h.2⟩, ⟨rfl, rfl, rfl⟩, fun x hx hxa => ⟨hx, ?_⟩, fun hl _ => hl⟩
  refine sameArea_of_write hq hx.1 (fun heq => hxa ?_) hm
  simp only at heq
  simp [Act.on, heq]

/-- A call of `rt_realloc` keeps the invariant. -/
theorem realloc_outcome {p : Option ℕ} {size : ℕ} (h : RunInv σ bs)
    (hs : exec fuel σ (.realloc p size) = some σ') :
    ∃ bs', Outcome σ bs (.realloc p size) σ' bs' := by
  obtain ⟨⟨-, hp⟩, hs⟩ := of_guard_bind hs
  obtain ⟨⟨r, s⟩, hre, hret⟩ := bind_eq_some_iff.mp hs
  simp only [some.injEq] at hret
  subst hret
  cases p with
  | none =>
    rcases rtRealloc_null_effect h.1 hre with ⟨rfl, rfl⟩ | ⟨q, k, bs', rfl, -, he, hlow⟩
    · exact ⟨bs, Outcome.of_effect h (Effect.refl h.1) (by simp [reallocLive, give]) (by simp)
        fun hl _ => hl⟩
    · exact ⟨bs', Outcome.of_effect h he (by simp [reallocLive, mem_give, eq_comm]) (by simp)
        fun hl _ => hlow hl⟩
  | some p =>
    obtain ⟨q, n, rfl, hq⟩ := h.2.block (hp p rfl)
    rcases rtRealloc_effect h.1 hq hre with ⟨hw, rfl, rfl⟩ | ⟨hw, rfl, bs', he, hlow⟩ |
      ⟨q', k, bs', hw, rfl, -, he, -, hlow⟩
    · exact ⟨bs, Outcome.of_effect h (Effect.refl h.1) (by simp [reallocLive, hw]) (by simp)
        fun hl _ => hl⟩
    · refine ⟨bs', Outcome.of_effect h he ?_ (by simp [Act.on]) fun hl _ => hlow hl⟩
      intro p
      simp only [reallocLive, hw, if_true, Finset.mem_erase, mem_def, some.injEq,
        forall_eq', reduceCtorEq, false_and, exists_false, or_false]
      exact and_comm
    · refine ⟨bs', Outcome.of_effect h he ?_ (by simp [Act.on]) fun hl hhole => hlow hl fun hsplit => ?_⟩
      · intro p
        simp only [reallocLive, hw, if_false, elim_some, Finset.mem_insert, Finset.mem_erase,
          mem_def, some.injEq, forall_eq', exists_eq_left']
        tauto
      · have hn : next σ.heap.mem q = q + n := (h.1.linked.at_mem hq).2
        simp only [HoleBelow, sizeof_eq, min_size_eq, Nat.add_sub_cancel, userSize_eq h.1 hq, hn]
          at hhole
        exact hhole hw (by omega)

theorem exec_outcome {a : Act} (h : RunInv σ bs) (hok : CallocFits σ a)
    (hs : exec fuel σ a = some σ') : ∃ bs', Outcome σ bs a σ' bs' := by
  cases a with
  | malloc size => exact malloc_outcome h hs
  | calloc count size => exact calloc_outcome h hok hs
  | realloc p size => exact realloc_outcome h hs
  | free p => exact free_outcome h hs
  | store p i v => exact store_outcome h hs

end Actions

/-! ## The run -/

/-- The heap starts as one free block. -/
theorem rtSystemHeapInit_inv {beginAddr endAddr : ℕ} {m : Bytes} (he : endAddr < 2^32)
    (h : rtSystemHeapInit beginAddr endAddr m = some s) :
    Inv s [⟨false, s.heapEnd⟩] ∧ s.lfree = 0 := by
  unfold rtSystemHeapInit at h
  simp only at h
  split_ifs at h with hfits
  obtain ⟨hgt, hge⟩ := hfits
  have hb : rtAlign beginAddr RT_ALIGN_SIZE < 2^32 ∧ 4 ∣ rtAlign beginAddr RT_ALIGN_SIZE := by
    rw [rtAlign_four]
    omega
  have hend : rtAlignDown endAddr RT_ALIGN_SIZE < 2^32 ∧ 4 ∣ rtAlignDown endAddr RT_ALIGN_SIZE := by
    rw [rtAlignDown_four he]
    omega
  generalize rtAlign beginAddr RT_ALIGN_SIZE = b at *
  generalize rtAlignDown endAddr RT_ALIGN_SIZE = e at *
  simp only [sizeof_eq] at *
  rw [sub32_eq (by omega) (by omega)] at hge
  have hmsa : sub32 (sub32 e b) (2 * 12) = e - b - 24 := by
    rw [sub32_eq (a := e) (by omega) (by omega), sub32_eq (by omega) (by omega)]
  have hlast : add32 (e - b - 24) 12 = e - b - 12 := by
    rw [add32_eq (by omega)]
    omega
  simp only [hmsa, hlast, some.injEq] at h
  generalize hL : e - b - 12 = last at *
  -- `heap_end` is read back from the first header.
  have hnext : next (setUsed (setPrev (setNext (setMagic m 0 HEAP_MAGIC) 0 last) 0 0) 0 0) 0
      = last := by
    simp (disch := omega) only [next, setUsed, setPrev, setNext, setMagic,
      Bytes.load_store_of_disjoint, Bytes.load_store_same]
    omega
  rw [hnext] at h
  subst h
  refine ⟨⟨⟨linked_cons.mpr ⟨flag_eq_false.mpr ⟨?_, ?_⟩, ?_, ?_, trivial⟩, by simp, ?_, ?_, by simp,
    ?_, ?_, ?_, ?_, hb.2, by simp⟩, List.isChain_singleton _, .inr ⟨last, by simp⟩⟩, rfl⟩
  all_goals simp only [List.mem_cons, List.not_mem_nil, or_false, forall_eq]
  all_goals try omega
  all_goals simp (disch := omega) only [fields, magic, used, next, prev, setUsed, setPrev, setNext,
    setMagic, Bytes.load_store_of_disjoint, Bytes.load_store_same]
  all_goals first | omega | decide

/-- The invariant holds in every state of a run in which every product of `rt_calloc` fits. -/
theorem reachable_inv {σ : State} (h : Reachable heapSystem CallocFits σ) : ∃ bs, RunInv σ bs := by
  refine h.invariant ?_ ?_
  · rintro σ ⟨b, e, m, -, he, hinit, hlive⟩
    obtain ⟨hinv, -⟩ := rtSystemHeapInit_inv he hinit
    refine ⟨_, hinv, fun p => ?_⟩
    simp [hlive, InUse]
  · rintro σ a σ' ⟨bs, hσ⟩ hok ⟨fuel, hs⟩
    obtain ⟨bs', ho⟩ := exec_outcome hσ hok hs
    exact ⟨bs', ho.inv⟩

/-- `lfree` is the lowest free block in every state of a run in which, besides, no split of
`rt_realloc` leaves a hole below it. -/
theorem reachable_lowest {σ : State}
    (h : Reachable heapSystem (fun σ a => CallocFits σ a ∧ HoleBelow σ a) σ) :
    ∃ bs, RunInv σ bs ∧ Lowest σ.heap bs := by
  refine h.invariant ?_ ?_
  · rintro σ ⟨b, e, m, -, he, hinit, hlive⟩
    obtain ⟨hinv, hlf⟩ := rtSystemHeapInit_inv he hinit
    refine ⟨_, ⟨hinv, fun p => by simp [hlive, InUse]⟩, fun x _ _ => ?_⟩
    omega
  · rintro σ a σ' ⟨bs, hσ, hlow⟩ ⟨hok, hhole⟩ ⟨fuel, hs⟩
    obtain ⟨bs', ho⟩ := exec_outcome hσ hok hs
    exact ⟨bs', ho.inv, ho.lowest hlow hhole⟩

end RtThread.Mem
