import RtThread.Signal.Model

/-!
# The nodes of pending signals

A signal that is pending for a thread is in one of three places (`Loc`): a call of `rt_thread_kill` has
set its bit and not yet appended the node, the node is on the list of the thread, or the node has been
taken off the list and the handler runs. `SigInv` says this with two tables beside the state: `loc` gives
the place of each signal of each thread, and `own` the signal that a node belongs to, if it is not in
the pool. A step moves one signal from one place to the next.
-/

namespace RtThread.Signal

open Lib List BitVec Nat

/-! ## Words -/

section

variable {sig i : ℕ} {p : Sigset}

theorem getLsbD_sigMask (hsig : sig < 32) : (sigMask sig).getLsbD i = decide (i = sig) := by
  unfold sigMask
  by_cases hi : i = sig
  · subst hi
    simp [hsig]
  · rw [decide_eq_false hi, getLsbD_shiftLeft]
    by_cases hlt : i < sig
    · simp [hlt]
    · have hne : i - sig ≠ 0 := by omega
      simp [getLsbD_one, hne]

theorem getLsbD_set (hsig : sig < 32) :
    (p ||| sigMask sig).getLsbD i = true ↔ p.getLsbD i = true ∨ i = sig := by
  rw [getLsbD_or, getLsbD_sigMask hsig, Bool.or_eq_true, decide_eq_true_eq]

theorem getLsbD_clear (hsig : sig < 32) :
    (p &&& ~~~sigMask sig).getLsbD i = true ↔ p.getLsbD i = true ∧ i ≠ sig := by
  rw [getLsbD_and, getLsbD_not, getLsbD_sigMask hsig, Bool.and_eq_true, Bool.and_eq_true,
    Bool.not_eq_true', decide_eq_false_iff_not, decide_eq_true_eq]
  refine ⟨fun h => ⟨h.1, h.2.2⟩, fun h => ⟨h.1, lt_of_getLsbD h.1, h.2⟩⟩

theorem and_sigMask_ne (hsig : sig < 32) : p &&& sigMask sig ≠ 0 ↔ p.getLsbD sig = true := by
  have hbit : ∀ i, (p &&& sigMask sig).getLsbD i = true ↔ p.getLsbD i = true ∧ i = sig := by
    intro i
    rw [getLsbD_and, getLsbD_sigMask hsig, Bool.and_eq_true, decide_eq_true_eq]
  have hzero : ∀ i, (0 : Sigset).getLsbD i = false := fun _ => getLsbD_zero
  constructor
  · intro hne
    by_contra hclear
    refine hne (eq_of_getLsbD_eq fun i hi => ?_)
    rw [hzero, Bool.eq_false_iff]
    intro hset
    obtain ⟨hp, rfl⟩ := (hbit i).mp hset
    exact hclear hp
  · intro hset heq
    have hone := (hbit sig).mpr ⟨hset, rfl⟩
    rw [heq, hzero] at hone
    exact absurd hone Bool.false_ne_true

end

theorem lt_of_sigValid {sig : ℤ} (h : sigValid sig = true) : sig.toNat < 32 := by
  unfold sigValid RT_SIG_MAX at h
  rw [Bool.and_eq_true, decide_eq_true_eq, decide_eq_true_eq] at h
  omega

theorem entry_member {a : ℕ} (ha : a + 12 ≤ 2^32) : entry (member a) = a := by
  unfold entry member sub32 add32
  omega

theorem member_ne_zero {a : ℕ} (ha : a + 12 ≤ 2^32) : member a ≠ 0 := by
  unfold member add32
  omega

/-! ## The list of a thread -/

/-- The nodes that a pointer to a node leads to, as far as there are blocks. -/
def Signals.nodesFrom {τ σ H : Type} (s : Signals τ σ H) : ℕ → ℕ → List ℕ
  | 0, _ => []
  | fuel + 1, a =>
    if a = 0 then [] else a :: s.nodesFrom fuel (if s.next a = 0 then 0 else entry (s.next a))

/-- The nodes of the list of a thread. -/
def Signals.nodes {τ σ H : Type} (s : Signals τ σ H) (t : τ) : List ℕ :=
  s.nodesFrom s.blocks.length (s.thread t).siList

/-- The list of nodes is linked, and its nodes are blocks. -/
structure Chain {τ σ H : Type} (s : Signals τ σ H) (l : List ℕ) : Prop where
  linked : LinkedBy s.next member 0 l
  block : ∀ a ∈ l, a ∈ s.blocks ∧ 0 < a ∧ a + 12 ≤ 2^32

namespace Chain

variable {τ σ H : Type} {s : Signals τ σ H} {a : ℕ} {l l' : List ℕ}

section

variable (h : Chain s (a :: l))
include h

theorem tail : Chain s l :=
  ⟨h.linked.2, fun b hb => h.block b (mem_cons_of_mem _ hb)⟩

theorem head_ne : a ≠ 0 := ne_of_gt (h.block a mem_cons_self).2.1

theorem next_node : (if s.next a = 0 then 0 else entry (s.next a)) = l.headD 0 := by
  rw [h.linked.1]
  cases l with
  | nil => exact if_pos rfl
  | cons b l =>
    have hb := (h.tail.block b mem_cons_self).2.2
    rw [linkTo, if_neg (member_ne_zero hb), entry_member hb]
    rfl

theorem next_eq_zero_iff : s.next a = 0 ↔ l = [] := by
  rw [h.linked.1]
  cases l with
  | nil => exact iff_of_true rfl rfl
  | cons b l =>
    have hb := (h.tail.block b mem_cons_self).2.2
    exact iff_of_false (member_ne_zero hb) (cons_ne_nil _ _)

end

theorem nodesFrom_eq (h : Chain s l) {fuel : ℕ} (hfuel : l.length ≤ fuel) :
    s.nodesFrom fuel (l.headD 0) = l := by
  induction l generalizing fuel with
  | nil =>
    cases fuel with
    | zero => rfl
    | succ fuel => exact if_pos rfl
  | cons a l ih =>
    cases fuel with
    | zero => exact absurd hfuel (not_succ_le_zero _)
    | succ fuel =>
      show s.nodesFrom (fuel + 1) a = a :: l
      rw [Signals.nodesFrom, if_neg h.head_ne, h.next_node, ih h.tail (le_of_succ_le_succ hfuel)]

theorem length_le (h : Chain s l) (hnodup : l.Nodup) : l.length ≤ s.blocks.length :=
  (hnodup.subperm fun a ha => (h.block a ha).1).length_le

theorem readNext (h : Chain s (a :: l)) : s.readNext a = .ok (s.next a) :=
  if_pos (h.block a mem_cons_self).1

theorem readSi (h : Chain s (a :: l)) : s.readSi a = .ok (s.si a) :=
  if_pos (h.block a mem_cons_self).1

theorem slistLast_eq (h : Chain s (l ++ [a])) {fuel : ℕ} (hfuel : l.length < fuel) :
    s.slistLast fuel (member ((l ++ [a]).headD 0)) = .ok (member a) := by
  induction l generalizing fuel with
  | nil =>
    cases fuel with
    | zero => exact absurd hfuel (not_lt_zero _)
    | succ fuel =>
      have ha := (h.block a mem_cons_self).2.2
      have hnext : s.next a = 0 := h.linked.1
      show s.slistLast (fuel + 1) (member a) = .ok (member a)
      rw [Signals.slistLast, entry_member ha, h.readNext]
      exact if_pos hnext
  | cons b l ih =>
    cases fuel with
    | zero => exact absurd hfuel (not_lt_zero _)
    | succ fuel =>
      have hb := (h.block b mem_cons_self).2.2
      have hlink : s.next b = member ((l ++ [a]).headD 0) := by
        rw [h.linked.1]
        cases l <;> rfl
      have hne : s.next b ≠ 0 := mt h.next_eq_zero_iff.mp (by simp)
      show s.slistLast (fuel + 1) (member b) = .ok (member a)
      rw [Signals.slistLast, entry_member hb, h.readNext]
      show (if s.next b = 0 then _ else s.slistLast fuel (s.next b)) = _
      rw [if_neg hne, hlink]
      exact ih h.tail (lt_of_succ_lt_succ hfuel)

theorem waitLoop_eq {set : Sigset} (h : Chain s (l ++ a :: l')) (hbefore : ∀ b ∈ l, sigMask (s.si b).signo &&& set = 0)
    (ha : sigMask (s.si a).signo &&& set ≠ 0) {fuel prev : ℕ} (hfuel : l.length < fuel) :
    s.waitLoop set fuel prev ((l ++ a :: l').headD 0) = .ok (some (l.getLastD prev, a)) := by
  induction l generalizing fuel prev with
  | nil =>
    cases fuel with
    | zero => exact absurd hfuel (not_lt_zero _)
    | succ fuel =>
      show s.waitLoop set (fuel + 1) prev a = .ok (some (prev, a))
      rw [Signals.waitLoop, if_neg h.head_ne, h.readSi]
      exact if_pos ha
  | cons b l ih =>
    cases fuel with
    | zero => exact absurd hfuel (not_lt_zero _)
    | succ fuel =>
      have hb : ¬sigMask (s.si b).signo &&& set ≠ 0 := not_not.mpr (hbefore b mem_cons_self)
      have hne : s.next b ≠ 0 := mt h.next_eq_zero_iff.mp (by simp)
      have hnode : entry (s.next b) = (l ++ a :: l').headD 0 := (if_neg hne).symm.trans h.next_node
      show s.waitLoop set (fuel + 1) prev b = _
      rw [Signals.waitLoop, if_neg h.head_ne, h.readSi]
      show (if sigMask (s.si b).signo &&& set ≠ 0 then _ else
        (s.readNext b >>= fun p => s.waitLoop set fuel b (entry p))) = _
      rw [if_neg hb, h.readNext]
      show s.waitLoop set fuel b (entry (s.next b)) = _
      rw [hnode, ih h.tail (fun c hc => hbefore c (mem_cons_of_mem _ hc))
        (lt_of_succ_lt_succ hfuel)]
      cases l <;> rfl

end Chain

/-! ## The invariant -/

/-- The places of a pending signal. -/
inductive Loc (σ : Type)
  | listed
  | handled
  | sending (k : σ)

section

variable {τ σ H : Type}

/-- The node `a` belongs to the signal `sig` of the thread `t`, and holds its information. -/
structure Holds (s : Signals τ σ H) (own : ℕ → Option (τ × ℕ)) (a : ℕ) (t : τ) (sig : ℕ) : Prop where
  block : a ∈ s.blocks
  own : own a = some (t, sig)
  si : s.si a = killInfo sig

variable {s : Signals τ σ H} {own : ℕ → Option (τ × ℕ)}

theorem Holds.signo {a sig : ℕ} {t : τ} (h : Holds s own a t sig) : (s.si a).signo = sig := by
  rw [h.si]
  rfl

theorem Holds.ne {a b sig sig' : ℕ} {t t' : τ}
    (h : Holds s own a t sig) (hb : own b = some (t', sig')) (hne : (t', sig') ≠ (t, sig)) : b ≠ a := by
  rintro rfl
  rw [h.own] at hb
  exact hne (Option.some.inj hb).symm

/-- What the thread `t` holds, with the nodes `l` on its list. -/
structure ThreadInv (s : Signals τ σ H) (own : ℕ → Option (τ × ℕ)) (loc : τ → ℕ → Option (Loc σ)) (t : τ)
    (l : List ℕ) : Prop where
  head : (s.thread t).siList = l.headD 0
  linked : LinkedBy s.next member 0 l
  listed : ∀ a ∈ l, Holds s own a t (s.si a).signo ∧ loc t (s.si a).signo = some .listed
  distinct : (l.map fun a => (s.si a).signo).Nodup
  of_listed : ∀ sig, loc t sig = some .listed → ∃ a ∈ l, (s.si a).signo = sig
  framed : ∀ f ∈ (s.thread t).frames, Holds s own f.node t f.signo ∧ loc t f.signo = some .handled
  frames_distinct : ((s.thread t).frames.map Frame.signo).Nodup
  of_handled : ∀ sig, loc t sig = some .handled → ∃ f ∈ (s.thread t).frames, f.signo = sig
  vectors : (s.thread t).frames ≠ [] → (s.thread t).vectors.isSome = true
  pending : ∀ sig, (s.thread t).pending.getLsbD sig = true ↔ (loc t sig).isSome = true

/-- A call of `rt_thread_kill` has its signal, and the node that it appends. -/
structure SendInv (s : Signals τ σ H) (own : ℕ → Option (τ × ℕ)) (loc : τ → ℕ → Option (Loc σ)) (k : σ)
    (x : Send τ) : Prop where
  loc : loc x.tid x.sig = some (.sending k)
  stage : x.stage = .alloc ∨ ∃ a, x.stage = .append a ∧ Holds s own a x.tid x.sig ∧ s.next a = 0

/-- Every signal is in its place, and every node belongs to one signal or is free. -/
structure SigInv (s : Signals τ σ H) (L : τ → List ℕ) (own : ℕ → Option (τ × ℕ))
    (loc : τ → ℕ → Option (Loc σ)) : Prop where
  thread : ∀ t, ThreadInv s own loc t (L t)
  send : ∀ k x, s.sending k = some x → SendInv s own loc k x
  of_sending : ∀ t sig k, loc t sig = some (.sending k) → ∃ x, s.sending k = some x ∧ x.tid = t ∧ x.sig = sig
  free : ∀ a ∈ s.pool, a ∈ s.blocks ∧ own a = none
  pool_nodup : s.pool.Nodup
  block : ∀ a ∈ s.blocks, 0 < a ∧ a + 12 ≤ 2^32

theorem Booted.inv [DecidableEq τ] [DecidableEq σ] (h : Booted s) :
    SigInv s (fun _ => []) (fun _ => none) fun _ _ => none := by
  refine ⟨fun t => ?_, fun k x hx => ?_, ?_, fun a ha => ⟨h.pool ▸ ha, rfl⟩, h.pool ▸ h.nodup, h.block⟩
  · refine ⟨?_, trivial, ?_, nodup_nil, ?_, ?_, ?_, ?_, ?_, ?_⟩
    · rw [h.thread]
      rfl
    · intro a ha
      exact absurd ha not_mem_nil
    · intro sig hloc
      cases hloc
    · rw [h.thread]
      intro f hf
      exact absurd hf not_mem_nil
    · rw [h.thread]
      exact nodup_nil
    · intro sig hloc
      cases hloc
    · rw [h.thread]
      intro hne
      exact absurd rfl hne
    · intro sig
      rw [h.thread]
      exact iff_of_false (by simp [Thread.init]) Bool.false_ne_true
  · rw [h.sending] at hx
    cases hx
  · intro t sig k hloc
    cases hloc

namespace ThreadInv

variable {s s' : Signals τ σ H} {own own' : ℕ → Option (τ × ℕ)} {loc loc' : τ → ℕ → Option (Loc σ)} {t : τ}
  {l : List ℕ}

section

variable (h : ThreadInv s own loc t l)
include h

theorem chain (hblock : ∀ a ∈ s.blocks, 0 < a ∧ a + 12 ≤ 2^32) : Chain s l :=
  ⟨h.linked, fun a ha => ⟨(h.listed a ha).1.block, hblock a (h.listed a ha).1.block⟩⟩

theorem nodup : l.Nodup := h.distinct.of_map

theorem nodes_eq (hblock : ∀ a ∈ s.blocks, 0 < a ∧ a + 12 ≤ 2^32) : s.nodes t = l := by
  have hchain := h.chain hblock
  unfold Signals.nodes
  rw [h.head, hchain.nodesFrom_eq (hchain.length_le h.nodup)]

theorem congr (hblocks : s'.blocks = s.blocks) (hthread : s'.thread t = s.thread t)
    (hloc : loc' t = loc t)
    (hnode : ∀ a sig, own a = some (t, sig) → own' a = own a ∧ s'.si a = s.si a ∧ s'.next a = s.next a) :
    ThreadInv s' own' loc' t l := by
  have hsi : ∀ a ∈ l, s'.si a = s.si a := fun a ha => (hnode a _ (h.listed a ha).1.own).2.1
  have hmap : (l.map fun a => (s'.si a).signo) = l.map fun a => (s.si a).signo :=
    map_congr_left fun a ha => by rw [hsi a ha]
  have hholds : ∀ {a sig}, Holds s own a t sig → Holds s' own' a t sig := by
    intro a sig ha
    obtain ⟨hown, hsi, -⟩ := hnode a sig ha.own
    exact ⟨hblocks ▸ ha.block, hown.trans ha.own, hsi.trans ha.si⟩
  refine ⟨hthread ▸ h.head, h.linked.congr fun a ha => (hnode a _ (h.listed a ha).1.own).2.2, ?_, hmap ▸ h.distinct,
    ?_, ?_, hthread ▸ h.frames_distinct, ?_, hthread ▸ h.vectors, ?_⟩
  · intro a ha
    rw [hsi a ha, hloc]
    exact ⟨hholds (h.listed a ha).1, (h.listed a ha).2⟩
  · intro sig hlisted
    obtain ⟨a, ha, hsigno⟩ := h.of_listed sig (hloc ▸ hlisted)
    exact ⟨a, ha, by rw [hsi a ha, hsigno]⟩
  · rw [hthread, hloc]
    intro f hf
    exact ⟨hholds (h.framed f hf).1, (h.framed f hf).2⟩
  · rw [hthread, hloc]
    exact h.of_handled
  · rw [hthread, hloc]
    exact h.pending

end

end ThreadInv

end

end RtThread.Signal
