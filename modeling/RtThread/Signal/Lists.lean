import RtThread.Signal.Moves

/-!
# What the sections do to the lists

One lemma for each section of `src/signal.c` that touches the list of a thread: the bit is set, the
node is allocated, it is appended, it is taken off for its handler, the handler has returned, and
`rt_signal_wait` takes it. All of them move one signal (`ThreadInv.relocate`), from no place to
`Loc.sending`, `Loc.listed`, `Loc.handled` and back.
-/

namespace RtThread.Signal

open Lib Function List

variable {τ σ H : Type}

/-! ## What the sections do to the thread -/

variable {th : Thread H}

namespace ThreadInv

variable {s s' : Signals τ σ H} {own own' : ℕ → Option (τ × ℕ)} {loc : τ → ℕ → Option (Loc σ)} {t : τ}
  {l l' l₁ l₂ : List ℕ} {n a : ℕ} {k : σ} {v : Option (Loc σ)}

theorem loc_eq_none (h : ThreadInv s own loc t l) (hclear : (s.thread t).pending &&& sigMask n = 0) (hn : n < 32) :
    loc t n = none := by
  have hbit : ¬(s.thread t).pending.getLsbD n = true := fun hset => (and_sigMask_ne hn).mpr hset hclear
  rw [h.pending n, Option.isSome_iff_ne_none, not_not] at hbit
  exact hbit

variable {u : Loc σ}

theorem lt_of_loc (h : ThreadInv s own loc t l) (hloc : loc t n = some u) : n < 32 :=
  BitVec.lt_of_getLsbD ((h.pending n).mpr (by rw [hloc]; rfl))

theorem signo_ne (h : ThreadInv s own loc t l) (hloc : loc t n ≠ some .listed) (ha : a ∈ l) : (s.si a).signo ≠ n :=
  fun heq => hloc (heq ▸ (h.listed a ha).2)

theorem frame_ne (h : ThreadInv s own loc t l) (hloc : loc t n ≠ some .handled) {f : Frame}
    (hf : f ∈ (s.thread t).frames) : f.signo ≠ n :=
  fun heq => hloc (heq ▸ (h.framed f hf).2)

theorem linked_take (h : ThreadInv s own loc t (l₁ ++ a :: l₂)) {p : ℕ} (hp : p = l₁.getLastD 0) (hpos : ∀ b ∈ l₁, 0 < b) :
    LinkedBy (if p ≠ 0 then update s.next p (s.next a) else s.next) member 0 (l₁ ++ l₂) := by
  have hnodup := h.nodup
  rcases eq_nil_or_concat l₁ with rfl | ⟨l, b, hl⟩
  · have hzero : p = 0 := hp
    rw [if_neg (not_not.mpr hzero)]
    exact h.linked.2
  · rw [concat_eq_append] at hl
    subst hl
    have hb : p = b := by rw [hp, getLastD_concat]
    have hne : b ≠ 0 := Nat.ne_of_gt (hpos b (mem_append_right _ (mem_singleton_self b)))
    rw [append_assoc, singleton_append] at hnodup ⊢
    have hlinked := h.linked
    rw [append_assoc, singleton_append] at hlinked
    obtain ⟨-, hrest, hdisjoint⟩ := nodup_append.mp hnodup
    rw [hb, if_pos hne]
    refine hlinked.unlink (fun hmem => hdisjoint b hmem b mem_cons_self rfl) fun hmem => ?_
    exact (nodup_cons.mp hrest).1 (mem_cons_of_mem _ hmem)

theorem head_take (h : ThreadInv s own loc t (l₁ ++ a :: l₂)) (hfirst : l₁ = [] → l₂ = []) {p : ℕ}
    (hp : p = l₁.getLastD 0) (hpos : ∀ b ∈ l₁, 0 < b) :
    (if p ≠ 0 then (s.thread t).siList else s.next a) = (l₁ ++ l₂).headD 0 := by
  have hhead := h.head
  rcases eq_nil_or_concat l₁ with rfl | ⟨l, b, hl⟩
  · have hzero : p = 0 := hp
    rw [if_neg (not_not.mpr hzero), h.linked.1, hfirst rfl]
    rfl
  · rw [concat_eq_append] at hl
    subst hl
    have hb : p = b := by rw [hp, getLastD_concat]
    have hne : b ≠ 0 := Nat.ne_of_gt (hpos b (mem_append_right _ (mem_singleton_self b)))
    rw [hb, if_pos hne, hhead]
    cases l <;> rfl

variable [DecidableEq τ]

/-- The rule for a thread: one of its signals goes to another place. -/
theorem relocate (h : ThreadInv s own loc t l) (hth : s'.thread t = th)
    (hhead : th.siList = l'.headD 0) (hlinked : LinkedBy s'.next member 0 l')
    (hstay : ∀ b m, m ≠ n → Holds s own b t m → Holds s' own' b t m)
    (hlist : ∀ b ∈ l', b ∈ l ∧ (s.si b).signo ≠ n ∨ Holds s' own' b t n ∧ v = some .listed)
    (hlist' : ∀ b ∈ l, (s.si b).signo ≠ n → b ∈ l')
    (hlisted : v = some .listed → ∃ b ∈ l', Holds s' own' b t n)
    (hdistinct : (l'.map fun b => (s'.si b).signo).Nodup) (hframes : ∀ f ∈ th.frames,
      f ∈ (s.thread t).frames ∧ f.signo ≠ n ∨ Holds s' own' f.node t n ∧ f.signo = n ∧ v = some .handled)
    (hframes' : ∀ f ∈ (s.thread t).frames, f.signo ≠ n → f ∈ th.frames)
    (hhandled : v = some .handled → ∃ f ∈ th.frames, f.signo = n)
    (hfdistinct : (th.frames.map Frame.signo).Nodup)
    (hvectors : th.frames ≠ [] → th.vectors.isSome = true)
    (hpending : ∀ m, th.pending.getLsbD m = true ↔
      m = n ∧ v.isSome = true ∨ m ≠ n ∧ (s.thread t).pending.getLsbD m = true) :
    ThreadInv s' own' (setLoc loc t n v) t l' := by
  subst hth
  -- The places of the other signals of the thread do not change.
  have hother : ∀ {m}, m ≠ n → setLoc loc t n v t m = loc t m := fun hm =>
    setLoc_of_ne fun hpair => hm (Prod.mk.inj hpair).2
  refine ⟨hhead, hlinked, fun b hb => ?_, hdistinct, fun m hm => ?_, fun f hf => ?_, hfdistinct, fun m hm => ?_,
    hvectors, fun m => ?_⟩
  · rcases hlist b hb with ⟨hmem, hne⟩ | ⟨hholds, hv⟩
    · have hstayed := hstay b _ hne (h.listed b hmem).1
      rw [hstayed.signo]
      exact ⟨hstayed, (hother hne).trans (h.listed b hmem).2⟩
    · rw [hholds.signo]
      exact ⟨hholds, setLoc_self.trans hv⟩
  · by_cases heq : m = n
    · rw [heq, setLoc_self] at hm
      obtain ⟨b, hb, hholds⟩ := hlisted hm
      exact ⟨b, hb, hholds.signo.trans heq.symm⟩
    · rw [hother heq] at hm
      obtain ⟨b, hb, hsigno⟩ := h.of_listed m hm
      have hne : (s.si b).signo ≠ n := hsigno.trans_ne heq
      refine ⟨b, hlist' b hb hne, ?_⟩
      rw [(hstay b _ hne (h.listed b hb).1).signo, hsigno]
  · rcases hframes f hf with ⟨hmem, hne⟩ | ⟨hholds, hsigno, hv⟩
    · exact ⟨hstay _ _ hne (h.framed f hmem).1, (hother hne).trans (h.framed f hmem).2⟩
    · rw [hsigno]
      exact ⟨hholds, setLoc_self.trans hv⟩
  · by_cases heq : m = n
    · rw [heq, setLoc_self] at hm
      obtain ⟨f, hf, hsigno⟩ := hhandled hm
      exact ⟨f, hf, hsigno.trans heq.symm⟩
    · rw [hother heq] at hm
      obtain ⟨f, hf, hsigno⟩ := h.of_handled m hm
      exact ⟨f, hframes' f hf (hsigno.trans_ne heq), hsigno⟩
  · rw [hpending]
    by_cases heq : m = n
    · rw [heq, setLoc_self]
      exact ⟨fun hp => (hp.resolve_right fun hne => hne.1 rfl).2, fun hv => .inl ⟨rfl, hv⟩⟩
    · rw [hother heq, ← h.pending]
      exact ⟨fun hp => (hp.resolve_left fun hn => heq hn.1).2, fun hp => .inr ⟨heq, hp⟩⟩

theorem pending_set {p : Sigset} {m : ℕ} (hn : n < 32) : (p ||| sigMask n).getLsbD m = true ↔
      m = n ∧ (some u).isSome = true ∨ m ≠ n ∧ p.getLsbD m = true := by
  rw [getLsbD_set hn]
  by_cases heq : m = n
  · exact iff_of_true (.inr heq) (.inl ⟨heq, rfl⟩)
  · exact ⟨fun h => .inr ⟨heq, h.resolve_right heq⟩, fun h => .inl (h.resolve_left fun hm => heq hm.1).2⟩

theorem pending_clear {p : Sigset} {m : ℕ} (hn : n < 32) : (p &&& ~~~sigMask n).getLsbD m = true ↔
      m = n ∧ (none : Option (Loc σ)).isSome = true ∨ m ≠ n ∧ p.getLsbD m = true := by
  rw [getLsbD_clear hn, and_comm]
  exact ⟨.inr, fun h => h.resolve_left fun hm => Bool.false_ne_true hm.2⟩

theorem pending_same {p : Sigset} {m : ℕ} (hp : p.getLsbD n = true) :
    p.getLsbD m = true ↔ m = n ∧ (some u).isSome = true ∨ m ≠ n ∧ p.getLsbD m = true := by
  by_cases heq : m = n
  · rw [heq]
    exact iff_of_true hp (.inl ⟨rfl, rfl⟩)
  · exact ⟨fun h => .inr ⟨heq, h⟩, fun h => (h.resolve_left fun hm => heq hm.1).2⟩

end ThreadInv

/-- The first node `a` has been taken off the list of the thread, and its handler has been called. -/
def Signals.popped [DecidableEq τ] (s : Signals τ σ H) (t : τ) (a : ℕ) (vectors : ℕ → Handler H) : Signals τ σ H :=
  { s.setThread t { s.thread t with
      siList := if s.next a = 0 then 0 else entry (s.next a)
      frames := ⟨a, (s.si a).signo⟩ :: (s.thread t).frames } with
    called := match vectors (s.si a).signo with
      | .null => s.called
      | _ => s.called ++ [⟨t, (s.si a).signo, (s.thread t).pending, (s.thread t).mask⟩] }

/-- The handler of `f` has returned, and its node is free. -/
def Signals.finished [DecidableEq τ] (s : Signals τ σ H) (t : τ) (f : Frame) (frames : List Frame) :
    Signals τ σ H :=
  { s.setThread t { s.thread t with
      pending := (s.thread t).pending &&& ~~~sigMask f.signo
      error := (s.si f.node).errno
      frames := frames } with
    pool := f.node :: s.pool }

theorem Signals.finished_thread [DecidableEq τ] (s : Signals τ σ H) (t : τ) (f : Frame) (frames : List Frame) :
    (s.finished t f frames).thread t = { s.thread t with
      pending := (s.thread t).pending &&& ~~~sigMask f.signo
      error := (s.si f.node).errno
      frames := frames } := update_self _ _ _

theorem ThreadInv.handleLoop_eq [DecidableEq τ] {s : Signals τ σ H} {own : ℕ → Option (τ × ℕ)}
    {loc : τ → ℕ → Option (Loc σ)} {t : τ} {a : ℕ} {l : List ℕ} {vectors : ℕ → Handler H}
    (h : ThreadInv s own loc t (a :: l)) (hblock : ∀ a ∈ s.blocks, 0 < a ∧ a + 12 ≤ 2^32)
    (hsome : (s.thread t).pending &&& (s.thread t).mask ≠ 0) (hvectors : (s.thread t).vectors = some vectors) :
    s.handleLoop t = .ok (s.popped t a vectors) := by
  have hchain := h.chain hblock
  have hhead : (s.thread t).siList = a := h.head
  unfold Signals.handleLoop Signals.popped
  dsimp only
  rw [if_neg hsome, hhead, if_neg hchain.head_ne, hchain.readNext, hchain.readSi, hvectors]
  rfl

namespace SigInv

variable {s s' : Signals τ σ H} {L : τ → List ℕ} {own : ℕ → Option (τ × ℕ)} {loc : τ → ℕ → Option (Loc σ)} {t : τ}
  {l l₁ l₂ : List ℕ} {n a : ℕ} {k : σ} {x : Send τ}

theorem freed (h : SigInv s L own loc) (ha : Holds s own a t n) :
    (∀ b ∈ a :: s.pool, b ∈ s.blocks ∧ update own a none b = none) ∧ (a :: s.pool).Nodup := by
  constructor
  · intro b hb
    by_cases hba : b = a
    · rw [hba]
      exact ⟨ha.block, update_self _ _ _⟩
    · obtain ⟨hblock, hown⟩ := h.free b ((mem_cons.mp hb).resolve_left hba)
      exact ⟨hblock, (update_of_ne hba _ _).trans hown⟩
  · refine nodup_cons.mpr ⟨fun hmem => ?_, h.pool_nodup⟩
    have hown := (h.free _ hmem).2
    rw [ha.own] at hown
    cases hown

theorem holds_of_append (h : SigInv s L own loc) (hx : s.sending k = some x) (hstage : x.stage = .append a) :
    Holds s own a x.tid x.sig ∧ s.next a = 0 := by
  rcases (h.send k x hx).stage with halloc | ⟨b, hb, hholds, hnext⟩
  · rw [hstage] at halloc
    cases halloc
  · rw [hstage] at hb
    cases hb
    exact ⟨hholds, hnext⟩

theorem not_listed_of_sending (h : SigInv s L own loc) (hx : s.sending k = some x) :
    loc x.tid x.sig ≠ some .listed := by
  rw [(h.send k x hx).loc]
  nofun

theorem appended_distinct (h : SigInv s L own loc) (hx : s.sending k = some x) (hsigno : (s.si a).signo = x.sig) :
    ((L x.tid ++ [a]).map fun b => (s.si b).signo).Nodup := by
  have hinv := h.thread x.tid
  rw [map_append]
  refine nodup_append.mpr ⟨hinv.distinct, nodup_singleton _, ?_⟩
  intro m hm m' hm' heq
  obtain ⟨b, hb, rfl⟩ := mem_map.mp hm
  rw [mem_singleton.mp hm'] at heq
  exact hinv.signo_ne (h.not_listed_of_sending hx) hb (heq.trans hsigno)

/-- The walk to the end of a list that is not empty finds its last node. -/
theorem last_of_list {b : ℕ} (h : SigInv s L own loc) (hl : L t = l ++ [b]) :
    (s.thread t).siList ≠ 0 ∧
      s.slistLast s.blocks.length (member (s.thread t).siList) = .ok (member b) ∧ entry (member b) = b := by
  have hinv := h.thread t
  have hchain : Chain s (l ++ [b]) := hl ▸ hinv.chain h.block
  have hlength := hchain.length_le (hl ▸ hinv.nodup)
  rw [length_append, length_singleton] at hlength
  rw [hinv.head, hl]
  refine ⟨?_, hchain.slistLast_eq hlength, ?_⟩
  · cases l with
    | nil => exact hchain.head_ne
    | cons c l => exact hchain.head_ne
  · exact entry_member (hchain.block b (mem_append_right _ (mem_singleton_self b))).2.2

variable [DecidableEq τ]

/-- `rt_signal_wait` takes a node off the list. -/
theorem take (h : SigInv s L own loc) (hl : L t = l₁ ++ a :: l₂) (hfirst : l₁ = [] → l₂ = []) {p : ℕ}
    (hp : p = l₁.getLastD 0)
    (hth : th = { s.thread t with
      pending := (s.thread t).pending &&& ~~~sigMask (s.si a).signo
      siList := if p ≠ 0 then (s.thread t).siList else s.next a }) :
    SigInv { s.setThread t th with
      next := if p ≠ 0 then update s.next p (s.next a) else s.next
      pool := a :: s.pool } (update L t (l₁ ++ l₂)) (update own a none)
      (setLoc loc t (s.si a).signo none) := by
  subst hth
  have hinv : ThreadInv s own loc t (l₁ ++ a :: l₂) := hl ▸ h.thread t
  have hmem : a ∈ l₁ ++ a :: l₂ := mem_append_right _ mem_cons_self
  have hsub : ∀ b ∈ l₁ ++ l₂, b ∈ l₁ ++ a :: l₂ := fun b hb =>
    (mem_append.mp hb).elim (mem_append_left _) fun hb =>
      mem_append_right _ (mem_cons_of_mem _ hb)
  obtain ⟨hholds, hlisted⟩ := hinv.listed a hmem
  have hn : (s.si a).signo < 32 := hinv.lt_of_loc hlisted
  have hunhandled : loc t (s.si a).signo ≠ some .handled := by
    rw [hlisted]
    nofun
  have hpos : ∀ b ∈ l₁, 0 < b := fun b hb =>
    (h.block b (hinv.listed b (mem_append_left _ hb)).1.block).1
  have hdistinct := hinv.distinct
  rw [map_append, map_cons] at hdistinct
  obtain ⟨hfresh, hrest⟩ := nodup_cons.mp (nodup_middle.mp hdistinct)
  rw [← map_append] at hfresh hrest
  have hne : ∀ b t' m, own b = some (t', m) → (t', m) ≠ (t, (s.si a).signo) → b ≠ a := fun _ _ _ => hholds.ne
  refine h.move ⟨rfl, fun t' ht' => update_of_ne ht' _ _, ?_, ?_⟩ (by rw [hlisted]; nofun) (by nofun) rfl ?_
    (h.freed hholds).1 (h.freed hholds).2
  · exact fun b t' m hb hpair => ⟨update_of_ne (hne b t' m hb hpair) _ _, rfl⟩
  · -- The only link that is written is that of the predecessor, which is on the list.
    intro b t' m hb hpair hunlisted
    show (if p ≠ 0 then update s.next p (s.next a) else s.next) b = s.next b
    split_ifs with hzero
    · refine update_of_ne ?_ _ _
      rintro rfl
      have hpmem : b ∈ l₁ := by
        rcases eq_nil_or_concat l₁ with rfl | ⟨l, c, hl⟩
        · exact absurd hp hzero
        · rw [concat_eq_append] at hl
          rw [hp, hl, getLastD_concat]
          exact mem_append_right _ (mem_singleton_self c)
      obtain ⟨hholds', hlisted'⟩ := hinv.listed b (mem_append_left _ hpmem)
      rw [hholds'.own] at hb
      cases hb
      exact hunlisted rfl hlisted'
    · rfl
  · refine hinv.relocate (update_self _ _ _) (hinv.head_take hfirst hp hpos) (hinv.linked_take hp hpos)
      (fun b m hm hb => ⟨hb.block, ?_, hb.si⟩) (fun b hb => .inl ⟨hsub b hb, ?_⟩) (fun b hb hsigno => ?_) (by nofun) hrest
      (fun f hf => .inl ⟨hf, hinv.frame_ne hunhandled hf⟩) (fun f hf _ => hf) (by nofun) hinv.frames_distinct
      hinv.vectors fun m => ThreadInv.pending_clear hn
    · have hpair : (t, m) ≠ (t, (s.si a).signo) := fun heq => hm (Prod.mk.inj heq).2
      exact (update_of_ne (hne b t m hb.own hpair) _ _).trans hb.own
    · exact fun heq => hfresh (mem_map.mpr ⟨b, hb, heq⟩)
    · rcases mem_append.mp hb with hb | hb
      · exact mem_append_left _ hb
      · rcases mem_cons.mp hb with rfl | hb
        · exact absurd rfl hsigno
        · exact mem_append_right _ hb

theorem finish {f : Frame} {frames : List Frame} (h : SigInv s L own loc) (hf : (s.thread t).frames = f :: frames) :
    SigInv (s.finished t f frames) L (update own f.node none) (setLoc loc t f.signo none) := by
  have hinv := h.thread t
  obtain ⟨hholds, hhandled⟩ := hinv.framed f (hf ▸ mem_cons_self)
  have hn : f.signo < 32 := hinv.lt_of_loc hhandled
  have hunlisted : loc t f.signo ≠ some .listed := by
    rw [hhandled]
    nofun
  have hdistinct := hinv.frames_distinct
  rw [hf, map_cons, nodup_cons] at hdistinct
  have hne : ∀ b t' m, own b = some (t', m) → (t', m) ≠ (t, f.signo) → b ≠ f.node := fun _ _ _ => hholds.ne
  rw [← update_eq_self t L]
  refine h.move ⟨rfl, fun t' ht' => update_of_ne ht' _ _, ?_, fun _ _ _ _ _ _ => rfl⟩
    (by rw [hhandled]; nofun) (by nofun) rfl ?_ (h.freed hholds).1 (h.freed hholds).2
  · exact fun b t' m hb hpair => ⟨update_of_ne (hne b t' m hb hpair) _ _, rfl⟩
  · refine hinv.relocate (update_self _ _ _) hinv.head hinv.linked (fun b m hm hb => ⟨hb.block, ?_, hb.si⟩)
      (fun b hb => .inl ⟨hb, hinv.signo_ne hunlisted hb⟩) (fun b hb _ => hb) (by nofun) hinv.distinct
      (fun g hg => .inl ⟨?_, ?_⟩) (fun g hg hsigno => ?_) (by nofun) hdistinct.2 (fun _ => ?_)
      fun m => ThreadInv.pending_clear hn
    · have hpair : (t, m) ≠ (t, f.signo) := fun heq => hm (Prod.mk.inj heq).2
      exact (update_of_ne (hne b t m hb.own hpair) _ _).trans hb.own
    · rw [hf]
      exact mem_cons_of_mem _ hg
    · exact fun heq => hdistinct.1 (heq ▸ mem_map_of_mem hg)
    · rw [hf] at hg
      rcases mem_cons.mp hg with rfl | hmem
      · exact absurd rfl hsigno
      · exact hmem
    · exact hinv.vectors (by rw [hf]; exact cons_ne_nil _ _)

theorem pop {vectors : ℕ → Handler H} (h : SigInv s L own loc) (hl : L t = a :: l)
    (hvectors : (s.thread t).vectors = some vectors) :
    SigInv (s.popped t a vectors) (update L t l) own (setLoc loc t (s.si a).signo (some .handled)) := by
  have hinv : ThreadInv s own loc t (a :: l) := hl ▸ h.thread t
  have hchain := hinv.chain h.block
  obtain ⟨hholds, hlisted⟩ := hinv.listed a mem_cons_self
  obtain ⟨hfresh, hdistinct⟩ := nodup_cons.mp hinv.distinct
  have hunhandled : loc t (s.si a).signo ≠ some .handled := by
    rw [hlisted]
    nofun
  have hbit : (s.thread t).pending.getLsbD (s.si a).signo = true := (hinv.pending _).mpr (by rw [hlisted]; rfl)
  refine h.move ⟨rfl, fun t' ht' => update_of_ne ht' _ _, fun _ _ _ _ _ => ⟨rfl, rfl⟩,
    fun _ _ _ _ _ _ => rfl⟩ (by rw [hlisted]; nofun) (by nofun) rfl ?_ h.free h.pool_nodup
  refine hinv.relocate (update_self _ _ _) hchain.next_node hchain.tail.linked
    (fun b m _ hb => ⟨hb.block, hb.own, hb.si⟩) (fun b hb => .inl ⟨mem_cons_of_mem _ hb, ?_⟩) (fun b hb hne => ?_)
    (by nofun) hdistinct (fun f hf => ?_) (fun f hf _ => mem_cons_of_mem _ hf)
    (fun _ => ⟨_, mem_cons_self, rfl⟩) ?_ (fun _ => ?_) fun m => ThreadInv.pending_same hbit
  · exact fun heq => hfresh (mem_map.mpr ⟨b, hb, heq⟩)
  · rcases mem_cons.mp hb with rfl | hmem
    · exact absurd rfl hne
    · exact hmem
  · rcases mem_cons.mp hf with rfl | hmem
    · exact .inr ⟨⟨hholds.block, hholds.own, hholds.si⟩, rfl, rfl⟩
    · exact .inl ⟨hmem, hinv.frame_ne hunhandled hmem⟩
  · rw [map_cons, nodup_cons]
    refine ⟨fun hmem => ?_, hinv.frames_distinct⟩
    obtain ⟨f, hf, hsigno⟩ := mem_map.mp hmem
    exact hinv.frame_ne hunhandled hf hsigno
  · exact hvectors ▸ rfl

/-- A step that changes neither nodes nor pending signals. -/
theorem quiet (h : SigInv s L own loc) (hpending : th.pending = (s.thread t).pending)
    (hlist : th.siList = (s.thread t).siList) (hframes : th.frames = (s.thread t).frames)
    (hvectors : (s.thread t).vectors.isSome = true → th.vectors.isSome = true) :
    SigInv (s.setThread t th) L own loc := by
  refine ⟨fun t' => ?_, fun k x hx => ?_, h.of_sending, h.free, h.pool_nodup, h.block⟩
  · by_cases ht : t' = t
    · subst ht
      have hinv := h.thread t'
      have hth : (s.setThread t' th).thread t' = th := update_self _ _ _
      refine ⟨?_, hinv.linked, fun a ha => ?_, hinv.distinct, hinv.of_listed, ?_, ?_, ?_, ?_, ?_⟩
      · rw [hth, hlist]
        exact hinv.head
      · obtain ⟨ha, hloc⟩ := hinv.listed a ha
        exact ⟨⟨ha.block, ha.own, ha.si⟩, hloc⟩
      · rw [hth, hframes]
        intro f hf
        obtain ⟨ha, hloc⟩ := hinv.framed f hf
        exact ⟨⟨ha.block, ha.own, ha.si⟩, hloc⟩
      · rw [hth, hframes]
        exact hinv.frames_distinct
      · rw [hth, hframes]
        exact hinv.of_handled
      · rw [hth, hframes]
        exact fun hne => hvectors (hinv.vectors hne)
      · rw [hth, hpending]
        exact hinv.pending
    · exact (h.thread t').congr rfl (update_of_ne ht _ _) rfl fun _ _ _ => ⟨rfl, rfl, rfl⟩
  · have hsend := h.send k x hx
    exact ⟨hsend.loc, hsend.stage.imp_right fun ⟨a, hstage, ha, hnext⟩ =>
      ⟨a, hstage, ⟨ha.block, ha.own, ha.si⟩, hnext⟩⟩

variable [DecidableEq σ]

/-- The bit of a signal is set. -/
theorem killEnter {sig : ℤ} (h : SigInv s L own loc) (hk : s.sending k = none) (hvalid : sigValid sig = true)
    (hclear : (s.thread t).pending &&& sigMask sig.toNat = 0) :
    SigInv (s.killEnter k t sig) L own (setLoc loc t sig.toNat (some (.sending k))) := by
  have hn := lt_of_sigValid hvalid
  have hinv := h.thread t
  have hnone : loc t sig.toNat = none := hinv.loc_eq_none hclear hn
  have hs' : s.killEnter k t sig =
      { s.setThread t { s.thread t with pending := (s.thread t).pending ||| sigMask sig.toNat } with
        sending := update s.sending k (some ⟨t, sig.toNat, .alloc⟩) } := by
    unfold Signals.killEnter
    rw [if_pos hvalid, if_neg (not_not.mpr hclear)]
  rw [hs', ← update_eq_self t L]
  refine h.move_send ⟨rfl, fun t' ht' => update_of_ne ht' _ _, fun _ _ _ _ _ => ⟨rfl, rfl⟩,
    fun _ _ _ _ _ _ => rfl⟩ ?_ ?_ rfl ?_ ?_ ?_ h.free h.pool_nodup
  · intro x hx
    rw [hk] at hx
    cases hx
  · intro k' hk'
    rw [hnone] at hk'
    cases hk'
  · rintro x ⟨⟩
    exact ⟨setLoc_self, .inl rfl⟩
  · rintro k' ⟨⟩
    exact ⟨rfl, _, rfl, rfl, rfl⟩
  · refine hinv.relocate (update_self _ _ _) hinv.head hinv.linked
      (fun b m _ hb => ⟨hb.block, hb.own, hb.si⟩) (fun b hb => .inl ⟨hb, ?_⟩) (fun b hb _ => hb) (by nofun)
      hinv.distinct (fun f hf => .inl ⟨hf, ?_⟩) (fun f hf _ => hf) (by nofun) hinv.frames_distinct hinv.vectors
      fun m => ThreadInv.pending_set hn
    · exact hinv.signo_ne (by rw [hnone]; nofun) hb
    · exact hinv.frame_ne (by rw [hnone]; nofun) hf

/-- The node is allocated. -/
theorem killAlloc {pool : List ℕ} (h : SigInv s L own loc) (hx : s.sending k = some x) (hpool : s.pool = a :: pool) :
    SigInv (s.killAlloc k x) L (update own a (some (x.tid, x.sig))) loc := by
  have hsend := h.send k x hx
  have hfree := h.free a (hpool ▸ mem_cons_self)
  have hnodup : (a :: pool).Nodup := hpool ▸ h.pool_nodup
  have hs' : s.killAlloc k x =
      { s with
        si := update s.si a (killInfo x.sig)
        next := update s.next a 0
        pool := pool
        sending := update s.sending k (some { x with stage := .append a }) } := by
    unfold Signals.killAlloc
    rw [hpool]
  -- A node that belongs to a signal is not the free one.
  have hne : ∀ b t m, own b = some (t, m) → b ≠ a := by
    rintro b t m hb rfl
    rw [hfree.2] at hb
    cases hb
  rw [hs', ← update_eq_self x.tid L, ← setLoc_same hsend.loc]
  refine h.move_send ⟨rfl, fun _ _ => rfl, ?_, ?_⟩ ?_ ?_ rfl ?_ ?_ ?_ ?_ hnodup.of_cons
  · intro b t m hb _
    exact ⟨update_of_ne (hne b t m hb) _ _, update_of_ne (hne b t m hb) _ _⟩
  · intro b t m hb _ _
    exact update_of_ne (hne b t m hb) _ _
  · intro y hy
    rw [hx] at hy
    cases hy
    exact ⟨rfl, rfl⟩
  · intro k' hk'
    rw [hsend.loc] at hk'
    cases hk'
    rfl
  · rintro y ⟨⟩
    refine ⟨setLoc_self, .inr ⟨a, rfl, ⟨hfree.1, update_self _ _ _, update_self _ _ _⟩, ?_⟩⟩
    exact update_self _ _ _
  · rintro k' ⟨⟩
    exact ⟨rfl, _, rfl, rfl, rfl⟩
  · rw [setLoc_same hsend.loc]
    refine (h.thread x.tid).congr rfl rfl rfl fun b m hb => ⟨?_, ?_, ?_⟩
    · exact update_of_ne (hne b _ m hb) _ _
    · exact update_of_ne (hne b _ m hb) _ _
    · exact update_of_ne (hne b _ m hb) _ _
  · intro b hb
    have hba : b ≠ a := fun heq => (nodup_cons.mp hnodup).1 (heq ▸ hb)
    obtain ⟨hblock, hown⟩ := h.free b (hpool ▸ mem_cons_of_mem _ hb)
    exact ⟨hblock, (update_of_ne hba _ _).trans hown⟩

/-- Whatever the section writes, it is enough that it links the node behind the list. -/
theorem appended (next : ℕ → ℕ) (h : SigInv s L own loc) (hx : s.sending k = some x)
    (hstage : x.stage = .append a) (hlinked : LinkedBy next member 0 (L x.tid ++ [a]))
    (hkept : ∀ b ∉ L x.tid, next b = s.next b) :
    SigInv { s.setThread x.tid { s.thread x.tid with siList := (L x.tid ++ [a]).headD 0 } with
        next := next, sending := update s.sending k none }
      (update L x.tid (L x.tid ++ [a])) own (setLoc loc x.tid x.sig (some .listed)) := by
  have hsend := h.send k x hx
  have hinv := h.thread x.tid
  have hholds := (h.holds_of_append hx hstage).1
  have hunlisted := h.not_listed_of_sending hx
  have hunhandled : loc x.tid x.sig ≠ some .handled := by
    rw [hsend.loc]
    nofun
  have hbit : (s.thread x.tid).pending.getLsbD x.sig = true := (hinv.pending _).mpr (by rw [hsend.loc]; rfl)
  refine h.move_send ⟨rfl, fun t' ht' => update_of_ne ht' _ _, fun _ _ _ _ _ => ⟨rfl, rfl⟩, ?_⟩
    ?_ ?_ rfl (by nofun) (by nofun) ?_ h.free h.pool_nodup
  · intro b t m hb _ hunlisted
    refine hkept b fun hmem => ?_
    have hlisted := hinv.listed b hmem
    rw [hlisted.1.own] at hb
    cases hb
    exact hunlisted rfl hlisted.2
  · intro y hy
    rw [hx] at hy
    cases hy
    exact ⟨rfl, rfl⟩
  · intro k' hk'
    rw [hsend.loc] at hk'
    cases hk'
    rfl
  · refine hinv.relocate (update_self _ _ _) rfl hlinked (fun b m _ hb => ⟨hb.block, hb.own, hb.si⟩)
      (fun b hb => ?_) (fun b hb _ => mem_append_left _ hb)
      (fun _ => ⟨a, mem_append_right _ (mem_singleton_self a), hholds.block, hholds.own, hholds.si⟩)
      (h.appended_distinct hx hholds.signo)
      (fun f hf => .inl ⟨hf, hinv.frame_ne hunhandled hf⟩) (fun f hf _ => hf) (by nofun) hinv.frames_distinct
      hinv.vectors fun m => ThreadInv.pending_same hbit
    rcases mem_append.mp hb with hold | hnew
    · exact .inl ⟨hold, hinv.signo_ne hunlisted hold⟩
    · rw [mem_singleton.mp hnew]
      exact .inr ⟨⟨hholds.block, hholds.own, hholds.si⟩, rfl⟩

/-- The node is appended to the list. -/
theorem killAppend (h : SigInv s L own loc) (hx : s.sending k = some x) (hstage : x.stage = .append a) :
    ∃ s', s.killAppend k x a = .ok s' ∧ s'.si = s.si ∧
      SigInv s' (update L x.tid (L x.tid ++ [a])) own (setLoc loc x.tid x.sig (some .listed)) := by
  have hinv := h.thread x.tid
  obtain ⟨hholds, hnext⟩ := h.holds_of_append hx hstage
  have hnot : a ∉ L x.tid := fun hmem => hinv.signo_ne (h.not_listed_of_sending hx) hmem hholds.signo
  unfold Signals.killAppend
  rcases eq_nil_or_concat (L x.tid) with hnil | ⟨l, b, hl⟩
  · -- The node becomes the head of the list.
    have hhead : (s.thread x.tid).siList = 0 := by rw [hinv.head, hnil]; rfl
    have hinv' := h.appended s.next hx hstage (by rw [hnil]; exact ⟨hnext, trivial⟩) fun _ _ => rfl
    refine ⟨_, if_pos hhead, rfl, ?_⟩
    rw [hnil] at hinv' ⊢
    exact hinv'
  · -- The node is linked behind the last one, and the head stays as it is.
    rw [concat_eq_append] at hl
    obtain ⟨hne, hlast, hentry⟩ := h.last_of_list hl
    have hb : b ∉ l := fun hmem =>
      (nodup_append.mp (hl ▸ hinv.nodup)).2.2 b hmem b (mem_singleton_self b) rfl
    have hinv' := h.appended (update (update s.next b (member a)) a 0) hx hstage ?_ ?_
    · have hsame : (L x.tid ++ [a]).headD 0 = (s.thread x.tid).siList := by
        rw [hinv.head, hl]
        cases l <;> rfl
      rw [hsame] at hinv'
      refine ⟨_, ?_, ?_, hinv'⟩
      swap
      · rfl
      rw [if_neg hne, hlast]
      unfold Signals.setThread
      rw [update_eq_self]
      show Except.ok _ = Except.ok _
      rw [hentry]
    · rw [hl]
      exact (hl ▸ hinv.chain h.block : Chain s (l ++ [b])).linked.append_last hb (hl ▸ hnot)
    · intro c hc
      by_cases hca : c = a
      · rw [hca, update_self, hnext]
      · have hcb : c ≠ b := by
          rintro rfl
          exact hc (hl ▸ mem_append_right _ (mem_singleton_self c))
        rw [update_of_ne hca, update_of_ne hcb]

end SigInv

end RtThread.Signal
