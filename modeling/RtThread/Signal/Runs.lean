import RtThread.Signal.Lists

/-!
# The lists of pending signals in runs

The steps that are not orderly are those that the functions do not get right: a signal is sent that is
pending already, where `rt_thread_kill` follows `si_list` as if it pointed to a member `list`; the pool
has no node, and the bit stays without one; `rt_signal_wait` takes the first of several nodes, and
stores the pointer to a member in `si_list`; it finds no node, and follows the null pointer at the end
of the list; and a thread without handlers handles a signal.
-/

namespace RtThread.Signal

open Lib Function Option

variable {τ σ H : Type}

/-! ## Orderly steps -/

variable (s : Signals τ σ H)

/-- The node is one of a signal in the set. -/
def Signals.inSet (set : Sigset) (a : ℕ) : Prop := sigMask (s.si a).signo &&& set ≠ 0

instance (s : Signals τ σ H) (set : Sigset) (a : ℕ) : Decidable (s.inSet set a) :=
  inferInstanceAs (Decidable (sigMask (s.si a).signo &&& set ≠ 0))

/-- The list of the thread has a signal of the set, and not as the first of several. -/
def Signals.Takes (t : τ) (set : Sigset) : Prop :=
  (∃ a ∈ s.nodes t, s.inSet set a) ∧ ∀ a ∈ (s.nodes t).head?, s.inSet set a → (s.nodes t).length = 1

instance (s : Signals τ σ H) (t : τ) (set : Sigset) : Decidable (s.Takes t set) := by
  unfold Signals.Takes; infer_instance

/-- A signal is sent only if it is not pending, and there is a node for it; `rt_signal_wait` takes a
node that is there, and not the first of several; and a thread that handles a signal has handlers. -/
def Act.Orderly : Act τ σ H → Prop
  | .kill _ tid sig => sigValid sig = true → (s.thread tid).pending &&& sigMask sig.toNat = 0
  | .killStep k => ∀ x ∈ s.sending k, x.stage = .alloc → s.pool ≠ []
  | .wait t set _ => set ≠ 0 → (s.thread t).pending &&& set ≠ 0 → s.Takes t set
  | .resume t => ∀ set ∈ (s.thread t).waiting, (s.thread t).error ≠ -RT_ETIMEOUT → s.Takes t set
  | .handle t => (s.thread t).waiting = none → (s.thread t).pending &&& (s.thread t).mask ≠ 0 →
    (s.thread t).siList ≠ 0 → (s.thread t).vectors.isSome = true
  | .install _ _ _ | .mask _ _ | .unmask _ _ | .timeout _ | .handled _ => True

instance (s : Signals τ σ H) (a : Act τ σ H) : Decidable (a.Orderly s) := by
  cases a <;> unfold Act.Orderly <;> infer_instance

/-- The signal that a round of the loop of `rt_thread_handle_sig` takes off the list, with the word of
pending signals. -/
def Signals.handles (t : τ) (pending : Sigset) : Option ℕ :=
  if pending &&& (s.thread t).mask = 0 then none else (s.nodes t).head?.map fun a => (s.si a).signo

/-! ## Steps -/

/-- `rt_signal_wait` takes the first node of the set, returns its information, and leaves the other
nodes as they are. -/
def TakesFirst [DecidableEq τ] (s : Signals τ σ H) (t : τ) (set : Sigset)
    (r : Except Fault (Signals τ σ H × Option Siginfo)) : Prop :=
  ∃ l₁ a l₂ s', s.nodes t = l₁ ++ a :: l₂ ∧ (∀ b ∈ l₁, ¬s.inSet set b) ∧ s.inSet set a ∧
    r = .ok (s', some (s.si a)) ∧ s'.nodes = update s.nodes t (l₁ ++ l₂) ∧ s'.si = s.si

namespace SigInv

variable {s : Signals τ σ H} {L : τ → List ℕ} {own : ℕ → Option (τ × ℕ)} {loc : τ → ℕ → Option (Loc σ)} {t : τ}
  {set : Sigset}

theorem nodes_eq (h : SigInv s L own loc) (t : τ) : s.nodes t = L t := (h.thread t).nodes_eq h.block

theorem nodes_eq_fun (h : SigInv s L own loc) : s.nodes = L := funext h.nodes_eq

theorem takes_split (h : SigInv s L own loc) (htakes : s.Takes t set) :
    ∃ l₁ a l₂, L t = l₁ ++ a :: l₂ ∧ (∀ b ∈ l₁, ¬s.inSet set b) ∧ s.inSet set a ∧ (l₁ = [] → l₂ = []) := by
  obtain ⟨⟨c, hc, hset⟩, hfirst⟩ := htakes
  rw [h.nodes_eq] at hc hfirst
  have hfind : ((L t).find? fun b => decide (s.inSet set b)).isSome = true :=
    List.find?_isSome.mpr ⟨c, hc, decide_eq_true hset⟩
  obtain ⟨a, ha⟩ := isSome_iff_exists.mp hfind
  obtain ⟨hin, l₁, l₂, hl, hbefore⟩ := List.find?_eq_some_iff_append.mp ha
  refine ⟨l₁, a, l₂, hl, fun b hb => ?_, of_decide_eq_true hin, ?_⟩
  · simpa using hbefore b hb
  · rintro rfl
    have hone := hfirst a (by rw [hl]; rfl) (of_decide_eq_true hin)
    rw [hl] at hone
    exact List.length_eq_zero_iff.mp (Nat.succ.inj hone)

/-- Every signal that has a place keeps one, and its node if that is on the list, but for those of
`gone`. -/
def Kept (s s' : Signals τ σ H) (L L' : τ → List ℕ) (loc loc' : τ → ℕ → Option (Loc σ)) (gone : τ → ℕ → Prop) : Prop :=
  ∀ t sig, ¬gone t sig → (loc t sig).isSome = true → (loc' t sig).isSome = true ∧
    ∀ a ∈ L t, (s.si a).signo = sig → a ∈ L' t ∧ s'.si a = s.si a

variable {s' : Signals τ σ H}

theorem Kept.refl {gone : τ → ℕ → Prop} (hsi : s'.si = s.si) : Kept s s' L L loc loc gone :=
  fun _ _ _ hloc => ⟨hloc, fun a ha _ => ⟨ha, by rw [hsi]⟩⟩

theorem Kept.mono {L' : τ → List ℕ} {loc' : τ → ℕ → Option (Loc σ)} {gone gone' : τ → ℕ → Prop}
    (hgone : ∀ t sig, gone t sig → gone' t sig) (h : Kept s s' L L' loc loc' gone) : Kept s s' L L' loc loc' gone' :=
  fun t sig hnot => h t sig (mt (hgone t sig) hnot)

theorem Kept.trans {s'' : Signals τ σ H} {L' L'' : τ → List ℕ} {loc' loc'' : τ → ℕ → Option (Loc σ)}
    {gone gone' : τ → ℕ → Prop} (h : Kept s s' L L' loc loc' gone) (h' : Kept s' s'' L' L'' loc' loc'' gone') :
    Kept s s'' L L'' loc loc'' fun t sig => gone t sig ∨ gone' t sig := by
  intro t sig hnot hloc
  rw [not_or] at hnot
  obtain ⟨hloc', hnode⟩ := h t sig hnot.1 hloc
  obtain ⟨hloc'', hnode'⟩ := h' t sig hnot.2 hloc'
  refine ⟨hloc'', fun a ha hsigno => ?_⟩
  obtain ⟨ha', hsi⟩ := hnode a ha hsigno
  obtain ⟨ha'', hsi'⟩ := hnode' a ha' (by rw [hsi, hsigno])
  exact ⟨ha'', hsi'.trans hsi⟩

variable [DecidableEq τ]

theorem isSome_setLoc {n t' sig} {u : Loc σ} (hloc : (loc t' sig).isSome = true) :
    (setLoc loc t n (some u) t' sig).isSome = true := by
  by_cases heq : (t', sig) = (t, n)
  · cases heq
    rw [setLoc_self]
    rfl
  · rw [setLoc_of_ne heq]
    exact hloc

theorem Kept.clear {n : ℕ} (hsi : s'.si = s.si) :
    Kept s s' L L loc (setLoc loc t n none) fun t' sig => t' = t ∧ sig = n := by
  intro t' sig hgone hloc
  have hne : (t', sig) ≠ (t, n) := fun heq => hgone (Prod.mk.inj heq)
  exact ⟨(setLoc_of_ne hne).symm ▸ hloc, fun a ha _ => ⟨ha, by rw [hsi]⟩⟩

/-- `rt_signal_wait` takes the first node of its set. -/
theorem waitTake (h : SigInv s L own loc) (htakes : s.Takes t set) :
    ∃ s' L' own' loc' l₁ a l₂, SigInv s' L' own' loc' ∧
      Kept s s' L L' loc loc' (fun t' sig => t' = t ∧ sigMask sig &&& set ≠ 0) ∧
      L t = l₁ ++ a :: l₂ ∧ (∀ b ∈ l₁, ¬s.inSet set b) ∧ s.inSet set a ∧
      s.waitTake t set = .ok (s', some (s.si a)) ∧ L' = update L t (l₁ ++ l₂) ∧ s'.si = s.si := by
  obtain ⟨l₁, a, l₂, hl, hbefore, hin, hfirst⟩ := h.takes_split htakes
  have hinv : ThreadInv s own loc t (l₁ ++ a :: l₂) := hl ▸ h.thread t
  have hchain := hinv.chain h.block
  have hlength := hchain.length_le hinv.nodup
  rw [List.length_append, List.length_cons] at hlength
  have hloop : s.waitLoop set (s.blocks.length + 1) 0 (s.thread t).siList = .ok (some (l₁.getLastD 0, a)) := by
    rw [hinv.head]
    exact hchain.waitLoop_eq (fun b hb => not_not.mp (hbefore b hb)) hin (by omega)
  refine ⟨_, _, _, _, l₁, a, l₂, h.take hl hfirst rfl rfl, ?_, hl, hbefore, hin, ?_, rfl, rfl⟩
  · intro t' sig hgone hloc
    have hne : (t', sig) ≠ (t, (s.si a).signo) := by
      intro heq
      rw [Prod.mk.injEq] at heq
      exact hgone ⟨heq.1, heq.2 ▸ hin⟩
    refine ⟨(setLoc_of_ne hne).symm ▸ hloc, fun b hb hsigno => ⟨?_, rfl⟩⟩
    by_cases ht : t' = t
    · subst ht
      rw [update_self]
      rw [hl] at hb
      rcases List.mem_append.mp hb with hb | hb
      · exact List.mem_append_left _ hb
      · rcases List.mem_cons.mp hb with rfl | hb
        · exact absurd (by rw [hsigno]) hne
        · exact List.mem_append_right _ hb
    · rw [update_of_ne ht]
      exact hb
  · unfold Signals.waitTake
    dsimp only
    rw [hloop]
    show Except.ok _ = Except.ok _
    by_cases hp : l₁.getLastD 0 ≠ 0
    · simp only [if_pos hp]
    · simp only [if_neg hp]

theorem takesFirst (h : SigInv s L own loc) (htakes : s.Takes t set) :
    TakesFirst s t set (s.waitTake t set) := by
  obtain ⟨s', L', own', loc', l₁, a, l₂, hinv, -, hl, hbefore, hin, hrun, hl', hsi⟩ := h.waitTake htakes
  refine ⟨l₁, a, l₂, s', (h.nodes_eq t).trans hl, hbefore, hin, hrun, ?_, hsi⟩
  rw [hinv.nodes_eq_fun, h.nodes_eq_fun, hl']

theorem handleLoop_cases (h : SigInv s L own loc)
    (hvectors : (s.thread t).pending &&& (s.thread t).mask ≠ 0 → (s.thread t).siList ≠ 0 →
      (s.thread t).vectors.isSome = true) : s.handleLoop t = .ok s ∨ ∃ a l vectors, L t = a :: l ∧
      (s.thread t).pending &&& (s.thread t).mask ≠ 0 ∧ (s.thread t).vectors = some vectors ∧
      s.handleLoop t = .ok (s.popped t a vectors) := by
  by_cases hsome : (s.thread t).pending &&& (s.thread t).mask = 0
  · exact .inl (if_pos hsome)
  · cases hl : L t with
    | nil =>
      have hnull : (s.thread t).siList = 0 := by
        rw [(h.thread t).head, hl]
        rfl
      refine .inl ?_
      unfold Signals.handleLoop
      rw [if_neg hsome, if_pos hnull]
    | cons a l =>
      have hinv : ThreadInv s own loc t (a :: l) := hl ▸ h.thread t
      have hhead : (s.thread t).siList = a := hinv.head
      have hne : (s.thread t).siList ≠ 0 := hhead ▸ (hinv.chain h.block).head_ne
      obtain ⟨vectors, hsome'⟩ := isSome_iff_exists.mp (hvectors hsome hne)
      exact .inr ⟨a, l, vectors, rfl, hsome, hsome', hinv.handleLoop_eq h.block hsome hsome'⟩

theorem kept_pop {a : ℕ} {l : List ℕ} {vectors : ℕ → Handler H} (hl : L t = a :: l) :
    Kept s (s.popped t a vectors) L (update L t l) loc
      (setLoc loc t (s.si a).signo (some .handled)) fun t' sig => t' = t ∧ sig = (s.si a).signo := by
  intro t' sig hgone hloc
  have hne : (t', sig) ≠ (t, (s.si a).signo) := fun heq => hgone (Prod.mk.inj heq)
  refine ⟨(setLoc_of_ne hne).symm ▸ hloc, fun b hb hsigno => ⟨?_, rfl⟩⟩
  by_cases ht : t' = t
  · subst ht
    rw [update_self]
    rw [hl] at hb
    rcases List.mem_cons.mp hb with rfl | hb
    · exact absurd (by rw [hsigno]) hne
    · exact hb
  · rw [update_of_ne ht]
    exact hb

/-- The step returns, it keeps the invariant, and it keeps the signals that are not of `gone`. -/
def Returns (s : Signals τ σ H) (L : τ → List ℕ) (loc : τ → ℕ → Option (Loc σ)) (gone : τ → ℕ → Prop)
    (r : Except Fault (Signals τ σ H)) : Prop :=
  ∃ s' L' own' loc', r = .ok s' ∧ SigInv s' L' own' loc' ∧ Kept s s' L L' loc loc' gone

theorem handleLoop (h : SigInv s L own loc)
    (hvectors : (s.thread t).pending &&& (s.thread t).mask ≠ 0 → (s.thread t).siList ≠ 0 →
      (s.thread t).vectors.isSome = true) :
    Returns s L loc (fun t' sig => t' = t ∧ s.handles t (s.thread t).pending = some sig)
      (s.handleLoop t) := by
  rcases h.handleLoop_cases hvectors with hsame | ⟨a, l, vectors, hl, hsome, hvectors, hpop⟩
  · exact ⟨s, L, own, loc, hsame, h, .refl rfl⟩
  · refine ⟨_, _, _, _, hpop, h.pop hl hvectors, (kept_pop hl).mono fun t' sig hgone => ?_⟩
    refine ⟨hgone.1, ?_⟩
    unfold Signals.handles
    rw [if_neg hsome, h.nodes_eq, hl, hgone.2]
    rfl

theorem handled {f : Frame} {frames : List Frame} (h : SigInv s L own loc)
    (hf : (s.thread t).frames = f :: frames) :
    Returns s L loc (fun t' sig => t' = t ∧ (sig = f.signo ∨
      s.handles t ((s.thread t).pending &&& ~~~sigMask f.signo) = some sig)) (s.handled t f frames) := by
  have hfinish := h.finish hf
  have hvectors : (s.thread t).vectors.isSome = true := (h.thread t).vectors (by rw [hf]; nofun)
  obtain ⟨s', L', own', loc', hrun, hinv, hkept⟩ := hfinish.handleLoop (t := t) fun _ _ => by
    rw [s.finished_thread]
    exact hvectors
  refine ⟨s', L', own', loc', hrun, hinv, Kept.mono ?_ ((Kept.clear (n := f.signo) ?_).trans hkept)⟩
  · rintro t' sig (⟨rfl, rfl⟩ | ⟨rfl, hhandles⟩)
    · exact ⟨rfl, Or.inl rfl⟩
    · refine ⟨rfl, Or.inr ?_⟩
      rw [← hhandles]
      unfold Signals.handles
      rw [hfinish.nodes_eq, h.nodes_eq, s.finished_thread]
      rfl
  · rfl

theorem killStep [DecidableEq σ] {k : σ} {x : Send τ} (h : SigInv s L own loc) (hx : s.sending k = some x)
    (hpool : x.stage = .alloc → s.pool ≠ []) : Returns s L loc (fun _ _ => False) (s.killStep k x) := by
  unfold Signals.killStep
  rcases (h.send k x hx).stage with hstage | ⟨a, hstage, -, -⟩
  · rw [hstage]
    obtain ⟨a, pool, hfree⟩ := List.exists_cons_of_ne_nil (hpool hstage)
    refine ⟨_, _, _, _, rfl, h.killAlloc hx hfree, fun t sig _ hloc => ⟨hloc, fun b hb _ => ⟨hb, ?_⟩⟩⟩
    have hown := ((h.thread t).listed b hb).1.own
    have hba : b ≠ a := by
      rintro rfl
      rw [(h.free b (hfree ▸ List.mem_cons_self)).2] at hown
      cases hown
    unfold Signals.killAlloc
    rw [hfree]
    exact update_of_ne hba _ _
  · rw [hstage]
    obtain ⟨s', hrun, hsi, hinv⟩ := h.killAppend hx hstage
    refine ⟨s', _, _, _, hrun, hinv, fun t sig _ hloc => ⟨isSome_setLoc hloc, fun b hb _ => ⟨?_, by rw [hsi]⟩⟩⟩
    by_cases ht : t = x.tid
    · subst ht
      rw [update_self]
      exact List.mem_append_left _ hb
    · rw [update_of_ne ht]
      exact hb

theorem waitEnter {ticks : ℤ} (h : SigInv s L own loc)
    (htakes : set ≠ 0 → (s.thread t).pending &&& set ≠ 0 → s.Takes t set) :
    Returns s L loc (fun t' sig => t' = t ∧ sigMask sig &&& set ≠ 0)
      ((s.waitEnter t set ticks).map Prod.fst) := by
  unfold Signals.waitEnter
  by_cases hset : set = 0
  · rw [if_pos hset]
    exact ⟨s, L, own, loc, rfl, h, .refl rfl⟩
  rw [if_neg hset]
  by_cases hpending : (s.thread t).pending &&& set ≠ 0
  · rw [if_pos hpending]
    obtain ⟨s', L', own', loc', -, a, -, hinv, hkept, -, -, -, hrun, -⟩ := h.waitTake (htakes hset hpending)
    exact ⟨s', L', own', loc', by rw [hrun]; rfl, hinv, hkept⟩
  rw [if_neg hpending]
  by_cases hticks : ticks = 0
  · rw [if_pos hticks]
    exact ⟨s, L, own, loc, rfl, h, .refl rfl⟩
  · rw [if_neg hticks]
    exact ⟨_, L, own, loc, rfl, h.quiet rfl rfl rfl id, .refl rfl⟩

theorem takes_congr (h : SigInv s L own loc) {th : Thread H} (h' : SigInv (s.setThread t th) L own loc)
    (htakes : s.Takes t set) : (s.setThread t th).Takes t set := by
  unfold Signals.Takes at htakes ⊢
  rw [h.nodes_eq] at htakes
  rw [h'.nodes_eq]
  exact htakes

theorem waitResume (h : SigInv s L own loc) (htakes : (s.thread t).error ≠ -RT_ETIMEOUT → s.Takes t set) :
    Returns s L loc (fun t' sig => t' = t ∧ sigMask sig &&& set ≠ 0) ((s.waitResume t set).map Prod.fst) := by
  unfold Signals.waitResume
  by_cases herror : (s.thread t).error = -RT_ETIMEOUT
  · rw [if_pos herror]
    exact ⟨_, L, own, loc, rfl, h.quiet rfl rfl rfl id, .refl rfl⟩
  · rw [if_neg herror]
    have hquiet : SigInv (s.setThread t { s.thread t with waiting := none }) L own loc :=
      h.quiet rfl rfl rfl id
    obtain ⟨s', L', own', loc', -, a, -, hinv, hkept, -, -, -, hrun, -⟩ :=
      hquiet.waitTake (h.takes_congr hquiet (htakes herror))
    exact ⟨s', L', own', loc', by rw [hrun]; rfl, hinv, hkept⟩

end SigInv

/-- The signals that a step may take from the list of a thread, or clear. -/
def Act.Removes : Act τ σ H → τ → ℕ → Prop
  | .wait t set _, t', sig => t' = t ∧ sigMask sig &&& set ≠ 0
  | .resume t, t', sig => t' = t ∧ ∃ set ∈ (s.thread t).waiting, sigMask sig &&& set ≠ 0
  | .handle t, t', sig => t' = t ∧ (s.thread t).waiting = none ∧ s.handles t (s.thread t).pending = some sig
  | .handled t, t', sig => t' = t ∧ ∃ f ∈ (s.thread t).frames.head?, sig = f.signo ∨
    s.handles t ((s.thread t).pending &&& ~~~sigMask f.signo) = some sig
  | .kill _ _ _, _, _ | .killStep _, _, _ | .install _ _ _, _, _ | .mask _ _, _, _ | .unmask _ _, _, _
  | .timeout _, _, _ => False

namespace SigInv

variable {s : Signals τ σ H} {L : τ → List ℕ} {own : ℕ → Option (τ × ℕ)} {loc : τ → ℕ → Option (Loc σ)}
  [DecidableEq τ] [DecidableEq σ]

/-- An orderly step does not fail, and keeps the lists. -/
theorem step {a : Act τ σ H} {r : Except Fault (Signals τ σ H)} (h : SigInv s L own loc) (hok : a.Orderly s)
    (hrun : a.run s = some r) : Returns s L loc (a.Removes s) r := by
  cases a with
  | kill k tid sig =>
    obtain ⟨hk, hr⟩ := ite_none_right_eq_some.mp hrun
    cases hr
    by_cases hvalid : sigValid sig = true
    · refine ⟨_, _, _, _, rfl, h.killEnter hk hvalid (hok hvalid), fun t n _ hloc => ?_⟩
      refine ⟨isSome_setLoc hloc, fun b hb _ => ⟨hb, ?_⟩⟩
      unfold Signals.killEnter
      rw [if_pos hvalid, if_neg (not_not.mpr (hok hvalid))]
      rfl
    · exact ⟨s, L, own, loc, congrArg Except.ok (if_neg hvalid), h, Kept.refl rfl⟩
  | killStep k =>
    obtain ⟨x, hx, hr⟩ := map_eq_some_iff.mp hrun
    rw [← hr]
    exact h.killStep hx (hok x hx)
  | install t sig disposition =>
    obtain ⟨-, hr⟩ := ite_none_right_eq_some.mp hrun
    cases hr
    by_cases hvalid : sigValid sig = true
    · exact ⟨_, L, own, loc, congrArg Except.ok (if_pos hvalid), h.quiet rfl rfl rfl fun _ => rfl, Kept.refl rfl⟩
    · exact ⟨s, L, own, loc, congrArg Except.ok (if_neg hvalid), h, Kept.refl rfl⟩
  | mask t sig | unmask t sig | timeout t =>
    obtain ⟨-, hr⟩ := ite_none_right_eq_some.mp hrun
    cases hr
    exact ⟨_, L, own, loc, rfl, h.quiet rfl rfl rfl id, .refl rfl⟩
  | wait t set ticks =>
    obtain ⟨-, hr⟩ := ite_none_right_eq_some.mp hrun
    rw [← some.inj hr]
    exact h.waitEnter hok
  | resume t =>
    obtain ⟨set, hset, hr⟩ := map_eq_some_iff.mp hrun
    rw [← hr]
    obtain ⟨s', L', own', loc', hr', hinv, hkept⟩ := h.waitResume (hok set hset)
    exact ⟨s', L', own', loc', hr', hinv, hkept.mono fun t' sig hgone => ⟨hgone.1, set, hset, hgone.2⟩⟩
  | handle t =>
    have hr : s.handle t = r := some.inj hrun
    rw [← hr]
    unfold Signals.handle
    by_cases hwaiting : (s.thread t).waiting = none
    · rw [if_pos hwaiting]
      obtain ⟨s', L', own', loc', hr', hinv, hkept⟩ := h.handleLoop (hok hwaiting)
      exact ⟨s', L', own', loc', hr', hinv, hkept.mono fun t' sig hgone => ⟨hgone.1, hwaiting, hgone.2⟩⟩
    · rw [if_neg hwaiting]
      exact ⟨s, L, own, loc, rfl, h, .refl rfl⟩
  -- The handler returns, and the frame is taken off the stack.
  | handled t =>
    obtain ⟨f, frames, hf, hr⟩ := Act.handled_run hrun
    obtain ⟨s', L', own', loc', hr', hinv, hkept⟩ := h.handled hf
    refine ⟨s', L', own', loc', hr.trans hr', hinv, hkept.mono fun t' sig hgone => ⟨hgone.1, f, ?_, hgone.2⟩⟩
    rw [hf]
    rfl

end SigInv

/-! ## The lists -/

/-- The list of a thread ends, and it has one node for every pending signal that is neither being sent
nor being handled, with the information that is sent for the signal. -/
structure Signals.ListOk (s : Signals τ σ H) (t : τ) : Prop where
  head : (s.thread t).siList = (s.nodes t).headD 0
  linked : LinkedBy s.next member 0 (s.nodes t)
  node : ∀ a ∈ s.nodes t, a ∈ s.blocks ∧ s.si a = killInfo (s.si a).signo
  distinct : ((s.nodes t).map fun a => (s.si a).signo).Nodup
  pending : ∀ sig, (∃ a ∈ s.nodes t, (s.si a).signo = sig) ↔
    (s.thread t).pending.getLsbD sig = true ∧ (∀ f ∈ (s.thread t).frames, f.signo ≠ sig) ∧
      ∀ k x, s.sending k = some x → ¬(x.tid = t ∧ x.sig = sig)

theorem SigInv.listOk {s : Signals τ σ H} {L : τ → List ℕ} {own : ℕ → Option (τ × ℕ)}
    {loc : τ → ℕ → Option (Loc σ)} (h : SigInv s L own loc) (t : τ) : s.ListOk t := by
  have hinv := h.thread t
  rw [← h.nodes_eq t] at hinv
  refine ⟨hinv.head, hinv.linked, fun a ha => ⟨(hinv.listed a ha).1.block, (hinv.listed a ha).1.si⟩,
    hinv.distinct, fun sig => ⟨?_, ?_⟩⟩
  · rintro ⟨a, ha, rfl⟩
    have hlisted := (hinv.listed a ha).2
    refine ⟨(hinv.pending _).mpr (by rw [hlisted]; rfl), fun f hf => hinv.frame_ne (by rw [hlisted]; nofun) hf, ?_⟩
    rintro k x hx ⟨htid, hsig⟩
    have hsending := (h.send k x hx).loc
    rw [htid, hsig, hlisted] at hsending
    cases hsending
  · rintro ⟨hpending, hframes, hsending⟩
    obtain ⟨u, hu⟩ := isSome_iff_exists.mp ((hinv.pending sig).mp hpending)
    cases u with
    | listed => exact hinv.of_listed sig hu
    | handled =>
      obtain ⟨f, hf, hsigno⟩ := hinv.of_handled sig hu
      exact absurd hsigno (hframes f hf)
    | sending k =>
      obtain ⟨x, hx, htid, hsig⟩ := h.of_sending t sig k hu
      exact absurd ⟨htid, hsig⟩ (hsending k x hx)

variable [DecidableEq τ] [DecidableEq σ]

theorem exists_sigInv {ok : Signals τ σ H → Act τ σ H → Prop} (hok : ∀ s a, ok s a → a.Orderly s)
    {s : Signals τ σ H} (h : Reachable (signalSystem τ σ H) ok s) : ∃ L own loc, SigInv s L own loc := by
  refine h.invariant ?_ ?_
  · exact fun s hs => ⟨_, _, _, Booted.inv hs⟩
  · rintro s a s' ⟨L, own, loc, hinv⟩ hok' hs
    obtain ⟨s'', L', own', loc', hr, hinv', -⟩ := hinv.step (hok s a hok') hs
    cases hr
    exact ⟨L', own', loc', hinv'⟩

/-- In every run of orderly steps, the list of every thread is as it should be, `rt_signal_wait` takes
the first node of its set, also after it has waited, and no step follows a pointer that leads nowhere. -/
theorem signal_lists (s : Signals τ σ H) (h : Reachable (signalSystem τ σ H) (fun s a => a.Orderly s) s) :
    (∀ t, s.ListOk t) ∧
    (∀ t set ticks, set ≠ 0 → (s.thread t).pending &&& set ≠ 0 → (Act.wait t set ticks).Orderly s →
      TakesFirst s t set (s.waitEnter t set ticks)) ∧
    (∀ t set, (s.thread t).waiting = some set → (s.thread t).error ≠ -RT_ETIMEOUT → (Act.resume t).Orderly s →
      TakesFirst s t set (s.waitResume t set)) ∧
    (∀ (a : Act τ σ H) r, a.Orderly s → a.run s = some r → ∃ s', r = .ok s') := by
  obtain ⟨L, own, loc, hinv⟩ := exists_sigInv (fun _ _ hok => hok) h
  refine ⟨hinv.listOk, ?_, ?_, ?_⟩
  · intro t set ticks hset hpending hok
    unfold Signals.waitEnter
    rw [if_neg hset, if_pos hpending]
    exact hinv.takesFirst (hok hset hpending)
  · intro t set hwaiting herror hok
    have hquiet : SigInv (s.setThread t { s.thread t with waiting := none }) L own loc :=
      hinv.quiet rfl rfl rfl id
    have hfirst := hquiet.takesFirst (hinv.takes_congr hquiet (hok set hwaiting herror))
    unfold Signals.waitResume
    dsimp only
    rw [if_neg herror]
    unfold TakesFirst at hfirst ⊢
    rw [hquiet.nodes_eq_fun] at hfirst
    rw [hinv.nodes_eq_fun]
    exact hfirst
  · intro a r hok hrun
    obtain ⟨s', -, -, -, hr, -, -⟩ := hinv.step hok hrun
    exact ⟨s', hr⟩

/-- Two signals are pending for a thread, and it waits for the second one. -/
theorem signal_lists_two : ∃ s : Signals (Fin 1) (Fin 1) Unit,
    Reachable (signalSystem (Fin 1) (Fin 1) Unit) (fun s a => a.Orderly s) s ∧
      s.nodes 0 = [100, 200] ∧ (Act.wait (σ := Fin 1) (H := Unit) 0 (sigMask 2) 0).Orderly s ∧
      TakesFirst s 0 (sigMask 2) (s.waitEnter 0 (sigMask 2) 0) := by
  have hrun : ∃ s : Signals (Fin 1) (Fin 1) Unit,
      Reachable (signalSystem (Fin 1) (Fin 1) Unit) (fun s a => a.Orderly s) s ∧ (s.nodes 0 = [100, 200] ∧
        (s.thread 0).pending &&& sigMask 2 ≠ 0 ∧ (Act.wait (σ := Fin 1) (H := Unit) 0 (sigMask 2) 0).Orderly s) := by
    refine exists_reachable_of_run (f := fun s a => Act.exec s a) booted_boot
      [.kill 0 0 1, .killStep 0, .killStep 0, .kill 0 0 2, .killStep 0, .killStep 0] ?_
      fun _ _ _ => Act.run_of_exec
    decide
  obtain ⟨s, hs, hnodes, hpending, hok⟩ := hrun
  exact ⟨s, hs, hnodes, hok, (signal_lists s hs).2.1 0 _ 0 (by decide) hpending hok⟩

/-- A thread waits for the first of two pending signals, and its list then starts at the member of the
second node. -/
theorem wait_for_first : ¬∀ s : Signals (Fin 1) (Fin 1) Unit,
    Reachable (signalSystem (Fin 1) (Fin 1) Unit) always s → ∀ t, s.ListOk t := by
  have hrun : ∃ s : Signals (Fin 1) (Fin 1) Unit,
      Reachable (signalSystem (Fin 1) (Fin 1) Unit) always s ∧ 208 ∈ s.nodes 0 ∧ s.blocks = [100, 200] := by
    refine exists_reachable_of_run (f := fun s a => Act.exec s a) booted_boot
      [.kill 0 0 1, .killStep 0, .killStep 0, .kill 0 0 2, .killStep 0, .killStep 0, .wait 0 (sigMask 1) 0] ?_
      fun _ _ _ => Act.run_of_exec
    decide
  obtain ⟨s, hs, hnode, hblocks⟩ := hrun
  intro hall
  have hblock := ((hall s hs 0).node 208 hnode).1
  rw [hblocks] at hblock
  exact absurd hblock (by decide)

end RtThread.Signal
