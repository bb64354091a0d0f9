import RtThread.Kernel.Model

/-!
# The ready bitmap

The scheduler finds the highest ready priority in a bitmap: one word for up to 32 priorities, and
above that a byte of bits for every eight priorities with one word that says which of the bytes are
not zero. `Sched.Shows s R` says that the bitmap shows the set `R` of priorities, and the priority that
`rt_schedule` computes is the least of the set, in either form.
-/

namespace RtThread

open Lib Function

variable {n : ℕ} {s : Sched n} {t : Fin n} {R : Set ℕ}

/-- One word shows the set `R` of priorities below 32. -/
def OneLevel (group : BitVec 32) (R : Set ℕ) : Prop := ∀ p, group.getLsbD p = true ↔ p ∈ R

/-- A table of bytes shows the set `R` of priorities, and the word above it the bytes that are not
zero. -/
structure TwoLevel (group : BitVec 32) (table : ℕ → BitVec 8) (R : Set ℕ) : Prop where
  bit : ∀ p, (table (p >>> 3)).getLsbD (p &&& 0x07) = true ↔ p ∈ R
  group : ∀ g, group.getLsbD g = true ↔ table g ≠ 0

/-- The ready bitmap shows the set `R`, in the form that the number of priorities selects. -/
def Sched.Shows (s : Sched n) (R : Set ℕ) : Prop :=
  if 32 < s.prioMax then TwoLevel s.group s.table R else OneLevel s.group R

/-- The masks of a thread are those of its current priority. -/
def Sched.HasMasks (s : Sched n) (t : Fin n) : Prop :=
  if 32 < s.prioMax then
    s.number t = s.currentPriority t >>> 3 ∧ s.numberMask t = 1#32 <<< (s.currentPriority t >>> 3) ∧
      s.highMask t = 1#8 <<< (s.currentPriority t &&& 0x07)
  else s.numberMask t = 1#32 <<< s.currentPriority t

/-- The masks of a thread are those that `rt_thread_init` leaves. -/
def Sched.NoMasks (s : Sched n) (t : Fin n) : Prop :=
  s.number t = 0 ∧ s.numberMask t = 0 ∧ s.highMask t = 0

instance (s : Sched n) (t : Fin n) : Decidable (s.HasMasks t) := by
  unfold Sched.HasMasks; infer_instance

/-! ## Bits of words -/

theorem getLsbD_one_shiftLeft {w i : ℕ} (hi : i < w) (j : ℕ) :
    (1#w <<< i).getLsbD j = decide (j = i) := by
  rw [BitVec.getLsbD_shiftLeft, BitVec.getLsbD_one]
  rcases lt_trichotomy j i with hj | rfl | hj
  · simp [hj, hj.ne]
  · simp [hi]; omega
  · simp [hj.ne', show j - i ≠ 0 by omega]

theorem getLsbD_and_not {w : ℕ} (a b : BitVec w) (j : ℕ) :
    (a &&& ~~~b).getLsbD j = (a.getLsbD j && !b.getLsbD j) := by
  rw [BitVec.getLsbD_and, BitVec.getLsbD_not]
  by_cases hj : j < w
  · simp [hj]
  · simp [BitVec.getLsbD_of_ge a j (by omega)]

theorem bitVec_ne_zero_iff {w : ℕ} (v : BitVec w) : v ≠ 0 ↔ ∃ j, v.getLsbD j = true := by
  constructor
  · intro hv
    by_contra hno
    apply hv
    apply BitVec.eq_of_getLsbD_eq
    intro i _
    have hzero : (0 : BitVec w).getLsbD i = false := BitVec.getLsbD_zero
    rw [hzero, ← Bool.not_eq_true]
    exact fun hi => hno ⟨i, hi⟩
  · rintro ⟨j, hj⟩ rfl
    rw [show (0 : BitVec w).getLsbD j = false from BitVec.getLsbD_zero] at hj
    cases hj

theorem prio_split (p : ℕ) : p >>> 3 = p / 8 ∧ p &&& 0x07 = p % 8 :=
  ⟨Nat.shiftRight_eq_div_pow p 3, Nat.and_two_pow_sub_one_eq_mod p 3⟩

theorem prio_eq_iff {p q : ℕ} : p = q ↔ p >>> 3 = q >>> 3 ∧ p &&& 0x07 = q &&& 0x07 := by
  rw [(prio_split p).1, (prio_split p).2, (prio_split q).1, (prio_split q).2]
  omega

/-! ## Setting and clearing bits -/

section Levels

variable {group : BitVec 32} {table : ℕ → BitVec 8} {p : ℕ}

theorem OneLevel.insert (hR : OneLevel group R) (hp : p < 32) :
    OneLevel (group ||| 1#32 <<< p) (insert p R) := by
  intro q
  rw [BitVec.getLsbD_or, getLsbD_one_shiftLeft hp, Bool.or_eq_true, hR q, decide_eq_true_eq,
    Set.mem_insert_iff, or_comm]

theorem OneLevel.diff (hR : OneLevel group R) (hp : p < 32) :
    OneLevel (group &&& ~~~(1#32 <<< p)) (R \ {p}) := by
  intro q
  rw [getLsbD_and_not, getLsbD_one_shiftLeft hp, Bool.and_eq_true, hR q, Set.mem_sdiff,
    Set.mem_singleton_iff]
  simp

theorem getLsbD_update_or (table : ℕ → BitVec 8) {g b : ℕ} (hb : b < 8) (g' b' : ℕ) :
    (update table g (table g ||| 1#8 <<< b) g').getLsbD b' = true ↔
      (table g').getLsbD b' = true ∨ g' = g ∧ b' = b := by
  by_cases hg : g' = g
  · rw [hg, update_self, BitVec.getLsbD_or, getLsbD_one_shiftLeft hb]
    simp
  · rw [update_of_ne hg]
    simp [hg]

theorem getLsbD_update_and_not (table : ℕ → BitVec 8) {g b : ℕ} (hb : b < 8) (g' b' : ℕ) :
    (update table g (table g &&& ~~~(1#8 <<< b)) g').getLsbD b' = true ↔
      (table g').getLsbD b' = true ∧ ¬(g' = g ∧ b' = b) := by
  by_cases hg : g' = g
  · rw [hg, update_self, getLsbD_and_not, getLsbD_one_shiftLeft hb]
    simp
  · rw [update_of_ne hg]
    simp [hg]

theorem TwoLevel.insert (hR : TwoLevel group table R) (hp : p < 256) :
    TwoLevel (group ||| 1#32 <<< (p >>> 3))
      (update table (p >>> 3) (table (p >>> 3) ||| 1#8 <<< (p &&& 0x07))) (insert p R) := by
  obtain ⟨hdiv, hmod⟩ := prio_split p
  have hb : p &&& 0x07 < 8 := by omega
  refine ⟨fun q => ?_, fun g => ?_⟩
  · rw [getLsbD_update_or table hb, hR.bit q, Set.mem_insert_iff, @prio_eq_iff q p, or_comm]
  · rw [BitVec.getLsbD_or, getLsbD_one_shiftLeft (by omega), Bool.or_eq_true, hR.group,
      decide_eq_true_eq]
    simp only [bitVec_ne_zero_iff, getLsbD_update_or table hb]
    constructor
    · rintro (⟨j, hj⟩ | rfl)
      · exact ⟨j, Or.inl hj⟩
      · exact ⟨_, Or.inr ⟨rfl, rfl⟩⟩
    · rintro ⟨j, hj | ⟨rfl, -⟩⟩
      · exact Or.inl ⟨j, hj⟩
      · exact Or.inr rfl

theorem TwoLevel.diff {table' : ℕ → BitVec 8} (hR : TwoLevel group table R) (hp : p < 256)
    (htable : table' = update table (p >>> 3) (table (p >>> 3) &&& ~~~(1#8 <<< (p &&& 0x07)))) :
    TwoLevel (if table' (p >>> 3) = 0 then group &&& ~~~(1#32 <<< (p >>> 3)) else group) table'
      (R \ {p}) := by
  obtain ⟨hdiv, hmod⟩ := prio_split p
  have hb : p &&& 0x07 < 8 := by omega
  have hg : p >>> 3 < 32 := by omega
  refine ⟨fun q => ?_, fun g => ?_⟩
  · rw [htable, getLsbD_update_and_not table hb, hR.bit q, Set.mem_sdiff, Set.mem_singleton_iff,
      @prio_eq_iff q p]
  · by_cases hgp : g = p >>> 3
    · rw [hgp]
      split_ifs with hzero
      · rw [getLsbD_and_not, getLsbD_one_shiftLeft hg]
        simpa using hzero
      · -- The byte had a bit before if it has one now.
        have hbefore : table (p >>> 3) ≠ 0 := by
          intro h0
          apply hzero
          rw [htable, update_self, h0]
          exact BitVec.zero_and
        exact ⟨fun _ => hzero, fun _ => (hR.group _).mpr hbefore⟩
    · have hkeep : table' g = table g := by rw [htable, update_of_ne hgp]
      rw [hkeep, ← hR.group g]
      split_ifs
      · rw [getLsbD_and_not, getLsbD_one_shiftLeft hg]
        simp [hgp]
      · exact Iff.rfl

end Levels

theorem setBits_shows (hs : s.Shows R) (hmax : s.prioMax ≤ 256) (hp : s.currentPriority t < s.prioMax)
    (hm : s.HasMasks t) : (s.setBits t).Shows (insert (s.currentPriority t) R) := by
  unfold Sched.Shows Sched.HasMasks at *
  unfold Sched.setBits
  by_cases h32 : 32 < s.prioMax
  · rw [if_pos h32] at hs hm ⊢
    rw [if_pos h32, hm.1, hm.2.1, hm.2.2]
    exact hs.insert (by omega)
  · rw [if_neg h32] at hs hm ⊢
    rw [if_neg h32, hm]
    exact hs.insert (by omega)

theorem clearBits_shows (hs : s.Shows R) (hmax : s.prioMax ≤ 256) (hp : s.currentPriority t < s.prioMax)
    (hm : s.HasMasks t) : (s.clearBits t).Shows (R \ {s.currentPriority t}) := by
  unfold Sched.Shows Sched.HasMasks at *
  unfold Sched.clearBits
  by_cases h32 : 32 < s.prioMax
  · rw [if_pos h32] at hs hm ⊢
    have hdiff := hs.diff (p := s.currentPriority t) (by omega) rfl
    rw [← hm.2.2, ← hm.2.1, ← hm.1] at hdiff
    by_cases hzero : update s.table (s.number t)
        (s.table (s.number t) &&& ~~~s.highMask t) (s.number t) = 0
    · rw [if_pos hzero, if_pos h32]
      rwa [if_pos hzero] at hdiff
    · rw [if_neg hzero, if_pos h32]
      rwa [if_neg hzero] at hdiff
  · rw [if_neg h32] at hs hm ⊢
    rw [if_neg h32, hm]
    exact hs.diff (by omega)

theorem hasMasks_not_noMasks (hmax : s.prioMax ≤ 256) (hp : s.currentPriority t < s.prioMax)
    (hm : s.HasMasks t) : ¬s.NoMasks t := by
  obtain ⟨hdiv, -⟩ := prio_split (s.currentPriority t)
  have hshift : ∀ i, i < 32 → 1#32 <<< i ≠ 0 := fun i hi =>
    (bitVec_ne_zero_iff _).mpr ⟨i, by rw [getLsbD_one_shiftLeft hi, decide_eq_true rfl]⟩
  rintro ⟨-, hmask, -⟩
  unfold Sched.HasMasks at hm
  split_ifs at hm with h32
  · exact hshift _ (by omega) (hm.2.1.symm.trans hmask)
  · exact hshift _ (by omega) (hm.symm.trans hmask)

theorem clearBits_of_noMasks (hm : s.NoMasks t) : s.clearBits t = s := by
  obtain ⟨hnum, hmask, hhigh⟩ := hm
  have hkeep : ∀ {w : ℕ} (v : BitVec w), v &&& ~~~(0 : BitVec w) = v := fun v => by simp
  unfold Sched.clearBits
  simp only [hnum, hmask, hhigh, hkeep, update_eq_self, ite_self]

/-! ## The highest ready priority -/

theorem isLeast_of_not_mem_lt {p : ℕ} (hp : p ∈ R) (hlow : ∀ q < p, q ∉ R) : IsLeast R p :=
  ⟨hp, fun q hq => not_lt.mp fun hlt => hlow q hlt hq⟩

theorem OneLevel.isLeast {group : BitVec 32} (hR : OneLevel group R) (hne : R.Nonempty) :
    IsLeast R (sub32 (rtFfs group) 1) := by
  obtain ⟨q, hq⟩ := hne
  obtain ⟨i, hi, hffs, hbit, hlow⟩ := rtFfs_spec group ((bitVec_ne_zero_iff group).mpr ⟨q, (hR q).mpr hq⟩)
  have hval : sub32 (rtFfs group) 1 = i := by
    rw [hffs, sub32_eq (by omega) (by omega), Nat.add_sub_cancel]
  rw [hval]
  apply isLeast_of_not_mem_lt ((hR i).mp hbit)
  intro j hj hmem
  rw [← hR j, hlow j hj] at hmem
  cases hmem

/-- With two levels the computed priority is the least of the set. -/
theorem TwoLevel.isLeast {group : BitVec 32} {table : ℕ → BitVec 8} (hR : TwoLevel group table R)
    (hne : R.Nonempty) : sub32 (rtFfs group) 1 < 32 ∧
      IsLeast R (sub32 (add32 (sub32 (rtFfs group) 1 <<< 3)
        (rtFfs ((table (sub32 (rtFfs group) 1)).setWidth 32))) 1) := by
  obtain ⟨q, hq⟩ := hne
  have hgroup : group ≠ 0 := by
    rw [bitVec_ne_zero_iff]
    exact ⟨q >>> 3, (hR.group _).mpr ((bitVec_ne_zero_iff _).mpr ⟨_, (hR.bit q).mpr hq⟩)⟩
  obtain ⟨g, hg, hffs, hbit, hlow⟩ := rtFfs_spec group hgroup
  have hnumber : sub32 (rtFfs group) 1 = g := by
    rw [hffs, sub32_eq (by omega) (by omega), Nat.add_sub_cancel]
  rw [hnumber]
  refine ⟨hg, ?_⟩
  obtain ⟨c, hc⟩ := (bitVec_ne_zero_iff _).mp ((hR.group g).mp hbit)
  have hwide : ∀ j, ((table g).setWidth 32).getLsbD j = true ↔ (table g).getLsbD j = true := by
    intro j
    rw [BitVec.getLsbD_setWidth, Bool.and_eq_true, decide_eq_true_eq]
    exact ⟨And.right, fun h => ⟨lt_trans (BitVec.lt_of_getLsbD h) (by norm_num), h⟩⟩
  obtain ⟨b, -, hffs', hbit', hlow'⟩ :=
    rtFfs_spec ((table g).setWidth 32) ((bitVec_ne_zero_iff _).mpr ⟨c, (hwide c).mpr hc⟩)
  rw [hwide] at hbit'
  have hb : b < 8 := BitVec.lt_of_getLsbD hbit'
  have hval : sub32 (add32 (g <<< 3) (rtFfs ((table g).setWidth 32))) 1 = 8 * g + b := by
    rw [hffs', Nat.shiftLeft_eq, add32_eq (by omega), sub32_eq (by omega) (by omega)]
    omega
  rw [hval]
  have hsplit : (8 * g + b) >>> 3 = g ∧ (8 * g + b) &&& 0x07 = b := by
    rw [(prio_split _).1, (prio_split _).2]
    omega
  have hmem : 8 * g + b ∈ R := by
    apply (hR.bit (8 * g + b)).mp
    rw [hsplit.1, hsplit.2]
    exact hbit'
  apply isLeast_of_not_mem_lt hmem
  · intro p hp hmem
    rw [← hR.bit] at hmem
    obtain ⟨hdiv, hmod⟩ := prio_split p
    by_cases hpg : p >>> 3 < g
    · -- Its byte comes before the first that is not zero.
      have hzero := hlow (p >>> 3) hpg
      rw [← Bool.not_eq_true, hR.group, not_not] at hzero
      exact (bitVec_ne_zero_iff _).mpr ⟨_, hmem⟩ hzero
    · have hpg' : p >>> 3 = g := by omega
      rw [hpg', ← hwide, hlow' _ (by omega)] at hmem
      cases hmem

theorem highestReadyPriority_spec (hs : s.Shows R) (hne : R.Nonempty) :
    ∃ p, s.highestReadyPriority = .ok p ∧ IsLeast R p := by
  unfold Sched.Shows at hs
  unfold Sched.highestReadyPriority
  by_cases h32 : 32 < s.prioMax
  · rw [if_pos h32] at hs
    obtain ⟨hnumber, hleast⟩ := hs.isLeast hne
    rw [if_neg (by omega), if_pos hnumber]
    exact ⟨_, rfl, hleast⟩
  · rw [if_neg h32] at hs
    rw [if_pos (by omega)]
    exact ⟨_, rfl, hs.isLeast hne⟩

end RtThread
