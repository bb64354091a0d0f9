import Mathlib.Data.List.Nodup

/-!
# Circular doubly linked lists

A node has a next and a previous node. `Path nx pv a L b` says that the links lead from `a` through
the nodes `L` to `b`, and back, and `Ring nx pv h L` that they lead from the head `h` through `L`
back to `h`. The links may be kept in any way, so the edits are stated on the two link functions before
and after: unlinking a node (`Ring.erase`) and inserting one (`Ring.insert`).
-/

namespace RtThread.Lib

open List

variable {A : Type*} {nx pv nx' pv' : A → A} {a b h x : A} {L l₁ l₂ : List A}

/-- The links lead from `a` through the nodes `L` to `b`, and back. -/
def Path (nx pv : A → A) : A → List A → A → Prop
  | a, [], b => nx a = b ∧ pv b = a
  | a, x :: L, b => (nx a = x ∧ pv x = a) ∧ Path nx pv x L b

@[simp] theorem path_nil : Path nx pv a [] b ↔ nx a = b ∧ pv b = a := Iff.rfl

@[simp] theorem path_cons :
    Path nx pv a (x :: L) b ↔ (nx a = x ∧ pv x = a) ∧ Path nx pv x L b := Iff.rfl

theorem path_append : Path nx pv a (l₁ ++ x :: l₂) b ↔ Path nx pv a l₁ x ∧ Path nx pv x l₂ b := by
  induction l₁ generalizing a with
  | nil => simp
  | cons y l₁ ih => simp [ih, and_assoc]

theorem Path.congr (h : Path nx pv a L b) (hnx : ∀ y ∈ a :: L, nx' y = nx y)
    (hpv : ∀ y ∈ L ++ [b], pv' y = pv y) : Path nx' pv' a L b := by
  induction L generalizing a with
  | nil =>
    obtain ⟨h1, h2⟩ := h
    exact ⟨(hnx a (by simp)).trans h1, (hpv b (by simp)).trans h2⟩
  | cons y L ih =>
    obtain ⟨⟨h1, h2⟩, hrest⟩ := h
    exact ⟨⟨(hnx a (by simp)).trans h1, (hpv y (by simp)).trans h2⟩,
      ih hrest (fun z hz => hnx z (mem_cons_of_mem _ hz))
        fun z hz => hpv z (mem_cons_of_mem _ hz)⟩

theorem Path.prev_mem (h : Path nx pv a L b) : pv b ∈ a :: L := by
  induction L generalizing a with
  | nil => simp [h.2]
  | cons y L ih => exact mem_cons_of_mem _ (ih h.2)

theorem Path.next_mem (h : Path nx pv a L b) : nx a ∈ L ++ [b] := by
  cases L with
  | nil => simp [h.1]
  | cons y L => simp [h.1.1]

/-- Leading the end of a path elsewhere, to `c`. -/
theorem Path.redirect {c : A} (hp : Path nx pv a L b) (hnodup : (a :: L).Nodup) (hlast : nx' (pv b) = c)
    (hback : pv' c = pv b) (hnx : ∀ y ∈ a :: L, y ≠ pv b → nx' y = nx y)
    (hpv : ∀ y ∈ L, pv' y = pv y) : Path nx' pv' a L c := by
  induction L generalizing a with
  | nil =>
    obtain ⟨-, h2⟩ := hp
    rw [h2] at hlast hback
    exact ⟨hlast, hback⟩
  | cons y L ih =>
    obtain ⟨⟨h1, h2⟩, hrest⟩ := hp
    have hmem := hrest.prev_mem
    have hne : a ≠ pv b := by
      rintro rfl
      exact (nodup_cons.mp hnodup).1 hmem
    exact ⟨⟨(hnx a (by simp) hne).trans h1, (hpv y (by simp)).trans h2⟩,
      ih hrest (nodup_cons.mp hnodup).2 (fun z hz => hnx z (mem_cons_of_mem _ hz))
        fun z hz => hpv z (mem_cons_of_mem _ hz)⟩

/-- The links lead from the head `h` through the nodes `L`, each once, back to `h`. -/
structure Ring (nx pv : A → A) (h : A) (L : List A) : Prop where
  path : Path nx pv h L h
  nodup : (h :: L).Nodup

namespace Ring

theorem congr (hR : Ring nx pv h L) (hnx : ∀ y ∈ h :: L, nx' y = nx y)
    (hpv : ∀ y ∈ h :: L, pv' y = pv y) : Ring nx' pv' h L :=
  ⟨hR.path.congr hnx fun y hy => hpv y (by simp at hy ⊢; tauto), hR.nodup⟩

theorem next_mem (hR : Ring nx pv h L) (hx : x ∈ h :: L) : nx x ∈ h :: L := by
  rw [mem_cons] at hx
  rcases hx with rfl | hx
  · have := hR.path.next_mem
    simp at this ⊢
    tauto
  · obtain ⟨l₁, l₂, rfl⟩ := append_of_mem hx
    have := (path_append.mp hR.path).2.next_mem
    simp at this ⊢
    tauto

theorem prev_mem (hR : Ring nx pv h L) (hx : x ∈ h :: L) : pv x ∈ h :: L := by
  rw [mem_cons] at hx
  rcases hx with rfl | hx
  · exact hR.path.prev_mem
  · obtain ⟨l₁, l₂, rfl⟩ := append_of_mem hx
    have := (path_append.mp hR.path).1.prev_mem
    simp at this ⊢
    tauto

theorem nil_iff : Ring nx pv h [] ↔ nx h = h ∧ pv h = h :=
  ⟨fun hR => hR.path, fun hh => ⟨hh, nodup_singleton h⟩⟩

theorem next_head_eq_iff (hR : Ring nx pv h L) : nx h = h ↔ L = [] := by
  cases L with
  | nil => simp [hR.path.1]
  | cons x L =>
    have hx : nx h = x := hR.path.1.1
    have hne := (nodup_cons.mp hR.nodup).1
    simp only [reduceCtorEq, iff_false, hx]
    rintro rfl
    exact hne mem_cons_self

theorem next_ne (hR : Ring nx pv h L) (hx : x ∈ L) : nx x ≠ x := by
  obtain ⟨l₁, l₂, rfl⟩ := append_of_mem hx
  have hnext := (path_append.mp hR.path).2.next_mem
  obtain ⟨hh, hnd⟩ := nodup_cons.mp hR.nodup
  intro heq
  rw [heq, mem_append, mem_singleton] at hnext
  rcases hnext with hm | rfl
  · exact (nodup_cons.mp (nodup_append.mp hnd).2.1).1 hm
  · exact hh hx

/-- Unlinking a node: the node before it leads to the node after it. -/
theorem erase [DecidableEq A] (hR : Ring nx pv h L) (hx : x ∈ L)
    (hnx : ∀ y ∈ h :: L, y ≠ x → nx' y = if y = pv x then nx x else nx y)
    (hpv : ∀ y ∈ h :: L, y ≠ x → pv' y = if y = nx x then pv x else pv y) :
    Ring nx' pv' h (L.erase x) := by
  obtain ⟨l₁, l₂, rfl⟩ := append_of_mem hx
  obtain ⟨hp₁, hp₂⟩ := path_append.mp hR.path
  have hnd := hR.nodup
  have hperm : (h :: (l₁ ++ x :: l₂)).Perm (x :: (h :: (l₁ ++ l₂))) := by
    refine (List.Perm.cons h perm_middle).trans (List.Perm.swap x h (l₁ ++ l₂))
  have hnd' := hperm.nodup_iff.mp hnd
  obtain ⟨hxnot, hnd''⟩ := nodup_cons.mp hnd'
  have hxl₁ : x ∉ l₁ := fun hm => hxnot (by simp [hm])
  have herase : (l₁ ++ x :: l₂).erase x = l₁ ++ l₂ := by
    rw [erase_append_right _ hxl₁, erase_cons_head]
  rw [herase]
  refine ⟨?_, hnd''⟩
  have hmem₁ : ∀ y ∈ h :: l₁, y ∈ h :: (l₁ ++ x :: l₂) ∧ y ≠ x := fun y hy => by
    refine ⟨by simp at hy ⊢; tauto, ?_⟩
    rintro rfl
    exact hxnot (by simp at hy ⊢; tauto)
  have hmem₂ : ∀ y ∈ l₂, y ∈ h :: (l₁ ++ x :: l₂) ∧ y ≠ x := fun y hy => by
    refine ⟨by simp at hy ⊢; tauto, ?_⟩
    rintro rfl
    exact hxnot (by simp [hy])
  have hnd₁ : (h :: l₁).Nodup := by
    rw [← cons_append] at hnd''
    exact (nodup_append.mp hnd'').1
  -- The first part of the ring now ends at the node after `x`.
  have hlast := hmem₁ _ hp₁.prev_mem
  have hnext : nx x ∈ l₂ ++ [h] := hp₂.next_mem
  have hnextne : nx x ∈ h :: (l₁ ++ x :: l₂) ∧ nx x ≠ x :=
    ⟨hR.next_mem (mem_cons_of_mem _ hx), hR.next_ne hx⟩
  have hpath₁ : Path nx' pv' h l₁ (nx x) := by
    refine hp₁.redirect hnd₁ ?_ ?_ ?_ ?_
    · rw [hnx _ hlast.1 hlast.2, if_pos rfl]
    · rw [hpv _ hnextne.1 hnextne.2, if_pos rfl]
    · intro y hy hne
      rw [hnx y (hmem₁ y hy).1 (hmem₁ y hy).2, if_neg hne]
    · intro y hy
      obtain ⟨hy1, hy2⟩ := hmem₁ y (mem_cons_of_mem _ hy)
      rw [hpv y hy1 hy2, if_neg]
      rintro rfl
      -- The node after `x` is not before it.
      rw [mem_append, mem_singleton] at hnext
      rcases hnext with hm | hm
      · have := (nodup_cons.mp hnd'').2
        exact (nodup_append.mp this).2.2 _ hy _ hm rfl
      · rw [hm] at hy
        exact (nodup_cons.mp hnd₁).1 hy
  cases l₂ with
  | nil =>
    have : nx x = h := hp₂.1
    rw [this] at hpath₁
    simpa using hpath₁
  | cons z l₂ =>
    obtain ⟨⟨hz, -⟩, hrest⟩ := hp₂
    rw [hz] at hpath₁ hpv
    refine path_append.mpr ⟨hpath₁, hrest.congr ?_ ?_⟩
    · intro y hy
      obtain ⟨hy1, hy2⟩ := hmem₂ y hy
      rw [hnx y hy1 hy2, if_neg]
      rintro rfl
      exact absurd hp₁.prev_mem fun hm => by
        rw [← cons_append] at hnd''
        exact (nodup_append.mp hnd'').2.2 _ hm _ hy rfl
    · intro y hy
      have hyz : y ≠ z := by
        rintro rfl
        have h1 := (nodup_cons.mp hnd'')
        rw [mem_append, mem_singleton] at hy
        rcases hy with hy | hy
        · have := (nodup_append.mp h1.2).2.1
          exact (nodup_cons.mp this).1 hy
        · exact h1.1 (by simp [hy])
      have hy' : y ∈ h :: (l₁ ++ x :: z :: l₂) ∧ y ≠ x := by
        rw [mem_append, mem_singleton] at hy
        rcases hy with hy | rfl
        · exact hmem₂ y (mem_cons_of_mem _ hy)
        · exact hmem₁ y (by simp)
      rw [hpv y hy'.1 hy'.2, if_neg hyz]

/-- The next and the previous node of a node on the ring lead back to it. -/
theorem prev_next (hR : Ring nx pv h L) (hx : x ∈ h :: L) : pv (nx x) = x := by
  rw [mem_cons] at hx
  have hstart : ∀ {a L}, Path nx pv a L h → pv (nx a) = a := by
    intro a L hp
    cases L with
    | nil => rw [hp.1, hp.2]
    | cons y L => rw [hp.1.1, hp.1.2]
  rcases hx with rfl | hx
  · exact hstart hR.path
  · obtain ⟨l₁, l₂, rfl⟩ := append_of_mem hx
    exact hstart (path_append.mp hR.path).2

theorem next_prev (hR : Ring nx pv h L) (hx : x ∈ h :: L) : nx (pv x) = x := by
  have hend : ∀ {a L}, Path nx pv a L x → nx (pv x) = x := by
    intro a L hp
    induction L generalizing a with
    | nil => rw [hp.2, hp.1]
    | cons y L ih => exact ih hp.2
  rw [mem_cons] at hx
  rcases hx with rfl | hx
  · exact hend hR.path
  · obtain ⟨l₁, l₂, rfl⟩ := append_of_mem hx
    exact hend (path_append.mp hR.path).1

/-- Inserting a node before the node `b`, which is the first of `l₂`, or the head if there is none.
-/
theorem insert [DecidableEq A] (hR : Ring nx pv h (l₁ ++ l₂)) (hx : x ∉ h :: (l₁ ++ l₂))
    (hb : (l₂ ++ [h]).head? = some b)
    (hnx : ∀ y ∈ h :: (l₁ ++ l₂), nx' y = if y = pv b then x else nx y) (hnxx : nx' x = b)
    (hpv : ∀ y ∈ h :: (l₁ ++ l₂), pv' y = if y = b then x else pv y) (hpvx : pv' x = pv b) :
    Ring nx' pv' h (l₁ ++ x :: l₂) := by
  have hnd := hR.nodup
  have hperm : (h :: (l₁ ++ x :: l₂)).Perm (x :: (h :: (l₁ ++ l₂))) :=
    (List.Perm.cons h perm_middle).trans (List.Perm.swap x h (l₁ ++ l₂))
  refine ⟨?_, hperm.nodup_iff.mpr (nodup_cons.mpr ⟨hx, hnd⟩)⟩
  rw [← cons_append, nodup_append] at hnd
  obtain ⟨hnd₁, hnd₂, hdisj⟩ := hnd
  have hmem₁ : ∀ y ∈ h :: l₁, y ∈ h :: (l₁ ++ l₂) := fun y hy => by
    simp only [mem_cons, mem_append] at hy ⊢
    tauto
  have hmem₂ : ∀ y ∈ l₂, y ∈ h :: (l₁ ++ l₂) := fun y hy => by simp [hy]
  -- The part before `b` now ends at `x`.
  have hfirst : ∀ {c}, Path nx pv h l₁ c → c = b → c ∉ l₁ → Path nx' pv' h l₁ x := by
    rintro c hp rfl hc
    refine hp.redirect hnd₁ ?_ hpvx ?_ ?_
    · rw [hnx _ (hmem₁ _ hp.prev_mem), if_pos rfl]
    · intro y hy hne
      rw [hnx y (hmem₁ y hy), if_neg hne]
    · intro y hy
      rw [hpv y (hmem₁ y (mem_cons_of_mem _ hy)), if_neg]
      rintro rfl
      exact hc hy
  rw [path_append]
  cases l₂ with
  | nil =>
    have hbh : h = b := by simpa using hb
    have hp : Path nx pv h l₁ h := by simpa using hR.path
    refine ⟨hfirst hp hbh (nodup_cons.mp hnd₁).1, by rw [hnxx, hbh], ?_⟩
    rw [hpv h (by simp), if_pos hbh]
  | cons c l₂ =>
    have hbc : c = b := by simpa using hb
    obtain ⟨hp₁, hp₂⟩ := path_append.mp hR.path
    have hc : c ∉ h :: l₁ := fun hm => hdisj c hm c (by simp) rfl
    refine ⟨hfirst hp₁ hbc fun hm => hc (by simp [hm]), ⟨by rw [hnxx, hbc], ?_⟩, hp₂.congr ?_ ?_⟩
    · rw [hpv c (hmem₂ c (by simp)), if_pos hbc]
    · intro y hy
      rw [hnx y (hmem₂ y hy), if_neg]
      rintro rfl
      exact hdisj _ (hbc ▸ hp₁.prev_mem) _ hy rfl
    · intro y hy
      rw [mem_append, mem_singleton] at hy
      have hyb : y ≠ b ∧ y ∈ h :: (l₁ ++ c :: l₂) := by
        rcases hy with hy | rfl
        · refine ⟨?_, by simp [hy]⟩
          rintro rfl
          exact (nodup_cons.mp hnd₂).1 (hbc ▸ hy)
        · exact ⟨fun heq => hc (by simp [hbc, heq]), by simp⟩
      rw [hpv y hyb.2, if_neg hyb.1]

end Ring

end RtThread.Lib
