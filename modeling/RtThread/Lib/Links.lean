import Mathlib.Data.List.Perm.Basic
import RtThread.Lib.Ring

/-!
# Families of circular lists

Several circular lists, one for each head in `H`, share one pool of items `M`: every item has one
pair of links and is therefore on at most one of the lists. `Rings l L` says that the links `l`
represent the family `L` of lists, with every item that is on no list linked to itself.
-/

namespace RtThread.Lib

open Function List

/-- The next and the previous node of every node. -/
structure Links (A : Type*) where
  next : A → A
  prev : A → A

namespace Links

variable {A : Type*} [DecidableEq A] (l : Links A)

/-- One link is changed. -/
def setNext (a b : A) : Links A := { l with next := update l.next a b }

/-- The links with the previous node of `a` set. -/
def setPrev (a b : A) : Links A := { l with prev := update l.prev a b }

@[simp] theorem setNext_next (a b y : A) :
    (l.setNext a b).next y = if y = a then b else l.next y := update_apply ..

@[simp] theorem setNext_prev (a b : A) : (l.setNext a b).prev = l.prev := rfl

@[simp] theorem setPrev_next (a b : A) : (l.setPrev a b).next = l.next := rfl

@[simp] theorem setPrev_prev (a b y : A) :
    (l.setPrev a b).prev y = if y = a then b else l.prev y := update_apply ..

end Links

/-- A node of a family of lists is the head of one of them or an item. -/
inductive Node (H M : Type*)
  | head (h : H)
  | item (m : M)
  deriving DecidableEq

variable {H M : Type*} {l l' : Links (Node H M)} {L : H → List M} {h h' : H} {m : M} {b : Node H M}
  {l₁ l₂ : List M}

/-- The nodes of the list `L` with the head `h`. -/
def Node.all (h : H) (L : List M) : List (Node H M) := .head h :: L.map .item

@[simp] theorem Node.head_mem_all {L : List M} : Node.head h' ∈ Node.all h L ↔ h' = h := by
  simp [Node.all]

@[simp] theorem Node.item_mem_all {L : List M} : Node.item m ∈ Node.all h L ↔ m ∈ L := by
  simp [Node.all]

/-- A node of the list `L` is not an item that is not on it. -/
theorem Node.item_ne_of_mem {L : List M} (hm : m ∉ L) (hb : b ∈ Node.all h L) : Node.item m ≠ b := by
  rintro rfl
  exact hm (Node.item_mem_all.mp hb)

/-- The first node of what follows a place of the list with the head `h`: its first item, or the
head at the end. -/
def Node.first (h : H) : List M → Node H M
  | [] => .head h
  | m :: _ => .item m

@[simp] theorem Node.first_nil : Node.first h ([] : List M) = .head h := rfl

@[simp] theorem Node.first_cons : Node.first h (m :: l₂) = .item m := rfl

theorem Node.head?_map_item (h : H) (l₂ : List M) :
    (l₂.map Node.item ++ [Node.head h]).head? = some (Node.first h l₂) := by
  cases l₂ <;> rfl

theorem Node.first_mem_all (h : H) (l₁ l₂ : List M) : Node.first h l₂ ∈ Node.all h (l₁ ++ l₂) := by
  cases l₂ <;> simp

/-- The links represent the lists `L`: each is a ring, no item is on two of them, and the items that
are on none are linked to themselves. -/
structure Rings (l : Links (Node H M)) (L : H → List M) : Prop where
  ring : ∀ h, Ring l.next l.prev (.head h) ((L h).map .item)
  apart : ∀ {h h' m}, m ∈ L h → m ∈ L h' → h = h'
  alone : ∀ m, (∀ h, m ∉ L h) → l.next (.item m) = .item m ∧ l.prev (.item m) = .item m

namespace Rings

theorem empty : Rings (⟨id, id⟩ : Links (Node H M)) fun _ => [] :=
  ⟨fun _ => Ring.nil_iff.mpr ⟨rfl, rfl⟩, fun hm => absurd hm not_mem_nil, fun _ _ => ⟨rfl, rfl⟩⟩

section

variable (hl : Rings l L)
include hl

theorem nodup (h : H) : (L h).Nodup :=
  (nodup_cons.mp (hl.ring h).nodup).2.of_map _

theorem node_apart (hb : b ∈ Node.all h (L h)) (hb' : b ∈ Node.all h' (L h')) : h = h' := by
  cases b with
  | head k => exact (Node.head_mem_all.mp hb).symm.trans (Node.head_mem_all.mp hb')
  | item m => exact hl.apart (Node.item_mem_all.mp hb) (Node.item_mem_all.mp hb')

theorem next_item (hsplit : L h = l₁ ++ m :: l₂) : l.next (.item m) = Node.first h l₂ := by
  have hpath := (hl.ring h).path
  rw [hsplit, map_append, map_cons, path_append] at hpath
  cases l₂ with
  | nil => exact hpath.2.1
  | cons c l₂ => exact hpath.2.1.1

theorem next_head (h : H) : l.next (.head h) = Node.first h (L h) := by
  have hpath := (hl.ring h).path
  cases hL : L h with
  | nil => exact (hL ▸ hpath).1
  | cons c l₂ => exact (hL ▸ hpath).1.1

theorem next_head_eq_iff : l.next (.head h) = .head h ↔ L h = [] := by
  rw [(hl.ring h).next_head_eq_iff, map_eq_nil_iff]

theorem next_item_eq_iff : l.next (.item m) = .item m ↔ ∀ h, m ∉ L h := by
  constructor
  · intro heq h hm
    exact (hl.ring h).next_ne (mem_map_of_mem hm) heq
  · exact fun hm => (hl.alone m hm).1

theorem next_mem (hb : b ∈ Node.all h (L h)) : l.next b ∈ Node.all h (L h) :=
  (hl.ring h).next_mem hb

theorem prev_mem (hb : b ∈ Node.all h (L h)) : l.prev b ∈ Node.all h (L h) :=
  (hl.ring h).prev_mem hb

/-- An item whose two neighbours are the same node is alone on its list. -/
theorem eq_singleton (hm : m ∈ L h) (heq : l.next (.item m) = l.prev (.item m)) : L h = [m] := by
  have hmem : Node.item m ∈ Node.all h (L h) := Node.item_mem_all.mpr hm
  obtain ⟨l₁, l₂, hsplit⟩ := append_of_mem hm
  have hback : l.next (l.next (.item m)) = .item m := by
    rw [heq]
    exact (hl.ring h).next_prev hmem
  have hnodup := hl.nodup h
  rw [hsplit] at hnodup
  rw [hl.next_item hsplit] at hback
  cases l₂ with
  | nil =>
    -- The head leads to `m`, so nothing comes before it.
    rw [Node.first_nil, hl.next_head, hsplit] at hback
    cases l₁ with
    | nil => exact hsplit
    | cons c l₁ =>
      have hcm : c = m := by simpa using hback
      simp [hcm] at hnodup
  | cons c l₂ =>
    -- The item after `m` does not lead back to it.
    rw [Node.first_cons] at hback
    have hsplit' : L h = (l₁ ++ [m]) ++ c :: l₂ := by rw [hsplit, append_assoc]; rfl
    rw [hl.next_item hsplit'] at hback
    cases l₂ with
    | nil => simp at hback
    | cons d l₂ =>
      have hdm : d = m := by simpa using hback
      have hrest := (nodup_append.mp hnodup).2.1
      simp [hdm] at hrest

theorem ne_neighbours (hbm : b ≠ .item m) (hoff : ∀ h, m ∈ L h → b ∉ Node.all h (L h)) :
    b ≠ l.next (.item m) ∧ b ≠ l.prev (.item m) := by
  by_cases hother : ∃ h, m ∈ L h
  · obtain ⟨h, hm⟩ := hother
    have hmem : Node.item m ∈ Node.all h (L h) := Node.item_mem_all.mpr hm
    exact ⟨fun heq => hoff h hm (heq ▸ hl.next_mem hmem), fun heq => hoff h hm (heq ▸ hl.prev_mem hmem)⟩
  · rw [not_exists] at hother
    obtain ⟨h1, h2⟩ := hl.alone m hother
    rw [h1, h2]
    exact ⟨hbm, hbm⟩

end

/-- Unlinking an item, which takes it off the list it is on, if any. -/
theorem erase [DecidableEq H] [DecidableEq M] (hl : Rings l L) (hnext : ∀ y, l'.next y =
      if y = .item m then .item m else if y = l.prev (.item m) then l.next (.item m) else l.next y)
    (hprev : ∀ y, l'.prev y =
      if y = .item m then .item m else if y = l.next (.item m) then l.prev (.item m) else l.prev y) :
    Rings l' fun h => (L h).erase m := by
  -- A node off the ring of `m` keeps its links.
  have hkeep : ∀ y : Node H M, y ≠ .item m → (∀ h, m ∈ L h → y ∉ Node.all h (L h)) →
      l'.next y = l.next y ∧ l'.prev y = l.prev y := by
    intro y hy hoff
    obtain ⟨h1, h2⟩ := hl.ne_neighbours hy hoff
    rw [hnext, hprev, if_neg hy, if_neg hy, if_neg h1, if_neg h2]
    exact ⟨rfl, rfl⟩
  refine ⟨fun h => ?_, fun hm hm' => hl.apart (mem_of_mem_erase hm) (mem_of_mem_erase hm'), ?_⟩
  · by_cases hm : m ∈ L h
    · have hinj : Injective (Node.item : M → Node H M) := fun x y hxy => by injection hxy
      rw [map_erase hinj]
      refine (hl.ring h).erase (mem_map_of_mem hm) ?_ ?_
      · intro y _ hy
        rw [hnext, if_neg hy]
      · intro y _ hy
        rw [hprev, if_neg hy]
    · rw [erase_of_not_mem hm]
      have hoff : ∀ y ∈ Node.all h (L h), l'.next y = l.next y ∧ l'.prev y = l.prev y := by
        intro y hy
        refine hkeep y ?_ fun k hk hyk => hm (hl.node_apart hy hyk ▸ hk)
        rintro rfl
        exact hm (Node.item_mem_all.mp hy)
      exact (hl.ring h).congr (fun y hy => (hoff y hy).1) fun y hy => (hoff y hy).2
  · intro x hx
    by_cases hxm : x = m
    · subst hxm
      exact ⟨by rw [hnext, if_pos rfl], by rw [hprev, if_pos rfl]⟩
    · have hx' : ∀ h, x ∉ L h := fun h hmem => hx h ((mem_erase_of_ne hxm).mpr hmem)
      obtain ⟨h1, h2⟩ := hkeep (.item x) (fun heq => hxm (by injection heq))
        fun h _ hmem => hx' h (Node.item_mem_all.mp hmem)
      rw [h1, h2]
      exact hl.alone x hx'

/-- Linking an item that is on no list into the list of `h`, before what follows `l₁`. -/
theorem insert [DecidableEq H] [DecidableEq M] (hl : Rings l L) (hm : ∀ h, m ∉ L h)
    (hsplit : L h = l₁ ++ l₂) (hb : b = Node.first h l₂) (hnext : ∀ y, l'.next y =
      if y = .item m then b else if y = l.prev b then .item m else l.next y)
    (hprev : ∀ y, l'.prev y =
      if y = .item m then l.prev b else if y = b then .item m else l.prev y) :
    Rings l' (update L h (l₁ ++ m :: l₂)) := by
  have hbmem : b ∈ Node.all h (L h) := by
    rw [hb, hsplit]
    exact Node.first_mem_all h l₁ l₂
  have hpmem := hl.prev_mem hbmem
  -- A node off the list keeps its links.
  have hkeep : ∀ y : Node H M, y ≠ .item m → y ∉ Node.all h (L h) →
      l'.next y = l.next y ∧ l'.prev y = l.prev y := by
    intro y hy hoff
    have h1 : y ≠ l.prev b := fun heq => hoff (heq ▸ hpmem)
    have h2 : y ≠ b := fun heq => hoff (heq ▸ hbmem)
    rw [hnext, hprev, if_neg hy, if_neg hy, if_neg h1, if_neg h2]
    exact ⟨rfl, rfl⟩
  have hmem : ∀ {k x}, x ∈ update L h (l₁ ++ m :: l₂) k ↔ x ∈ L k ∨ k = h ∧ x = m := by
    intro k x
    by_cases hk : k = h
    · subst hk
      rw [update_self, hsplit, mem_append, mem_append, mem_cons]
      tauto
    · rw [update_of_ne hk]
      tauto
  refine ⟨fun k => ?_, ?_, ?_⟩
  · by_cases hk : k = h
    · subst hk
      have hring := hl.ring k
      rw [hsplit, map_append] at hring
      rw [update_self, map_append, map_cons]
      have hnot : Node.item m ∉ Node.head k :: (l₁.map Node.item ++ l₂.map Node.item) := by
        have := hm k
        rw [hsplit] at this
        simpa using this
      have hne : ∀ y ∈ Node.head k :: (l₁.map Node.item ++ l₂.map Node.item), y ≠ .item m := by
        rintro y hy rfl
        exact hnot hy
      refine hring.insert hnot (hb ▸ Node.head?_map_item k l₂) ?_ ?_ ?_ ?_
      · intro y hy
        rw [hnext, if_neg (hne y hy)]
      · rw [hnext, if_pos rfl]
      · intro y hy
        rw [hprev, if_neg (hne y hy)]
      · rw [hprev, if_pos rfl]
    · rw [update_of_ne hk]
      have hoff : ∀ y ∈ Node.all k (L k), l'.next y = l.next y ∧ l'.prev y = l.prev y := by
        intro y hy
        refine hkeep y ?_ fun hyh => hk (hl.node_apart hy hyh)
        rintro rfl
        exact hm k (Node.item_mem_all.mp hy)
      exact (hl.ring k).congr (fun y hy => (hoff y hy).1) fun y hy => (hoff y hy).2
  · intro k k' x hx hx'
    rw [hmem] at hx hx'
    rcases hx with hx | ⟨rfl, rfl⟩
    · rcases hx' with hx' | ⟨rfl, rfl⟩
      · exact hl.apart hx hx'
      · exact absurd hx (hm k)
    · rcases hx' with hx' | ⟨rfl, -⟩
      · exact absurd hx' (hm k')
      · rfl
  · intro x hx
    have hx' : ∀ k, x ∉ L k := fun k hk => hx k (hmem.mpr (Or.inl hk))
    have hxm : x ≠ m := fun heq => hx h (hmem.mpr (Or.inr ⟨rfl, heq⟩))
    obtain ⟨h1, h2⟩ := hkeep (.item x) (fun heq => hxm (by injection heq))
      fun hmem => hx' h (Node.item_mem_all.mp hmem)
    rw [h1, h2]
    exact hl.alone x hx'

end Rings

end RtThread.Lib
