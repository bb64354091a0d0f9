import RtThread.Lib.Links

/-!
# The list functions of `rtservice.h`

The kernel keeps threads and timers on circular doubly linked lists whose links lie in the objects
themselves. The functions below are the inline functions of `include/rtservice.h`, statement by
statement, on the links of all nodes. Removing takes the item off whichever list it is on, and
inserting puts an item that is on no list next to a given node.
-/

namespace RtThread

open Lib Function

variable {A : Type*} [DecidableEq A] (s : Links A)

/-- `rt_list_init`. -/
def rtListInit (l : A) : Links A := (s.setPrev l l).setNext l l

/-- `rt_list_insert_after`. -/
def rtListInsertAfter (l n : A) : Links A :=
  let s := s.setPrev (s.next l) n
  let s := s.setNext n (s.next l)
  let s := s.setNext l n
  s.setPrev n l

/-- `rt_list_insert_before`. -/
def rtListInsertBefore (l n : A) : Links A :=
  let s := s.setNext (s.prev l) n
  let s := s.setPrev n (s.prev l)
  let s := s.setPrev l n
  s.setNext n l

/-- `rt_list_remove`. -/
def rtListRemove (n : A) : Links A :=
  let s := s.setPrev (s.next n) (s.prev n)
  let s := s.setNext (s.prev n) (s.next n)
  (s.setPrev n n).setNext n n

/-- `rt_list_isempty`. -/
def rtListIsempty (l : A) : Bool := s.next l = l

section Equations

variable (s : Links A) {l n : A}

theorem rtListInsertAfter_next (hn : n ≠ l) (y : A) : (rtListInsertAfter s l n).next y =
    if y = n then s.next l else if y = l then n else s.next y := by
  simp only [rtListInsertAfter, Links.setNext_next, Links.setPrev_next]
  split_ifs with h1 h2 <;> simp_all

theorem rtListInsertAfter_prev (y : A) : (rtListInsertAfter s l n).prev y =
    if y = n then l else if y = s.next l then n else s.prev y := by
  simp only [rtListInsertAfter, Links.setNext_prev, Links.setPrev_prev]

theorem rtListInsertBefore_next (y : A) : (rtListInsertBefore s l n).next y =
    if y = n then l else if y = s.prev l then n else s.next y := by
  simp only [rtListInsertBefore, Links.setNext_next, Links.setPrev_next]

theorem rtListInsertBefore_prev (hn : n ≠ l) (y : A) : (rtListInsertBefore s l n).prev y =
    if y = n then s.prev l else if y = l then n else s.prev y := by
  simp only [rtListInsertBefore, Links.setNext_prev, Links.setPrev_prev]
  split_ifs with h1 h2 <;> simp_all

-- The second statement of `rt_list_remove` reads `n->prev` after the first may have written it, which
-- changes nothing: it writes it only if `n` is its own next node.
theorem rtListRemove_next (y : A) : (rtListRemove s n).next y =
    if y = n then n else if y = s.prev n then s.next n else s.next y := by
  have hread : (s.setPrev (s.next n) (s.prev n)).prev n = s.prev n := by
    rw [Links.setPrev_prev, ite_self]
  simp only [rtListRemove, Links.setNext_next, Links.setPrev_next, hread]

theorem rtListRemove_prev (y : A) : (rtListRemove s n).prev y =
    if y = n then n else if y = s.next n then s.prev n else s.prev y := by
  simp only [rtListRemove, Links.setNext_prev, Links.setPrev_prev]

end Equations

variable {H M : Type*} [DecidableEq H] [DecidableEq M] {s : Links (Node H M)} {L : H → List M} {h : H}
  {m : M} {b : Node H M} {l₁ l₂ : List M}

section

variable (hs : Rings s L)
include hs

theorem rings_rtListRemove (m : M) : Rings (rtListRemove s (.item m)) fun h => (L h).erase m :=
  hs.erase (rtListRemove_next s) (rtListRemove_prev s)

section

variable (hm : ∀ h, m ∉ L h)
include hm

theorem rings_rtListInsertBefore (hsplit : L h = l₁ ++ l₂) :
    Rings (rtListInsertBefore s (Node.first h l₂) (.item m)) (update L h (l₁ ++ m :: l₂)) := by
  have hb : Node.first h l₂ ∈ Node.all h (L h) := hsplit ▸ Node.first_mem_all h l₁ l₂
  exact hs.insert hm hsplit rfl (rtListInsertBefore_next s)
    (rtListInsertBefore_prev s (Node.item_ne_of_mem (hm h) hb))

theorem rings_rtListInsertBefore_head (h : H) :
    Rings (rtListInsertBefore s (.head h) (.item m)) (update L h (L h ++ [m])) :=
  rings_rtListInsertBefore hs hm (List.append_nil (L h)).symm

theorem rings_rtListInsertAfter (hsplit : L h = l₁ ++ l₂)
    (hb : b ∈ Node.all h (L h)) (hnext : s.next b = Node.first h l₂) :
    Rings (rtListInsertAfter s b (.item m)) (update L h (l₁ ++ m :: l₂)) := by
  have hne := Node.item_ne_of_mem (hm h) hb
  have hback : s.prev (s.next b) = b := (hs.ring h).prev_next hb
  refine hs.insert hm hsplit hnext ?_ ?_
  · rw [hback]
    exact rtListInsertAfter_next s hne
  · rw [hback]
    exact rtListInsertAfter_prev s

theorem rings_rtListInsertAfter_head (h : H) :
    Rings (rtListInsertAfter s (.head h) (.item m)) (update L h (m :: L h)) := by
  have hsplit : L h = [] ++ L h := rfl
  exact rings_rtListInsertAfter hs hm hsplit (Node.head_mem_all.mpr rfl) (hs.next_head h)

end

theorem rtListIsempty_head : rtListIsempty s (.head h) = true ↔ L h = [] := by
  rw [rtListIsempty, decide_eq_true_iff, hs.next_head_eq_iff]

end

end RtThread
