import RtThread.Lib.Word
import Mathlib.Tactic.NormNum

/-!
# Byte memory

A memory maps addresses to bytes. `load m a n` reads the `n` bytes from `a` as a little-endian
number and `store m a n v` writes the `n` low bytes of `v` there. Two facts carry every proof about
records kept in such a memory: a load reads back what was stored at the same place, reduced modulo
`256^n` (`load_store_same`), and a load is unaffected by a store to disjoint bytes
(`load_store_of_disjoint`). `SameOff` bounds the bytes that an edit of fixed-size records touches.
-/

namespace RtThread.Lib

/-- A byte memory. -/
abbrev Bytes := ℕ → UInt8

namespace Bytes

/-- The little-endian number in the `n` bytes from `a`. -/
def load (m : Bytes) (a : ℕ) : ℕ → ℕ
  | 0 => 0
  | n + 1 => (m a).toNat + 256 * load m (a + 1) n

/-- The memory with the `n` low bytes of `v` written from `a` on. -/
def store (m : Bytes) (a n v : ℕ) : Bytes :=
  fun x => if a ≤ x ∧ x < a + n then UInt8.ofNat (v / 256^(x - a)) else m x

theorem store_apply_of_out {m : Bytes} {a n v x : ℕ} (h : x < a ∨ a + n ≤ x) :
    m.store a n v x = m x := by
  unfold store
  rw [if_neg (by omega)]

theorem load_congr {m m' : Bytes} {a n : ℕ} (h : ∀ x, a ≤ x → x < a + n → m x = m' x) :
    m.load a n = m'.load a n := by
  induction n generalizing a with
  | zero => rfl
  | succ n ih =>
    simp only [load]
    rw [h a le_rfl (by omega), ih fun x hx hx' => h x (by omega) (by omega)]

theorem load_store_of_disjoint {m : Bytes} {a n b k v : ℕ} (h : a + n ≤ b ∨ b + k ≤ a) :
    (m.store b k v).load a n = m.load a n :=
  load_congr fun _ _ _ => store_apply_of_out (by omega)

theorem load_store_same (m : Bytes) (a n v : ℕ) : (m.store a n v).load a n = v % 256^n := by
  induction n generalizing a v m with
  | zero => simp [load, Nat.mod_one]
  | succ n ih =>
    have hhead : (m.store a (n + 1) v a).toNat = v % 256 := by
      simp [store]
    have htail : (m.store a (n + 1) v).load (a + 1) n = (m.store (a + 1) n (v / 256)).load (a + 1) n := by
      apply load_congr
      intro x hx hx'
      unfold store
      rw [if_pos (by omega), if_pos (by omega), Nat.div_div_eq_div_mul, ← pow_succ']
      congr 3
      omega
    simp only [load]
    rw [hhead, htail, ih, pow_succ', Nat.mod_mul]

theorem load_eq_zero {m : Bytes} {a n : ℕ} (h : ∀ x, a ≤ x → x < a + n → m x = 0) :
    m.load a n = 0 := by
  induction n generalizing a with
  | zero => rfl
  | succ n ih =>
    rw [load, h a le_rfl (by omega), ih fun x hx hx' => h x (by omega) (by omega)]
    rfl

/-- `m'` has the bytes of `m` outside the `w`-byte records at the addresses `hs`. -/
def SameOff (w : ℕ) (hs : List ℕ) (m m' : Bytes) : Prop :=
  ∀ a, (∀ h ∈ hs, a < h ∨ h + w ≤ a) → m' a = m a

section SameOff

variable {w : ℕ} {hs gs : List ℕ} {m m' m'' : Bytes}

theorem SameOff.refl (w : ℕ) (hs : List ℕ) (m : Bytes) : SameOff w hs m m := fun _ _ => rfl

/-- The records rewritten by two edits are those of either. -/
theorem SameOff.trans (h : SameOff w hs m m') (h' : SameOff w gs m' m'') :
    SameOff w (hs ++ gs) m m'' := fun a ha =>
  (h' a fun x hx => ha x (List.mem_append_right _ hx)).trans
    (h a fun x hx => ha x (List.mem_append_left _ hx))

theorem SameOff.mono (h : SameOff w hs m m') (hsub : ∀ x ∈ hs, x ∈ gs) : SameOff w gs m m' :=
  fun a ha => h a fun x hx => ha x (hsub x hx)

end SameOff

end Bytes

end RtThread.Lib
