import RtThread.Kernel.Model

/-!
# The password of the shell

The model of `finsh_set_password` and `finsh_wait_auth` in `components/finsh/shell.c`, with the string
functions of `src/kservice.c` that they call. An array of characters is a function of the index, and a
write outside the array of the attempt is the fault `wild`. The function that waits is given the keys
that are typed.

A backspace clears the place behind the cursor and then moves the cursor, so the character that it
deletes stays in the array (`Attempt.stale`) until the next key, and is compared with the password. A
backspace behind a full array clears a byte outside it.
-/

namespace RtThread.Finsh

open Function List

/-- The least length of a password. -/
def FINSH_PASSWORD_MIN : ℕ := 6

/-- `RT_NAME_MAX` -/
def FINSH_PASSWORD_MAX : ℕ := 8

/-! ## The source -/

/-- What `rt_strncpy` writes: the string, and zeros up to the given length. -/
def rtStrncpy (dst : ℕ → UInt8) (src : List UInt8) (n : ℕ) : ℕ → UInt8 := fun i =>
  if i < n then src.getD i 0 else dst i

/-- `rt_strncmp`, whose difference is a signed character. -/
def rtStrncmp : (ℕ → UInt8) → (ℕ → UInt8) → ℕ → ℤ
  | _, _, 0 => 0
  | cs, ct, count + 1 =>
    let res := (cs 0 - ct 0).toInt8.toInt
    if res ≠ 0 ∨ cs 0 = 0 then res else rtStrncmp (fun i => cs (i + 1)) (fun i => ct (i + 1)) count

/-- `finsh_set_password`: a password of another length is refused. -/
def finshSetPassword (stored : ℕ → UInt8) (password : List UInt8) : ℤ × (ℕ → UInt8) :=
  let pw_len := password.length
  if pw_len < FINSH_PASSWORD_MIN ∨ FINSH_PASSWORD_MAX < pw_len then (-RT_ERROR, stored)
  else (RT_EOK, rtStrncpy stored password FINSH_PASSWORD_MAX)

/-- The array that an attempt is typed into, and the cursor. -/
structure Auth where
  password : ℕ → UInt8
  curPos : ℕ

/-- The array is cleared before every attempt. -/
def Auth.init : Auth := { password := fun _ => 0, curPos := 0 }

/-- The characters that are stored. -/
def printable (ch : UInt8) : Prop := 0x20 ≤ ch ∧ ch ≤ 0x7E

instance (ch : UInt8) : Decidable (printable ch) := inferInstanceAs (Decidable (_ ∧ _))

/-- The key that deletes a character. -/
def backspace : UInt8 := 8

/-- The keys that end an attempt. -/
def isEnter (ch : UInt8) : Prop := ch = 13 ∨ ch = 10

instance (ch : UInt8) : Decidable (isEnter ch) := inferInstanceAs (Decidable (_ ∨ _))

/-- A write to the array, which is wild behind its end. -/
def Auth.write (s : Auth) (i : ℕ) (ch : UInt8) : Except Fault Auth :=
  if i < FINSH_PASSWORD_MAX then .ok { s with password := update s.password i ch }
  else .error .wild

/-- The loop of `finsh_wait_auth` on the keys that are typed: `true` is its return. -/
def waitAuth (stored : ℕ → UInt8) : List UInt8 → Auth → Except Fault Bool
  | [], _ => .ok false
  | ch :: keys, s =>
    if printable ch ∧ s.curPos < FINSH_PASSWORD_MAX then do
      let s ← s.write s.curPos ch
      waitAuth stored keys { s with curPos := s.curPos + 1 }
    else if ch = backspace ∧ 0 < s.curPos then do
      let s ← s.write s.curPos 0
      waitAuth stored keys { s with curPos := s.curPos - 1 }
    else if isEnter ch then
      if rtStrncmp stored s.password FINSH_PASSWORD_MAX = 0 then .ok true
      else waitAuth stored keys Auth.init
    else waitAuth stored keys s

/-- `finsh_wait_auth`. A password of length zero is none. -/
def finshWaitAuth (stored : ℕ → UInt8) (keys : List UInt8) : Except Fault Bool :=
  if stored 0 = 0 then .ok true else waitAuth stored keys Auth.init

/-! ## Attempts -/

/-- The keys of the attempts that have been entered; `acc` are those of the current one so far. -/
def attemptsFrom : List UInt8 → List UInt8 → List (List UInt8)
  | _, [] => []
  | acc, ch :: keys =>
    if isEnter ch then acc :: attemptsFrom [] keys else attemptsFrom (acc ++ [ch]) keys

variable (keys : List UInt8)

/-- The keys of the attempts that an input consists of. -/
def attempts : List (List UInt8) := attemptsFrom [] keys

/-- An attempt: its text, the character that its last key has deleted, and whether a backspace has been
typed behind a full array. -/
structure Attempt where
  text : List UInt8
  stale : List UInt8
  overrun : Bool
  deriving DecidableEq

namespace Attempt

/-- The attempt before its first key. -/
def none : Attempt := { text := [], stale := [], overrun := false }

/-- A key that is typed. Characters that do not fit are ignored, and so are all other keys. -/
def press (a : Attempt) (ch : UInt8) : Attempt :=
  if printable ch ∧ a.text.length < FINSH_PASSWORD_MAX then
    { a with text := a.text ++ [ch], stale := [] }
  else if ch = backspace ∧ a.text ≠ [] then
    { text := a.text.dropLast, stale := a.text.drop (a.text.length - 1),
      overrun := a.overrun || decide (a.text.length = FINSH_PASSWORD_MAX) }
  else a

/-- What an attempt is compared as. -/
def left (a : Attempt) : List UInt8 := a.text ++ a.stale

end Attempt

/-- What the keys of an attempt leave. -/
def attemptOf : Attempt := keys.foldl Attempt.press .none

/-- An attempt is compared as the password, and no attempt up to it writes outside the array. -/
def Admitted (password : List UInt8) : List (List UInt8) → Prop
  | [] => False
  | keys :: rest =>
    (attemptOf keys).overrun = false ∧ ((attemptOf keys).left = password ∨ Admitted password rest)

/-! ## The comparison -/

/-- A text with zeros behind. -/
def padded (s : List UInt8) : ℕ → UInt8 := fun i => s.getD i 0

theorem toInt8_toInt_eq_zero_iff {a b : UInt8} : (a - b).toInt8.toInt = 0 ↔ a = b := by
  have hzero : (a - b).toInt8.toInt = 0 ↔ a - b = 0 := by
    generalize a - b = c
    constructor
    · intro h
      have hc : c.toInt8 = (0 : UInt8).toInt8 := Int8.toInt_inj.mp h
      exact congrArg Int8.toUInt8 hc
    · rintro rfl
      rfl
  rw [hzero]
  constructor
  · intro h
    rw [← UInt8.sub_add_cancel a b, h, UInt8.zero_add]
  · rintro rfl
    exact UInt8.sub_self a

theorem rtStrncmp_succ_eq_zero_iff {cs ct : ℕ → UInt8} {n : ℕ} : rtStrncmp cs ct (n + 1) = 0 ↔
    cs 0 = ct 0 ∧ (cs 0 = 0 ∨ rtStrncmp (fun i => cs (i + 1)) (fun i => ct (i + 1)) n = 0) := by
  rw [rtStrncmp]
  by_cases heq : cs 0 = ct 0
  · have hres : (cs 0 - ct 0).toInt8.toInt = 0 := toInt8_toInt_eq_zero_iff.mpr heq
    by_cases hend : cs 0 = 0
    · rw [if_pos (.inr hend)]
      exact ⟨fun _ => ⟨heq, .inl hend⟩, fun _ => hres⟩
    · simp only [hres, hend, ne_eq, not_true_eq_false, or_self, if_false, false_or]
      exact ⟨fun h => ⟨heq, h⟩, And.right⟩
  · have hres : (cs 0 - ct 0).toInt8.toInt ≠ 0 := fun h => heq (toInt8_toInt_eq_zero_iff.mp h)
    simp only [hres, ne_eq, not_false_eq_true, true_or, if_true, heq, false_and]

theorem rtStrncmp_padded_eq_zero_iff {s t : List UInt8} {n : ℕ} (hs : 0 ∉ s) (ht : 0 ∉ t)
    (hsn : s.length ≤ n) (htn : t.length ≤ n) : rtStrncmp (padded s) (padded t) n = 0 ↔ s = t := by
  induction n generalizing s t with
  | zero =>
    have hs' : s = [] := length_eq_zero_iff.mp (by omega)
    have ht' : t = [] := length_eq_zero_iff.mp (by omega)
    simp [rtStrncmp, hs', ht']
  | succ n ih =>
    rw [rtStrncmp_succ_eq_zero_iff]
    cases s with
    | nil =>
      cases t with
      | nil => simp [padded]
      | cons d t =>
        have hd : d ≠ 0 := fun h => ht (h ▸ mem_cons_self)
        simp [padded, hd.symm]
    | cons c s =>
      have hc : c ≠ 0 := fun h => hs (h ▸ mem_cons_self)
      cases t with
      | nil => simp [padded, hc]
      | cons d t =>
        have ih := ih (fun h => hs (mem_cons_of_mem _ h))
          (fun h => ht (mem_cons_of_mem _ h)) (by simpa using hsn) (by simpa using htn)
        change c = d ∧ (c = 0 ∨ rtStrncmp (padded s) (padded t) n = 0) ↔ _
        simp [hc, ih]

/-! ## The array holds the attempt -/

/-- The array holds the text of the attempt, the character deleted last, and zeros. -/
structure HoldsAttempt (a : Attempt) (s : Auth) : Prop where
  curPos : s.curPos = a.text.length
  password : ∀ i < FINSH_PASSWORD_MAX, s.password i = padded a.left i
  length : a.left.length ≤ FINSH_PASSWORD_MAX
  nonzero : 0 ∉ a.left
  stale : a.stale.length ≤ 1

theorem holdsAttempt_init : HoldsAttempt .none Auth.init where
  curPos := rfl
  password := fun i _ => by simp [Auth.init, padded, Attempt.none, Attempt.left]
  length := Nat.zero_le _
  nonzero := by simp [Attempt.none, Attempt.left]
  stale := Nat.zero_le _

theorem printable.ne_zero {ch : UInt8} (h : printable ch) : ch ≠ 0 := by
  rintro rfl
  exact absurd h.1 (by decide)

variable {a : Attempt} {s : Auth}

theorem HoldsAttempt.type {ch : UInt8} (h : HoldsAttempt a s) (hch : printable ch)
    (hfits : a.text.length < FINSH_PASSWORD_MAX) :
    HoldsAttempt { a with text := a.text ++ [ch], stale := [] }
      { password := update s.password s.curPos ch, curPos := s.curPos + 1 } where
  curPos := by simp [h.curPos]
  password := by
    intro i hi
    have hold := h.password i hi
    have hstale := h.stale
    simp only [padded, Attempt.left, append_nil, getD_eq_getElem?_getD] at hold ⊢
    rw [h.curPos]
    rcases Nat.lt_trichotomy i a.text.length with hlt | rfl | hgt
    · rw [update_of_ne (by omega), hold, getElem?_append_left hlt,
        getElem?_append_left hlt]
    · simp
    · rw [update_of_ne (by omega), hold, getElem?_eq_none (by simp; omega),
        getElem?_eq_none (by simp; omega)]
  length := by
    simp [Attempt.left]
    omega
  nonzero := by
    have hnonzero := h.nonzero
    simp only [Attempt.left, mem_append, not_or] at hnonzero
    simp [Attempt.left, hnonzero.1, hch.ne_zero.symm]
  stale := Nat.zero_le _

theorem HoldsAttempt.delete {b : Bool} (h : HoldsAttempt a s) :
    HoldsAttempt { text := a.text.dropLast, stale := a.text.drop (a.text.length - 1), overrun := b }
      { password := update s.password s.curPos 0, curPos := s.curPos - 1 } := by
  have hleft : a.text.dropLast ++ a.text.drop (a.text.length - 1) = a.text := by
    rw [dropLast_eq_take, take_append_drop]
  have hlength := h.length
  have hnonzero := h.nonzero
  simp only [Attempt.left, length_append, mem_append, not_or] at hlength hnonzero
  constructor
  · simp [h.curPos]
  · intro i hi
    have hold := h.password i hi
    have hstale := h.stale
    simp only [padded, Attempt.left, hleft, getD_eq_getElem?_getD] at hold ⊢
    rw [h.curPos]
    rcases Nat.lt_trichotomy i a.text.length with hlt | rfl | hgt
    · rw [update_of_ne (by omega), hold, getElem?_append_left hlt]
    · simp
    · rw [update_of_ne (by omega), hold, getElem?_eq_none (by simp; omega),
        getElem?_eq_none (by omega)]
  · simp only [Attempt.left, hleft]
    omega
  · simpa only [Attempt.left, hleft] using hnonzero.1
  · simp only [length_drop]
    omega

theorem rtStrncmp_congr {cs cs' ct ct' : ℕ → UInt8} {n : ℕ} (hcs : ∀ i < n, cs i = cs' i)
    (hct : ∀ i < n, ct i = ct' i) : rtStrncmp cs ct n = rtStrncmp cs' ct' n := by
  induction n generalizing cs cs' ct ct' with
  | zero => rfl
  | succ n ih =>
    rw [rtStrncmp, rtStrncmp, hcs 0 (by omega), hct 0 (by omega),
      ih (fun i hi => hcs (i + 1) (by omega)) (fun i hi => hct (i + 1) (by omega))]

variable {stored : ℕ → UInt8} {password : List UInt8}

theorem HoldsAttempt.rtStrncmp_eq_zero_iff (h : HoldsAttempt a s)
    (hstored : ∀ i < FINSH_PASSWORD_MAX, stored i = padded password i) (hnonzero : 0 ∉ password)
    (hlength : password.length ≤ FINSH_PASSWORD_MAX) :
    rtStrncmp stored s.password FINSH_PASSWORD_MAX = 0 ↔ a.left = password := by
  rw [rtStrncmp_congr hstored h.password,
    rtStrncmp_padded_eq_zero_iff hnonzero h.nonzero hlength h.length, eq_comm]

/-! ## Whole inputs -/

theorem attemptOf_append (ch : UInt8) : attemptOf (keys ++ [ch]) = (attemptOf keys).press ch := by
  rw [attemptOf, foldl_append]
  rfl

theorem overrun_press (h : a.overrun = true) (ch : UInt8) : (a.press ch).overrun = true := by
  unfold Attempt.press
  split
  · exact h
  · split
    · simp [h]
    · exact h

theorem not_admitted_of_overrun {password acc : List UInt8} (h : (attemptOf acc).overrun = true)
    (keys : List UInt8) : ¬ Admitted password (attemptsFrom acc keys) := by
  induction keys generalizing acc with
  | nil => exact id
  | cons ch keys ih =>
    rw [attemptsFrom]
    split
    · rintro ⟨hno, -⟩
      rw [h] at hno
      cases hno
    · apply ih
      rw [attemptOf_append]
      exact overrun_press h ch

section Wait

variable {stored : ℕ → UInt8} {password : List UInt8}
  (hstored : ∀ i < FINSH_PASSWORD_MAX, stored i = padded password i) (hnonzero : 0 ∉ password)
  (hlength : password.length ≤ FINSH_PASSWORD_MAX)

include hstored hnonzero hlength

/-- From an attempt under way, the wait ends exactly if an attempt is admitted. -/
theorem waitAuth_iff (acc : List UInt8) (h : HoldsAttempt (attemptOf acc) s)
    (hover : (attemptOf acc).overrun = false) (keys : List UInt8) :
    waitAuth stored keys s = .ok true ↔ Admitted password (attemptsFrom acc keys) := by
  induction keys generalizing acc s with
  | nil => simp [waitAuth, attemptsFrom, Admitted]
  | cons ch keys ih =>
    have hcur := h.curPos
    have hnext := attemptOf_append acc ch
    rw [waitAuth, attemptsFrom]
    by_cases htype : printable ch ∧ s.curPos < FINSH_PASSWORD_MAX
    · -- A character that fits.
      have hpress : (attemptOf acc).press ch =
          { attemptOf acc with text := (attemptOf acc).text ++ [ch], stale := [] } :=
        if_pos ⟨htype.1, hcur ▸ htype.2⟩
      have henter : ¬ isEnter ch := by
        rintro (rfl | rfl) <;> exact absurd htype.1.1 (by decide)
      rw [if_pos htype, if_neg henter, Auth.write, if_pos htype.2]
      rw [hpress] at hnext
      apply ih
      · rw [hnext]
        exact h.type htype.1 (hcur ▸ htype.2)
      · rw [hnext]
        exact hover
    rw [if_neg htype]
    by_cases hback : ch = backspace ∧ 0 < s.curPos
    · -- A backspace: the deleted character stays in the array.
      have htext : (attemptOf acc).text ≠ [] := by
        rw [← length_pos_iff_ne_nil, ← hcur]
        exact hback.2
      have hpress : (attemptOf acc).press ch = _ :=
        (if_neg fun h => htype (hcur ▸ h)).trans (if_pos ⟨hback.1, htext⟩)
      have henter : ¬ isEnter ch := by
        rw [hback.1]
        decide
      rw [if_pos hback, if_neg henter, Auth.write]
      rw [hpress] at hnext
      by_cases hfull : s.curPos < FINSH_PASSWORD_MAX
      · rw [if_pos hfull]
        apply ih
        · rw [hnext]
          exact h.delete
        · rw [hnext]
          simp [hover, ← hcur, Nat.ne_of_lt hfull]
      · -- The place behind the cursor is outside the array.
        rw [if_neg hfull]
        have hle := h.length
        simp only [Attempt.left, length_append, ← hcur] at hle
        have hoverrun : (attemptOf (acc ++ [ch])).overrun = true := by
          rw [hnext]
          simp [← hcur, show s.curPos = FINSH_PASSWORD_MAX by omega]
        constructor
        · intro hok
          cases hok
        · intro hadmitted
          exact absurd hadmitted (not_admitted_of_overrun hoverrun keys)
    rw [if_neg hback]
    by_cases henter : isEnter ch
    · -- Enter: the whole array is compared.
      rw [if_pos henter, if_pos henter, Admitted,
        ← h.rtStrncmp_eq_zero_iff hstored hnonzero hlength]
      split
      · next hequal => simp [hequal, hover]
      · next hdiffer => simp [hdiffer, hover, ih [] holdsAttempt_init rfl]
    · -- Any other key.
      have hpress : (attemptOf acc).press ch = attemptOf acc := by
        refine (if_neg fun h => htype (hcur ▸ h)).trans (if_neg fun h => hback ⟨h.1, ?_⟩)
        rw [hcur]
        exact length_pos_iff_ne_nil.mpr h.2
      rw [if_neg henter, if_neg henter]
      apply ih
      · rw [hnext, hpress]
        exact h
      · rw [hnext, hpress]
        exact hover

end Wait

theorem finshSetPassword_eok (h : (finshSetPassword stored password).1 = RT_EOK) :
    FINSH_PASSWORD_MIN ≤ password.length ∧ password.length ≤ FINSH_PASSWORD_MAX ∧
      ∀ i < FINSH_PASSWORD_MAX, (finshSetPassword stored password).2 i = padded password i := by
  unfold finshSetPassword at h ⊢
  by_cases hbad : password.length < FINSH_PASSWORD_MIN ∨ FINSH_PASSWORD_MAX < password.length
  · rw [if_pos hbad] at h
    exact absurd (show -RT_ERROR = RT_EOK from h) (by decide)
  · refine ⟨by omega, by omega, ?_⟩
    intro i hi
    rw [if_neg hbad]
    exact if_pos hi

theorem admitted_iff {l : List (List UInt8)} (hstale : ∀ a ∈ l, (attemptOf a).stale = [])
    (hover : ∀ a ∈ l, (attemptOf a).overrun = false) :
    Admitted password l ↔ ∃ a ∈ l, (attemptOf a).text = password := by
  induction l with
  | nil => simp [Admitted]
  | cons keys rest ih =>
    obtain ⟨hstale, hstales⟩ := forall_mem_cons.mp hstale
    obtain ⟨hover, hovers⟩ := forall_mem_cons.mp hover
    rw [Admitted, ih hstales hovers, Attempt.left, hstale, append_nil]
    simp [hover]

end RtThread.Finsh
