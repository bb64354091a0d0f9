import RtThread.Kservice.FormatText

/-!
# The buffer of `rt_vsnprintf`

What a call stores is the text that its pieces render, cut at the end of the buffer, with a NUL behind
it (`Stores`). Two things keep this from being the start of the full text.

The pointer `str` goes on counting behind the end of the buffer. Where it passes the end of the address
space it is below the end of the buffer again, and the characters are stored from address 0 on. The
sign of a number is counted against the width only if it is stored, so a number whose sign is behind
the end of the buffer, and that has padding behind the sign, has one character more.
-/

namespace RtThread.Kservice

open Lib Function List Nat

/-- The offsets in the full text of the signs that have padding behind them. -/
def paddedSigns (e : Env) (fmt : List Char) : List ℕ := marks 0 (pieces e fmt)

/-! ## What a call stores -/

section

variable {buf size : ℕ}

theorem lastOf_fits (hsize : 1 ≤ size) (hfits : buf + size ≤ 2^32) : lastOf buf size = buf + size - 1 := by
  unfold lastOf sub32 add32
  dsimp only
  split_ifs
  · omega
  · omega

theorem lastOf_wraps (hbuf : buf < 2^32) (hsize : size < 2^32) (hwraps : 2^32 < buf + size) :
    lastOf buf size = 2^32 - 1 := by
  unfold lastOf sub32 add32
  rw [if_pos (by omega)]

theorem lastOf_lt (buf size : ℕ) : lastOf buf size < 2^32 := by
  unfold lastOf sub32
  dsimp only
  split_ifs
  · omega
  · exact mod_lt _ (by norm_num)

end

/-- The call has stored the text `l` up to the address `last`, and a NUL behind it or at `last`. -/
structure Stores (c : Call) (buf last : ℕ) (l : List Char) : Prop where
  ret : c.ret = toInt32 l.length
  term : c.term = if add32 buf l.length ≤ last then add32 buf l.length else last
  nul : c.mem c.term = some '\x00'
  mem : ∀ x < 2^32, x ≠ c.term → c.mem x = if x ≤ last then l[sub32 x buf]? else none
  outside : ∀ x, 2^32 ≤ x → c.mem x = none

variable {e : Env} {buf size : ℕ} {fmt : List Char}

theorem rtVsnprintf_stores (hbuf : buf < 2^32) (hlen : (rendered e buf size fmt).length < 2^32) :
    Stores (rtVsnprintf e buf size fmt) buf (lastOf buf size) (rendered e buf size fmt) := by
  have hlast : lastOf buf size < 2^32 := lastOf_lt buf size
  rw [rtVsnprintf_eq e fmt hbuf]
  generalize rendered e buf size fmt = l at hlen
  generalize lastOf buf size = last at hlast
  have hstr : (Out.puts last ⟨buf, fun _ => none⟩ l).str = add32 buf l.length := Out.str_puts _ l hbuf
  have hdist : sub32 (add32 buf l.length) buf = l.length := by
    unfold sub32 add32
    omega
  dsimp only
  rw [hstr, hdist]
  refine ⟨by dsimp only, rfl, ?_, ?_, ?_⟩
  · exact update_self _ _ _
  · intro x hx hne
    exact (update_of_ne hne _ _).trans (Out.mem_puts hbuf hx (le_of_lt hlen))
  · intro x hx
    have hne : x ≠ if add32 buf l.length ≤ last then add32 buf l.length else last := by
      split_ifs
      · omega
      · omega
    exact (update_of_ne hne _ _).trans (Out.mem_puts_of_le hbuf hx l)

namespace Stores

variable {c : Call} {buf last : ℕ} {l : List Char}

theorem written (h : Stores c buf last l) {x : ℕ} (hx : x < 2^32) (hle : x ≤ last)
    (hlen : sub32 x buf < l.length) : c.mem x ≠ none := by
  by_cases hterm : x = c.term
  · rw [hterm, h.nul]
    exact Option.some_ne_none _
  · rw [h.mem x hx hterm, if_pos hle, getElem?_eq_getElem hlen]
    exact Option.some_ne_none _

theorem of_written (h : Stores c buf last l) {x : ℕ} (hx : c.mem x ≠ none) :
    x = c.term ∨ x < 2^32 ∧ x ≤ last ∧ sub32 x buf < l.length := by
  by_cases hterm : x = c.term
  · exact .inl hterm
  · refine .inr ?_
    have hlt : x < 2^32 := by
      by_contra hnot
      exact hx (h.outside x (by omega))
    rw [h.mem x hlt hterm] at hx
    split_ifs at hx with hle
    · refine ⟨hlt, hle, ?_⟩
      by_contra hnot
      exact hx (getElem?_eq_none (by omega))
    · exact absurd rfl hx

end Stores

section

variable {e : Env} {fmt : List Char} {buf size : ℕ}

section

variable (htext : (fullText e fmt).length < 2^31)
include htext

theorem length_rendered_le : (rendered e buf size fmt).length ≤ 2 * (fullText e fmt).length := by
  have hreg := pieces_regular htext
  have hmarks : (marks 0 (pieces e fmt)).length ≤ (fullText e fmt).length := length_marks_le hreg
  have hle : (rendered e buf size fmt).length ≤ (fullText e fmt).length + (marks 0 (pieces e fmt)).length :=
    length_render_le hreg
  omega

theorem lt_of_mem_paddedSigns {m : ℕ}
    (hm : m ∈ paddedSigns e fmt) : m < (fullText e fmt).length := by
  have hlt := lt_of_mem_marks (pieces_regular htext) hm
  rwa [zero_add] at hlt

theorem rendered_window (hsize : 1 ≤ size)
    (hfits : buf + size ≤ 2^32) : (rendered e buf size fmt).length =
        (fullText e fmt).length + (paddedSigns e fmt).countP (size ≤ ·) ∨
      2^32 ≤ buf + (rendered e buf size fmt).length ∧
        2^32 ≤ buf + ((fullText e fmt).length + (paddedSigns e fmt).countP (size ≤ ·)) := by
  have hroom : ∀ k < 2^32 - buf, decide (add32 buf k ≤ lastOf buf size) = decide (k < size) := by
    intro k hk
    rw [lastOf_fits hsize hfits]
    unfold add32
    rw [mod_eq_of_lt (by omega)]
    exact decide_eq_decide.mpr (by omega)
  have hwindow : (render (fun k => decide (k < size)) 0 (pieces e fmt)).length =
      (fullText e fmt).length + (paddedSigns e fmt).countP (size ≤ ·) :=
    length_render (pieces_regular htext) (le_refl 0) (.inl rfl)
  rcases render_congr hroom with heq | ⟨hreal, hideal⟩
  · refine .inl ?_
    rw [← hwindow, ← heq]
    rfl
  · refine .inr ⟨?_, ?_⟩
    · unfold rendered
      omega
    · rw [← hwindow]
      omega

end

end

/-! ## Containment -/

/-- Only bytes of the buffer are written, and one of them is a NUL. -/
def Contained (c : Call) (buf size : ℕ) : Prop :=
  (∀ x, c.mem x ≠ none → buf ≤ x ∧ x < buf + size) ∧
    ∃ x, buf ≤ x ∧ x < buf + size ∧ c.mem x = some '\x00'

variable {c : Call} {l : List Char}

theorem Stores.contained (hsize : 1 ≤ size)
    (h : Stores c buf (buf + size - 1) l) (hlen : buf + l.length < 2^32) :
    Contained c buf size := by
  have hstr : add32 buf l.length = buf + l.length := mod_eq_of_lt hlen
  have hterm : buf ≤ c.term ∧ c.term < buf + size := by
    rw [h.term, hstr]
    split_ifs
    · omega
    · omega
  refine ⟨fun x hx => ?_, c.term, hterm.1, hterm.2, h.nul⟩
  rcases h.of_written hx with rfl | ⟨hlt, hle, hdist⟩
  · exact hterm
  · unfold sub32 at hdist
    omega

theorem Stores.not_contained (hbuf : buf < 2^32)
    (h : Stores c buf (buf + size - 1) l) (hpos : 0 < buf)
    (hlen : 2^32 ≤ buf + l.length) : ¬Contained c buf size := by
  intro hcontained
  have hzero : c.mem 0 ≠ none := by
    have hdist : sub32 0 buf = 2^32 - buf := by
      unfold sub32
      omega
    rcases eq_or_lt_of_le hlen with heq | hlt
    · -- The text ends there, and the NUL is at address 0.
      have hstr : add32 buf l.length = 0 := by
        unfold add32
        rw [← heq, mod_self]
      have hterm : c.term = 0 := by
        rw [h.term, hstr, if_pos (zero_le _)]
      rw [← hterm, h.nul]
      exact Option.some_ne_none _
    · exact h.written (by norm_num) (zero_le _) (by omega)
  have hle := (hcontained.1 0 hzero).1
  omega

/-- A call stays in its buffer exactly if the text, with one more character for every padded sign behind
the end of the buffer, ends before the end of the address space. -/
theorem vsnprintf_contained_iff (e : Env) (fmt : List Char) {buf size : ℕ}
    (htext : (fullText e fmt).length < 2^31) (hsize : 1 ≤ size) (hsize' : size < 2^31)
    (hfits : buf + size ≤ 2^32) : Contained (rtVsnprintf e buf size fmt) buf size ↔
      buf + (fullText e fmt).length + (paddedSigns e fmt).countP (size ≤ ·) < 2^32 := by
  have hbuf : buf < 2^32 := by omega
  have hlen : (rendered e buf size fmt).length ≤ 2 * (fullText e fmt).length := length_rendered_le htext
  have hstores := rtVsnprintf_stores hbuf (show (rendered e buf size fmt).length < 2^32 by omega)
  rw [lastOf_fits hsize hfits] at hstores
  have hwindow := rendered_window htext hsize hfits
  constructor
  · intro hcontained
    by_contra hnot
    have hreach : 2^32 ≤ buf + (rendered e buf size fmt).length := by omega
    exact hstores.not_contained hbuf (by omega) hreach hcontained
  · intro hends
    exact hstores.contained hsize (by omega)

/-- The environment of a call without arguments. -/
def noArgs : Env := ⟨false, fun _ => 0, fun _ => []⟩

/-- Three characters in a buffer of two. -/
theorem vsnprintf_contained_abc :
    Contained (rtVsnprintf noArgs 0x20000000 2 "abc".toList) 0x20000000 2 :=
  (vsnprintf_contained_iff noArgs "abc".toList (by decide) (by decide) (by decide) (by decide)).mpr
    (by decide)

/-- Twenty characters from sixteen bytes below the end of the address space on. -/
theorem vsnprintf_wraps :
    (fullText noArgs (replicate 20 'a')).length < 2^31 ∧ 0xfffffff0 + 8 < 2^32 ∧
      ¬Contained (rtVsnprintf noArgs 0xfffffff0 8 (replicate 20 'a')) 0xfffffff0 8 := by
  refine ⟨by decide, by decide, fun h => ?_⟩
  have hzero : (rtVsnprintf noArgs 0xfffffff0 8 (replicate 20 'a')).mem 0 ≠ none := by decide
  exact absurd (h.1 0 hzero).1 (by decide)

/-! ## Truncation -/

/-- The bytes before the last NUL. -/
def Call.text (c : Call) (buf : ℕ) : List (Option Char) :=
  (range (sub32 c.term buf)).map fun i => c.mem (add32 buf i)

/-- Two calls with buffers of two sizes return the length of the full text, and the smaller buffer has
the start of the text in the other; a buffer of size 0 is not written. -/
structure Truncates (e : Env) (fmt : List Char) (buf s₁ s₂ : ℕ) : Prop where
  ret₁ : (rtVsnprintf e buf s₁ fmt).ret = (fullText e fmt).length
  ret₂ : (rtVsnprintf e buf s₂ fmt).ret = (fullText e fmt).length
  empty : s₁ = 0 → ∀ x, (rtVsnprintf e buf s₁ fmt).mem x = none
  text : 1 ≤ s₁ →
    (rtVsnprintf e buf s₁ fmt).text buf = ((rtVsnprintf e buf s₂ fmt).text buf).take (s₁ - 1)

theorem toInt32_lt (w : ℕ) : toInt32 w < 2^31 := (wrap_bounds w).2

theorem toInt32_small {n : ℕ} (h : n < 2^31) : toInt32 n = n := wrap_eq (by omega) (by omega)

theorem of_toInt32_eq {n k : ℕ} (hn : n < 2^32) (h : toInt32 n = k) : n = k ∧ k < 2^31 := by
  have hbounds := wrap_bounds n
  have hwrap : wrap n = k := h
  rw [hwrap] at hbounds
  by_cases hsmall : n < 2^31
  · rw [toInt32_small hsmall] at h
    omega
  · have hsub : wrap ((n : ℤ) - 2^32) = wrap n := by
      exact Int.sub_bmod_right n (2^32)
    rw [wrap_eq (by omega) (by omega), hwrap] at hsub
    omega

section

variable {e : Env} {fmt : List Char} {buf size : ℕ}

theorem length_text (c : Call) : (c.text buf).length = sub32 c.term buf := by
  unfold Call.text
  rw [length_map, length_range]

theorem getElem_text (c : Call) {i : ℕ} (hi : i < (c.text buf).length) :
    (c.text buf)[i] = c.mem (add32 buf i) := by
  simp only [Call.text, getElem_map, getElem_range]

/-- The text in the buffer is the start of the text that is rendered. -/
theorem Stores.text_eq (hbuf : buf < 2^32) (hsize : 1 ≤ size)
    (hsize' : size < 2^32) (h : Stores c buf (lastOf buf size) l) (hlen : l.length < 2^32)
    (hends : l.length < size ∨ buf + l.length < 2^32) :
    c.text buf = (l.take (size - 1)).map some := by
  -- The NUL is behind the text or behind `size - 1` characters.
  have hbelow : ∀ i < min l.length (size - 1), add32 buf i ≤ lastOf buf size := by
    intro i hi
    by_cases hfits : buf + size ≤ 2^32
    · rw [lastOf_fits hsize hfits]
      unfold add32
      omega
    · rw [lastOf_wraps hbuf hsize' (by omega)]
      have hlt := add32_lt buf i
      omega
  have hterm : c.term = add32 buf (min l.length (size - 1)) := by
    rw [h.term]
    by_cases hfits : buf + size ≤ 2^32
    · rw [lastOf_fits hsize hfits]
      unfold add32
      split_ifs
      · omega
      · omega
    · have hlt := add32_lt buf l.length
      rw [lastOf_wraps hbuf hsize' (by omega), if_pos (by omega), min_eq_left (by omega)]
  have hdist : sub32 c.term buf = min l.length (size - 1) := by
    rw [hterm]
    unfold sub32 add32
    omega
  have hlength : (c.text buf).length = ((l.take (size - 1)).map some).length := by
    rw [length_text, hdist, length_map, length_take, min_comm]
  refine ext_getElem hlength fun i hi hi' => ?_
  rw [length_text, hdist] at hi
  have hne : add32 buf i ≠ c.term := by
    rw [hterm]
    unfold add32
    omega
  have hback : sub32 (add32 buf i) buf = i := by
    unfold sub32 add32
    omega
  rw [getElem_text, h.mem _ (add32_lt _ _) hne, if_pos (hbelow i hi), hback,
    getElem_map, getElem_take, getElem?_eq_getElem (by omega)]

theorem Stores.lt_of_cut (hbuf : buf < 2^32) (hsize : 1 ≤ size)
    (hsize' : size < 2^32) (h : Stores c buf (lastOf buf size) l) (hlen : l.length < 2^32)
    (hcut : (c.text buf).length < l.length) : buf + size ≤ 2^32 ∧ buf + l.length < 2^32 := by
  rw [length_text, h.term] at hcut
  have hbehind : ¬add32 buf l.length ≤ lastOf buf size := by
    intro hle
    rw [if_pos hle] at hcut
    unfold sub32 add32 at hcut
    omega
  have hfits : buf + size ≤ 2^32 := by
    by_contra hnot
    rw [lastOf_wraps hbuf hsize' (by omega)] at hbehind
    have hlt := add32_lt buf l.length
    omega
  rw [lastOf_fits hsize hfits] at hbehind
  unfold add32 at hbehind
  omega

end

theorem rtVsnprintf_output {s₁ : ℕ} (hbuf : buf < 2^32)
    (hs₁ : 1 ≤ s₁) (hle : s₁ ≤ size) (hsize : size < 2^32) (htext : (fullText e fmt).length < 2^31)
    (hends : (fullText e fmt).length < s₁ ∨
      buf + (fullText e fmt).length < 2^32 ∧ ∀ m ∈ paddedSigns e fmt, m < s₁) :
    (rtVsnprintf e buf size fmt).ret = (fullText e fmt).length ∧
      (rtVsnprintf e buf size fmt).text buf = ((fullText e fmt).take (size - 1)).map some := by
  have hroom : ∀ m ∈ paddedSigns e fmt, add32 buf m ≤ lastOf buf size := by
    intro m hm
    have hlt := lt_of_mem_paddedSigns htext hm
    have hmlt : m < s₁ := by
      rcases hends with hshort | ⟨-, hsigns⟩
      · omega
      · exact hsigns m hm
    by_cases hfits : buf + size ≤ 2^32
    · rw [lastOf_fits (by omega) hfits]
      unfold add32
      omega
    · rw [lastOf_wraps hbuf hsize (by omega)]
      have hlt' := add32_lt buf m
      omega
  have hfull : rendered e buf size fmt = fullText e fmt :=
    render_eq_full (pieces_regular htext) fun m hm => decide_eq_true (hroom m hm)
  have hstores : Stores (rtVsnprintf e buf size fmt) buf (lastOf buf size) (fullText e fmt) :=
    hfull ▸ rtVsnprintf_stores hbuf (by rw [hfull]; omega)
  refine ⟨?_, ?_⟩
  · rw [hstores.ret, toInt32_small htext]
  · exact hstores.text_eq hbuf (by omega) hsize (by omega) (by omega)

/-- Two buffer sizes agree exactly if the smaller one is not 0, the length of the full text is an `int`,
and the text fits into the smaller buffer, or it ends in the address space and every padded sign is
within the smaller size. -/
theorem vsnprintf_truncates_iff (e : Env) (fmt : List Char) {buf s₁ s₂ : ℕ} (hbuf : buf < 2^32)
    (hle : s₁ ≤ s₂) (hs₂ : s₂ < 2^32) : Truncates e fmt buf s₁ s₂ ↔
      1 ≤ s₁ ∧ (fullText e fmt).length < 2^31 ∧ ((fullText e fmt).length < s₁ ∨
          buf + (fullText e fmt).length < 2^32 ∧ ∀ m ∈ paddedSigns e fmt, m < s₁) := by
  constructor
  · intro h
    have htext : (fullText e fmt).length < 2^31 := by
      have hret : (rtVsnprintf e buf s₁ fmt).ret < 2^31 := by
        unfold rtVsnprintf
        dsimp only
        exact toInt32_lt _
      rw [h.ret₁] at hret
      omega
    have hle₁ : (rendered e buf s₁ fmt).length ≤ 2 * (fullText e fmt).length := length_rendered_le htext
    have hstores := rtVsnprintf_stores hbuf (show (rendered e buf s₁ fmt).length < 2^32 by omega)
    have hpos : 1 ≤ s₁ := by
      by_contra hnot
      have hnone := h.empty (by omega) (rtVsnprintf e buf s₁ fmt).term
      rw [hstores.nul] at hnone
      exact absurd hnone (Option.some_ne_none _)
    have hsame : (rendered e buf s₁ fmt).length = (fullText e fmt).length :=
      (of_toInt32_eq (by omega) (hstores.ret ▸ h.ret₁)).1
    refine ⟨hpos, htext, ?_⟩
    by_contra hnot
    obtain ⟨hlong, hsigns⟩ := not_or.mp hnot
    have hcut : ((rtVsnprintf e buf s₁ fmt).text buf).length < (rendered e buf s₁ fmt).length := by
      rw [h.text hpos, length_take]
      omega
    obtain ⟨hfits, hends⟩ := hstores.lt_of_cut hbuf hpos (by omega) (by omega) hcut
    have hcount : (paddedSigns e fmt).countP (s₁ ≤ ·) = 0 := by
      have hwindow := rendered_window htext hpos hfits
      omega
    refine hsigns ⟨by omega, fun m hm => ?_⟩
    have hsign := countP_eq_zero.mp hcount m hm
    rw [decide_eq_true_eq] at hsign
    omega
  · rintro ⟨hpos, htext, hends⟩
    obtain ⟨hret₁, htext₁⟩ := rtVsnprintf_output hbuf hpos (le_refl s₁) (by omega) htext hends
    obtain ⟨hret₂, htext₂⟩ := rtVsnprintf_output hbuf hpos hle hs₂ htext hends
    refine ⟨hret₁, hret₂, fun hzero => absurd hzero (by omega), fun _ => ?_⟩
    rw [htext₁, htext₂, ← map_take, take_take, min_eq_left (by omega)]

/-- The environment of a call with one argument. -/
def oneArg (w : ℕ) : Env := ⟨false, fun _ => w, fun _ => []⟩

/-- A number that is cut behind its sign. -/
theorem vsnprintf_truncates_number : Truncates (oneArg (2^32 - 1)) "ab%05d".toList 0x20000000 3 100 :=
  (vsnprintf_truncates_iff (oneArg (2^32 - 1)) "ab%05d".toList (by decide) (by decide) (by decide)).mpr
    (by decide)

/-- With a size of 1, the length of `ab-0001` is 8. -/
theorem vsnprintf_counts_sign : (fullText (oneArg (2^32 - 1)) "ab%05d".toList).length = 7 ∧
      (rtVsnprintf (oneArg (2^32 - 1)) 0x20000000 1 "ab%05d".toList).ret = 8 ∧
      ¬Truncates (oneArg (2^32 - 1)) "ab%05d".toList 0x20000000 1 100 := by
  have hlen : (fullText (oneArg (2^32 - 1)) "ab%05d".toList).length = 7 := by decide
  have hret : (rtVsnprintf (oneArg (2^32 - 1)) 0x20000000 1 "ab%05d".toList).ret = 8 := by decide
  refine ⟨hlen, hret, fun h => ?_⟩
  have hret₁ := h.ret₁
  rw [hlen, hret] at hret₁
  exact absurd hret₁ (by decide)

end RtThread.Kservice
