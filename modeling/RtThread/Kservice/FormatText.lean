import RtThread.Kservice.Format
import Mathlib.Data.List.Induction

/-!
# The text of a format

Which characters `rt_vsnprintf` outputs depends on the format and the arguments only, except for one
test: `print_number` decrements its counter for the sign only if the sign is stored. So the output is
that of a list of pieces (`pieces`), each of which asks once whether there is room.
-/

namespace RtThread.Kservice

open Lib Function List

/-! ## Integers -/

theorem wrap_bounds (x : ℤ) : -2^31 ≤ wrap x ∧ wrap x < 2^31 := by
  have hle := Int.le_bmod (x := x) (m := 2^32) (by norm_num)
  have hlt := Int.bmod_lt (x := x) (m := 2^32) (by norm_num)
  unfold wrap
  constructor <;> norm_num at hle hlt ⊢ <;> omega

theorem wrap_eq {x : ℤ} (hle : -2^31 ≤ x) (hlt : x < 2^31) : wrap x = x := by
  exact Int.bmod_eq_of_le (by norm_num at hle ⊢; omega) (by norm_num at hlt ⊢; omega)

theorem wrap_below {x : ℤ} (hle : -2^32 ≤ x) (hlt : x < -2^31) : wrap x = x + 2^32 := by
  have hadd : wrap (x + 2^32) = wrap x := by
    exact Int.add_bmod_right x (2^32)
  rw [← hadd]
  exact wrap_eq (by omega) (by omega)

/-! ## Output -/

namespace Out

variable {last : ℕ}

theorem puts_append (o : Out) (l l' : List Char) : o.puts last (l ++ l') = (o.puts last l).puts last l' :=
  foldl_append

theorem puts_cons (o : Out) (c : Char) (l : List Char) : o.puts last (c :: l) = (o.put last c).puts last l := rfl

theorem puts_nil (o : Out) : o.puts last [] = o := rfl

theorem str_puts (o : Out) (l : List Char) (hstr : o.str < 2^32) : (o.puts last l).str = add32 o.str l.length := by
  induction l generalizing o with
  | nil => exact (Nat.mod_eq_of_lt hstr).symm
  | cons c l ih =>
    rw [puts_cons, ih _ (add32_lt _ _), length_cons]
    unfold put add32
    dsimp only
    omega

/-- What the output leaves at an address. -/
theorem mem_puts {buf x : ℕ} (hbuf : buf < 2^32) (hx : x < 2^32) {l : List Char} (hlen : l.length ≤ 2^32) :
    (puts last ⟨buf, fun _ => none⟩ l).mem x = if x ≤ last then l[sub32 x buf]? else none := by
  induction l using reverseRecOn with
  | nil => rw [getElem?_nil, ite_self, puts_nil]
  | append_singleton l c ih =>
    rw [length_append, length_singleton] at hlen
    have hstr : (puts last ⟨buf, fun _ => none⟩ l).str = add32 buf l.length := str_puts _ l hbuf
    rw [puts_append]
    change (put last (puts last ⟨buf, fun _ => none⟩ l) c).mem x = _
    unfold put
    dsimp only
    rw [hstr]
    by_cases hat : x = add32 buf l.length
    · have hdist : sub32 x buf = l.length := by
        rw [hat]
        unfold sub32 add32
        omega
      rw [hdist, ← hat, getElem?_concat_length]
      by_cases hle : x ≤ last
      · rw [if_pos hle, if_pos hle, update_self]
      · rw [if_neg hle, if_neg hle, ih (by omega), if_neg hle]
    · have hdist : sub32 x buf ≠ l.length := by
        intro heq
        refine hat ?_
        unfold sub32 at heq
        unfold add32
        omega
      have hsame : (l ++ [c])[sub32 x buf]? = l[sub32 x buf]? := by
        rcases Nat.lt_or_gt_of_ne hdist with hlt | hgt
        · exact getElem?_append_left hlt
        · rw [getElem?_eq_none (by rw [length_append, length_singleton]; omega),
            getElem?_eq_none (by omega)]
      rw [hsame, ← ih (by omega)]
      split_ifs
      · exact update_of_ne hat _ _
      · rfl

theorem mem_puts_of_le {o : Out} {x : ℕ} (hstr : o.str < 2^32) (hx : 2^32 ≤ x) (l : List Char) :
    (o.puts last l).mem x = o.mem x := by
  induction l generalizing o with
  | nil => rfl
  | cons c l ih =>
    rw [puts_cons, ih (add32_lt _ _)]
    unfold put
    split_ifs
    · exact update_of_ne (by omega) _ _
    · rfl

end Out

variable (last : ℕ)

/-- The output of a piece. -/
def runPiece (o : Out) (p : Piece Char) : Out :=
  (o.puts last p.head).puts last (p.tail (decide ((o.puts last p.head).str ≤ last)))

theorem runPiece_plain (o : Out) (l : List Char) : runPiece last o (.plain l) = o.puts last l := rfl

theorem foldl_runPiece {last buf : ℕ} (ps : List (Piece Char)) {o : Out} {off : ℕ} (hstr : o.str = add32 buf off) :
    ps.foldl (runPiece last) o = o.puts last (render (fun k => decide (add32 buf k ≤ last)) off ps) := by
  induction ps generalizing o off with
  | nil => rfl
  | cons p ps ih =>
    have hlt : o.str < 2^32 := hstr ▸ add32_lt _ _
    have hask : (o.puts last p.head).str = add32 buf (off + p.head.length) := by
      rw [Out.str_puts o _ hlt, hstr]
      unfold add32
      omega
    have hrun : runPiece last o p = o.puts last (p.text (decide (add32 buf (off + p.head.length) ≤ last))) := by
      unfold runPiece Piece.text
      rw [hask, Out.puts_append]
    rw [foldl_cons, render, Out.puts_append, ← hrun]
    refine ih ?_
    rw [hrun, Out.str_puts o _ hlt, hstr]
    unfold add32
    omega

/-! ## Pieces -/

/-- What stands behind the sign of a number, with the counter `size`. -/
def numberRest (pre : List Char) (left : Bool) (c : Char) (zeros : ℕ) (digits : List Char) (size : ℤ) :
    List Char :=
  pre ++ (if left then [] else replicate size.toNat c) ++ replicate zeros '0' ++ digits ++
    replicate (if left then size else afterPost size).toNat ' '

/-- A number, with the counter `size` before the padding. -/
def numberPieceOf (sign : Option Char) (zeropad left : Bool) (size : ℤ) (rest : ℤ → List Char) :
    Piece Char :=
  let spaces := if sign.isSome && size > 0 then size - 1 else size
  let size := if !(zeropad || left) then afterPost spaces else size
  { head := if !(zeropad || left) then replicate spaces.toNat ' ' else []
    tail := fun room =>
      match sign with
      | none => rest size
      | some c => c :: rest (if room then wrap (size - 1) else size) }

/-- What `print_number` outputs. -/
def numberPiece (special : Bool) (num : ℤ) (base : ℕ) (s precision : ℤ) (type : Flags) : Piece Char :=
  let type := if type.left then { type with zeropad := false } else type
  let sign := signOf type num
  let num := if type.sign && num < 0 then wrap (-num) else num
  let size :=
    if special && type.special then
      if base = 16 then wrap (s - 2) else if base = 8 then wrap (s - 1) else s
    else s
  let tmp := tmpOf type.large base num
  let i : ℤ := tmp.length
  let precision := if i > precision then i else precision
  numberPieceOf sign type.zeropad type.left (wrap (size - precision))
    (numberRest (prefixOf special type base) type.left (if type.zeropad then '0' else ' ')
      (precision - i).toNat tmp.reverse)

theorem printNumber_eq (special : Bool) (last : ℕ) (o : Out) (num : ℤ) (base : ℕ) (s precision : ℤ)
    (type : Flags) : printNumber special last o num base s precision type =
      runPiece last o (numberPiece special num base s precision type) := by
  unfold printNumber numberPiece
  dsimp only
  generalize (if type.left then { type with zeropad := false } else type) = type
  generalize signOf type num = sign
  generalize tmpOf type.large base (if type.sign && num < 0 then wrap (-num) else num) = tmp
  generalize prefixOf special type base = pre
  generalize (if (tmp.length : ℤ) > precision then (tmp.length : ℤ) else precision) = precision
  generalize wrap (_ - precision) = size
  unfold runPiece numberPieceOf numberRest
  generalize replicate (precision - (tmp.length : ℤ)).toNat '0' = zeros
  cases type.zeropad <;> cases type.left <;> cases sign <;>
    simp [Out.puts_append, Out.puts_cons, Out.puts_nil]

/-- What the conversion `c` outputs. -/
def charText (flags : Flags) (width : ℤ) (w : ℕ) : List Char :=
  if flags.left then Char.ofNat (w % 2^8) :: replicate (wrap (width - 1)).toNat ' '
  else replicate (wrap (width - 1)).toNat ' ' ++ Char.ofNat (w % 2^8) ::
    replicate (wrap (min (wrap (width - 1)) 0 - 1)).toNat ' '

theorem printChar_eq (o : Out) (flags : Flags) (width : ℤ) (w : ℕ) :
    printChar last o flags width w = o.puts last (charText flags width w) := by
  unfold printChar charText
  cases flags.left <;> simp [Out.puts_append, Out.puts_cons]

/-- What the conversion `s` outputs. -/
def stringText (flags : Flags) (width precision : ℤ) (s : List Char) : List Char :=
  let len := wrap s.length
  let len := if precision > 0 ∧ len > precision then precision else len
  if flags.left then s.take len.toNat ++ replicate (width - len).toNat ' '
  else replicate (width - len).toNat ' ' ++ s.take len.toNat ++
    replicate (wrap (min width len - 1) - len).toNat ' '

theorem printString_eq (o : Out) (flags : Flags) (width precision : ℤ) (s : List Char) :
    printString last o flags width precision s = o.puts last (stringText flags width precision s) := by
  unfold printString stringText
  generalize (if precision > 0 ∧ wrap s.length > precision then precision else wrap s.length) = len
  generalize s.take len.toNat = text
  cases flags.left <;> simp [Out.puts_append]

variable (e : Env)

/-- What an integer conversion outputs. -/
def intPiece (s : Spec) (base : ℕ) (flags : Flags) : Piece Char :=
  numberPiece e.special (intArg flags s.qualifier (e.args s.next)) base s.width s.precision flags

/-- The piece of a conversion, the rest of the format and the index of the next argument. -/
def convertPiece (s : Spec) : Piece Char × List Char × ℕ :=
  match convOf (peek s.fmt) with
  | .char => (.plain (charText s.flags s.width (e.args s.next)), s.fmt.tail, s.next + 1)
  | .string =>
    let text := if e.args s.next = 0 then "(NULL)".toList else e.strings (e.args s.next)
    (.plain (stringText s.flags s.width s.precision text), s.fmt.tail, s.next + 1)
  | .pointer =>
    let width := if s.width = -1 then 8 else s.width
    let flags := if s.width = -1 then { s.flags with zeropad := true } else s.flags
    (numberPiece e.special (toInt32 (e.args s.next)) 16 width s.precision flags, s.fmt.tail, s.next + 1)
  | .percent => (.plain ['%'], s.fmt.tail, s.next)
  | .octal => (intPiece e s 8 s.flags, s.fmt.tail, s.next + 1)
  | .hexLarge => (intPiece e s 16 { s.flags with large := true }, s.fmt.tail, s.next + 1)
  | .hex => (intPiece e s 16 s.flags, s.fmt.tail, s.next + 1)
  | .signed => (intPiece e s 10 { s.flags with sign := true }, s.fmt.tail, s.next + 1)
  | .unsigned => (intPiece e s 10 s.flags, s.fmt.tail, s.next + 1)
  | .stop => (.plain ['%'], [], s.next)
  | .other c => (.plain ['%', c], s.fmt.tail, s.next)

theorem convert_eq (last : ℕ) (o : Out) (s : Spec) :
    convert e last o s = (runPiece last o (convertPiece e s).1, (convertPiece e s).2) := by
  unfold convert convertPiece printInt intPiece
  cases convOf (peek s.fmt) <;> simp only [printNumber_eq, printChar_eq, printString_eq, runPiece_plain] <;> rfl

variable {pre digits : List Char} {c : Char} {zeros : ℕ} {size : ℤ}

theorem numberRest_right (hle : -2^31 < size) : numberRest pre false c zeros digits size =
      pre ++ replicate size.toNat c ++ replicate zeros '0' ++ digits := by
  have hpost : (afterPost size).toNat = 0 := by
    unfold afterPost
    rw [wrap_eq (by omega) (by omega)]
    omega
  unfold numberRest
  simp only [Bool.false_eq_true, if_false, hpost, replicate_zero, append_nil]

theorem numberRest_left : numberRest pre true c zeros digits size =
      pre ++ replicate zeros '0' ++ digits ++ replicate size.toNat ' ' := by
  unfold numberRest
  simp only [if_true, append_nil]

theorem le_length_numberRest {left : Bool} (h : size = 2^31 - 1 ∨ left = false ∧ size = -2^31) :
    2^31 - 1 ≤ (numberRest pre left c zeros digits size).length := by
  cases left with
  | true =>
    have hmax : size = 2^31 - 1 := h.resolve_right fun hmin => Bool.noConfusion hmin.1
    rw [numberRest_left]
    simp only [length_append, length_replicate]
    omega
  | false =>
    rcases h with hmax | ⟨-, hmin⟩
    · rw [numberRest_right (by omega)]
      simp only [length_append, length_replicate]
      omega
    · have hpost : afterPost size = 2^31 - 1 := by
        unfold afterPost
        rw [wrap_below (by omega) (by omega)]
        omega
      unfold numberRest
      simp only [Bool.false_eq_true, if_false, length_append, length_replicate, hpost]
      omega

theorem numberRest_pred {left : Bool} (hle : left = false → -2^31 < size - 1) :
    numberRest pre left c zeros digits size = numberRest pre left c zeros digits (size - 1) ∨
      (numberRest pre left c zeros digits size).length =
        (numberRest pre left c zeros digits (size - 1)).length + 1 := by
  cases left with
  | true =>
    simp only [numberRest_left, length_append, length_replicate]
    by_cases hpos : 0 < size
    · exact .inr (by omega)
    · rw [Int.toNat_of_nonpos (show size ≤ 0 by omega), Int.toNat_of_nonpos (by omega)]
      exact .inl rfl
  | false =>
    have hlow := hle rfl
    have hlow' : -2^31 < size := by omega
    simp only [numberRest_right hlow, numberRest_right hlow', length_append, length_replicate]
    by_cases hpos : 0 < size
    · exact .inr (by omega)
    · rw [Int.toNat_of_nonpos (show size ≤ 0 by omega), Int.toNat_of_nonpos (by omega)]
      exact .inl rfl

/-- Without room for its sign a number is at most one character longer. -/
theorem numberPieceOf_regular {sign : Option Char} {zeropad left : Bool} {x : ℤ}
    (hlen : ((numberPieceOf sign zeropad left (wrap x)
      (numberRest pre left c zeros digits)).text true).length < 2^31) :
    (numberPieceOf sign zeropad left (wrap x) (numberRest pre left c zeros digits)).Regular := by
  cases sign with
  | none => exact .inl rfl
  | some sg =>
    -- The counter when the sign is put out.
    obtain ⟨n, hlow, hhigh, hfalse, htrue⟩ : ∃ n : ℤ, -2^31 ≤ n ∧ n < 2^31 ∧
        (numberPieceOf (some sg) zeropad left (wrap x) (numberRest pre left c zeros digits)).tail false =
          sg :: numberRest pre left c zeros digits n ∧
        (numberPieceOf (some sg) zeropad left (wrap x) (numberRest pre left c zeros digits)).tail true =
          sg :: numberRest pre left c zeros digits (wrap (n - 1)) := by
      unfold numberPieceOf
      cases !(zeropad || left) with
      | true =>
        refine ⟨afterPost _, ?_, ?_, rfl, rfl⟩
        · exact (wrap_bounds _).1
        · exact (wrap_bounds _).2
      | false => exact ⟨wrap x, (wrap_bounds x).1, (wrap_bounds x).2, rfl, rfl⟩
    rw [Piece.length_text, htrue, length_cons] at hlen
    have hn : n ≠ -2^31 := by
      intro heq
      have hwrap : wrap (n - 1) = 2^31 - 1 := by
        rw [wrap_below (by omega) (by omega)]
        omega
      have hle : 2^31 - 1 ≤ (numberRest pre left c zeros digits (wrap (n - 1))).length :=
        le_length_numberRest (.inl hwrap)
      omega
    have hdec : wrap (n - 1) = n - 1 := wrap_eq (by omega) (by omega)
    rw [hdec] at hlen
    have hn' : left = false → -2^31 < n - 1 := by
      intro hright
      by_contra hnot
      have hle : 2^31 - 1 ≤ (numberRest pre left c zeros digits (n - 1)).length :=
        le_length_numberRest (.inr ⟨hright, by omega⟩)
      omega
    unfold Piece.Regular
    rw [hfalse, htrue, hdec]
    rcases numberRest_pred hn' with heq | hlonger
    · exact .inl (congrArg (sg :: ·) heq)
    · exact .inr ⟨congrArg (· + 1) hlonger, cons_ne_nil _ _⟩

theorem convertPiece_regular {e : Env} {s : Spec}
    (hlen : ((convertPiece e s).1.text true).length < 2^31) : (convertPiece e s).1.Regular := by
  revert hlen
  unfold convertPiece
  cases convOf (peek s.fmt) with
  | char | string | percent | stop | other => exact fun _ => Piece.regular_plain _
  | pointer | octal | hexLarge | hex | signed | unsigned => exact numberPieceOf_regular

/-- The loop over the format. -/
def piecesLoop (e : Env) : ℕ → List Char → ℕ → List (Piece Char)
  | 0, _, _ => []
  | _ + 1, [], _ => []
  | fuel + 1, c :: fmt, next =>
    if c = '\x00' then []
    else if c ≠ '%' then .plain [c] :: piecesLoop e fuel fmt next
    else
      let r := convertPiece e (parseSpec e.args fmt next)
      r.1 :: piecesLoop e fuel r.2.1 r.2.2

/-- The pieces of a format. -/
def pieces (fmt : List Char) : List (Piece Char) := piecesLoop e fmt.length fmt 0

/-- The text of a format if there is always room. -/
def fullText (fmt : List Char) : List Char := full (pieces e fmt)

theorem formatLoop_eq (last : ℕ) (fuel : ℕ) (o : Out) (fmt : List Char) (next : ℕ) :
    formatLoop e last fuel o fmt next = (piecesLoop e fuel fmt next).foldl (runPiece last) o := by
  induction fuel generalizing o fmt next with
  | zero => rfl
  | succ fuel ih =>
    cases fmt with
    | nil => rfl
    | cons c fmt =>
      rw [formatLoop, piecesLoop]
      split_ifs
      · rfl
      · exact ih _ _ _
      · rw [convert_eq, foldl_cons, ih]

theorem piecesLoop_regular {e : Env} {fuel : ℕ} {fmt : List Char} {next : ℕ} {p : Piece Char}
    (hp : p ∈ piecesLoop e fuel fmt next) (hlen : (p.text true).length < 2^31) : p.Regular := by
  induction fuel generalizing fmt next with
  | zero => exact absurd hp not_mem_nil
  | succ fuel ih =>
    cases fmt with
    | nil => exact absurd hp not_mem_nil
    | cons c fmt =>
      rw [piecesLoop] at hp
      split_ifs at hp
      · exact absurd hp not_mem_nil
      · rcases mem_cons.mp hp with rfl | hmem
        · exact Piece.regular_plain _
        · exact ih hmem
      · rcases mem_cons.mp hp with rfl | hmem
        · exact convertPiece_regular hlen
        · exact ih hmem

theorem pieces_regular {e : Env} {fmt : List Char} (h : (fullText e fmt).length < 2^31) :
    ∀ p ∈ pieces e fmt, p.Regular := fun _ hp =>
  piecesLoop_regular hp (lt_of_le_of_lt (length_text_le hp) h)

/-- The text that a call with this buffer puts out. -/
def rendered (buf size : ℕ) (fmt : List Char) : List Char :=
  render (fun k => decide (add32 buf k ≤ lastOf buf size)) 0 (pieces e fmt)

theorem rtVsnprintf_eq {buf size : ℕ} (fmt : List Char) (hbuf : buf < 2^32) :
    rtVsnprintf e buf size fmt =
      let last := lastOf buf size
      let o := Out.puts last ⟨buf, fun _ => none⟩ (rendered e buf size fmt)
      let term := if o.str ≤ last then o.str else last
      ⟨toInt32 (sub32 o.str buf), update o.mem term (some '\x00'), term⟩ := by
  have hstr : (⟨buf, fun _ => none⟩ : Out).str = add32 buf 0 := (Nat.mod_eq_of_lt hbuf).symm
  unfold rtVsnprintf rendered pieces
  dsimp only
  rw [formatLoop_eq, foldl_runPiece _ hstr]

end RtThread.Kservice
