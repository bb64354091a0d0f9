import Mathlib.Data.List.TakeWhile

/-!
# Fields between separators

The fields of a list are its longest parts without a separator that are not empty. A field is taken off
together with the separator behind it (`fields_append`), separators in front do not matter
(`fields_dropWhile`), and a list that is put together from fields has these fields
(`fields_flatMap_cons`).
-/

namespace RtThread.Lib

open List

variable {α : Type*} (sep : α → Bool)

/-- The fields of a list. -/
def fields : List α → List (List α)
  | [] => []
  | c :: rest =>
    if sep c then fields rest
    else (c :: rest.takeWhile (fun c => !sep c)) :: fields (rest.dropWhile (fun c => !sep c))
termination_by l => l.length
decreasing_by
  · exact Nat.lt_succ_self _
  · exact Nat.lt_succ_of_le (length_dropWhile_le _ rest)

variable {sep} {c s : α} {l w rest : List α}

@[simp] theorem fields_nil : fields sep [] = [] := by rw [fields]

theorem fields_cons_sep (h : sep c = true) : fields sep (c :: rest) = fields sep rest := by
  rw [fields, if_pos h]

theorem fields_dropWhile (l : List α) : fields sep (l.dropWhile sep) = fields sep l := by
  induction l with
  | nil => rfl
  | cons c l ih =>
    rw [dropWhile_cons]
    split
    · next h => rw [ih, fields_cons_sep h]
    · rfl

theorem takeWhile_append_sep (rest : List α) (hw : ∀ c ∈ w, sep c = false) (hs : sep s = true) :
    (w ++ s :: rest).takeWhile (fun c => !sep c) = w ∧
      (w ++ s :: rest).dropWhile (fun c => !sep c) = s :: rest := by
  induction w with
  | nil => simp [hs]
  | cons c w ih =>
    have hc : sep c = false := hw c mem_cons_self
    obtain ⟨htake, hdrop⟩ := ih fun d hd => hw d (mem_cons_of_mem _ hd)
    simp [hc, htake, hdrop]

theorem fields_append (hne : w ≠ []) (hw : ∀ c ∈ w, sep c = false) (hs : sep s = true) :
    fields sep (w ++ s :: rest) = w :: fields sep rest := by
  cases w with
  | nil => exact absurd rfl hne
  | cons c w =>
    have hc : sep c = false := hw c mem_cons_self
    obtain ⟨htake, hdrop⟩ := takeWhile_append_sep rest
      (fun d hd => hw d (mem_cons_of_mem _ hd)) hs
    rw [cons_append, fields, if_neg (by simp [hc]), htake, hdrop, fields_cons_sep hs]

theorem fields_eq_singleton (hne : w ≠ []) (hw : ∀ c ∈ w, sep c = false) : fields sep w = [w] := by
  cases w with
  | nil => exact absurd rfl hne
  | cons c w =>
    have hc : sep c = false := hw c mem_cons_self
    have hall : ∀ d ∈ w, (!sep d) = true := fun d hd => by
      simp [hw d (mem_cons_of_mem _ hd)]
    rw [fields, if_neg (by simp [hc]), takeWhile_eq_self_iff.mpr hall,
      dropWhile_eq_nil_iff.mpr hall, fields_nil]

theorem mem_fields (h : w ∈ fields sep l) : w ≠ [] ∧ (∀ c ∈ w, sep c = false) ∧ ∀ c ∈ w, c ∈ l := by
  induction hn : l.length using Nat.strongRecOn generalizing l with
  | _ n ih =>
  subst hn
  cases l with
  | nil => simp at h
  | cons c l =>
    rw [fields] at h
    split at h
    · obtain ⟨hne, hw, hl⟩ := ih l.length (by simp) h rfl
      exact ⟨hne, hw, fun d hd => mem_cons_of_mem _ (hl d hd)⟩
    · next hc =>
      rcases mem_cons.mp h with rfl | h
      · refine ⟨by simp, ?_, ?_⟩
        · intro d hd
          rcases mem_cons.mp hd with rfl | hd
          · simpa using hc
          · simpa using mem_takeWhile_imp hd
        · intro d hd
          rcases mem_cons.mp hd with rfl | hd
          · exact mem_cons_self
          · exact mem_cons_of_mem _ (( takeWhile_prefix _).subset hd)
      · obtain ⟨hne, hw, hl⟩ := ih _ (by
          have := length_dropWhile_le (fun c => !sep c) l
          simp
          omega) h rfl
        exact ⟨hne, hw, fun d hd =>
          mem_cons_of_mem _ ((dropWhile_suffix _).subset (hl d hd))⟩

/-- The fields of a list that is put together from them, each with a separator in front. -/
theorem fields_flatMap_cons {ws : List (List α)} (hs : sep s = true)
    (hws : ∀ w ∈ ws, w ≠ [] ∧ ∀ c ∈ w, sep c = false) : fields sep (ws.flatMap (s :: ·)) = ws := by
  induction ws with
  | nil => simp
  | cons w ws ih =>
    obtain ⟨hne, hw⟩ := hws w mem_cons_self
    have ih := ih fun v hv => hws v (mem_cons_of_mem _ hv)
    rw [flatMap_cons, cons_append, fields_cons_sep hs]
    cases ws with
    | nil => rw [flatMap_nil, append_nil, fields_eq_singleton hne hw]
    | cons v ws =>
      rw [flatMap_cons, cons_append, fields_cons_sep hs] at ih
      rw [flatMap_cons, cons_append, fields_append hne hw hs, ih]

end RtThread.Lib
