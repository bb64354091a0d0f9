import Mathlib.Tactic.SplitIfs

/-!
# Runs of a transition system

A system has initial states and labelled steps. `Reachable T ok` are the states at the end of the
runs of `T` whose steps all meet the condition `ok`, a condition on the state in which a step is
taken and on its label. An invariant is proved from two facts, that it holds initially and that a
step keeps it (`Reachable.invariant`). A run on fixed labels is exhibited by executing it
(`exists_reachable_of_exec`).
-/

namespace RtThread.Lib

variable {σ α : Type*}

/-- A transition system with states `σ` and labels `α`. -/
structure System (σ α : Type*) where
  /-- The initial states. -/
  init : σ → Prop
  /-- The steps. -/
  step : σ → α → σ → Prop

/-- The states reached by runs whose steps all meet `ok`. -/
inductive Reachable (T : System σ α) (ok : σ → α → Prop) : σ → Prop
  | init {s : σ} : T.init s → Reachable T ok s
  | step {s s' : σ} {a : α} : Reachable T ok s → ok s a → T.step s a s' → Reachable T ok s'

/-- The condition that every step meets. -/
def always : σ → α → Prop := fun _ _ => True

instance (s : σ) (a : α) : Decidable (always s a) := isTrue trivial

variable {T : System σ α} {ok ok' : σ → α → Prop}

/-- The rule of invariants. -/
@[elab_as_elim]
theorem Reachable.invariant {I : σ → Prop} (hinit : ∀ s, T.init s → I s)
    (hstep : ∀ s a s', I s → ok s a → T.step s a s' → I s') {s : σ} (h : Reachable T ok s) : I s := by
  induction h with
  | init h => exact hinit _ h
  | step _ hok hs ih => exact hstep _ _ _ ih hok hs

theorem Reachable.mono (hle : ∀ s a, ok s a → ok' s a) {s : σ} (h : Reachable T ok s) :
    Reachable T ok' s := by
  induction h with
  | init h => exact .init h
  | step _ hok hs ih => exact .step ih (hle _ _ hok) hs

theorem guard_pos {p : Prop} [Decidable p] (hp : p) : (guard p : Option Unit) = some () := if_pos hp

theorem guard_neg {p : Prop} [Decidable p] (hp : ¬p) : (guard p : Option Unit) = none := if_neg hp

/-- A guarded computation that returns has passed its guard. -/
theorem of_guard_bind {β : Type} {p : Prop} [Decidable p] {k : Unit → Option β} {b : β}
    (h : (guard p >>= k) = some b) : p ∧ k () = some b := by
  by_cases hp : p
  · rw [guard_pos hp] at h
    exact ⟨hp, h⟩
  · rw [guard_neg hp] at h
    cases h

/-- A computation that returns has returned from its first part. -/
theorem of_bind_ok {ε β γ : Type} {x : Except ε β} {f : β → Except ε γ} {c : γ}
    (h : (x >>= f) = .ok c) : ∃ b, x = .ok b ∧ f b = .ok c := by
  cases x with
  | error e => cases h
  | ok b => exact ⟨b, rfl, h⟩

/-- A computation that returns, checked by executing it. -/
theorem ok_of_toOption {ε β : Type} {x : Except ε β} {b : β} (h : x.toOption = some b) : x = .ok b := by
  cases x with
  | error e => cases h
  | ok b' => exact congrArg Except.ok (Option.some.inj h)

instance decidableForallOk {ε β : Type} {x : Except ε β} {p : β → Prop} [∀ b, Decidable (p b)] :
    Decidable (∀ b, x = .ok b → p b) :=
  match x with
  | .error _ => isTrue fun _ h => by cases h
  | .ok b => decidable_of_iff (p b) ⟨fun h _ hb => Except.ok.inj hb ▸ h, fun h => h b rfl⟩

/-- A computation of a pair, whose first component is checked by executing it. -/
theorem exists_of_map_fst {β γ : Type*} {x : Option (β × γ)} {b : β}
    (h : x.map Prod.fst = some b) : ∃ c, x = some (b, c) := by
  obtain ⟨⟨b', c⟩, hx, rfl⟩ := Option.map_eq_some_iff.mp h
  exact ⟨c, hx⟩

/-- A computation of a pair that returns, of which the first component is kept. -/
theorem ok_of_map_fst {ε β γ : Type} {x : Except ε (β × γ)} {b : β} (h : x.map Prod.fst = .ok b) :
    ∃ c, x = .ok (b, c) := by
  cases x with
  | error e => cases h
  | ok y =>
    obtain ⟨b', c⟩ := y
    cases h
    exact ⟨c, rfl⟩

/-- The state after a list of steps, if all can be taken. -/
def execAll (f : σ → α → Option σ) : σ → List α → Option σ
  | s, [] => some s
  | s, a :: as => (f s a).bind fun s' => execAll f s' as

/-- A step is taken only if it meets the condition. -/
def execIf (ok : σ → α → Prop) [∀ s a, Decidable (ok s a)] (f : σ → α → Option σ) (s : σ) (a : α) :
    Option σ :=
  if ok s a then f s a else none

/-- What an execution of steps that meet the condition reaches. -/
theorem reachable_of_exec [∀ s a, Decidable (ok s a)] {f : σ → α → Option σ}
    (hf : ∀ s a s', f s a = some s' → T.step s a s') {s s' : σ} {as : List α}
    (h : Reachable T ok s) (hs : execAll (execIf ok f) s as = some s') : Reachable T ok s' := by
  induction as generalizing s with
  | nil =>
    rw [execAll, Option.some.injEq] at hs
    exact hs ▸ h
  | cons a as ih =>
    obtain ⟨s₁, h₁, hs₁⟩ := Option.bind_eq_some_iff.mp hs
    unfold execIf at h₁
    split_ifs at h₁ with hok
    exact ih (h.step hok (hf s a s₁ h₁)) hs₁

section

variable [∀ s a, Decidable (ok s a)] {f : σ → α → Option σ} {s : σ} {p : σ → Prop} [DecidablePred p]

/-- A property of the state that an execution reaches, checked by executing it. -/
theorem exists_reachable_of_run (h : T.init s) (as : List α)
    (hs : (execAll (execIf ok f) s as).map (fun s => decide (p s)) = some true)
    (hf : ∀ s a s', f s a = some s' → T.step s a s') : ∃ s', Reachable T ok s' ∧ p s' := by
  obtain ⟨s', hs', hp⟩ := Option.map_eq_some_iff.mp hs
  exact ⟨s', reachable_of_exec hf (.init h) hs', of_decide_eq_true hp⟩

/-- The same for a system whose steps are the executions of a function. -/
theorem exists_reachable_of_exec {init : σ → Prop} (h : init s) (as : List α)
    (hs : (execAll (execIf ok f) s as).map (fun s => decide (p s)) = some true) :
    ∃ s', Reachable ⟨init, fun s a s' => f s a = some s'⟩ ok s' ∧ p s' :=
  exists_reachable_of_run h as hs fun _ _ _ h => h

end

/-- What a theorem about all runs adds to a run on fixed labels. -/
theorem exists_reachable_and {p q : σ → Prop} (h : ∃ s, Reachable T ok s ∧ p s)
    (hq : ∀ s, Reachable T ok s → p s → q s) : ∃ s, Reachable T ok s ∧ p s ∧ q s := by
  obtain ⟨s, hs, hp⟩ := h
  exact ⟨s, hs, hp, hq s hs hp⟩

end RtThread.Lib
