import Dataflow.Word

/-!
# Folds that can fail

A fold in `Except` that succeeds has succeeded at every element, so what each step keeps the whole fold
keeps. Where it fails, its error is that of a step.
-/

namespace Dataflow.Fold

variable {ε α β : Type}

theorem bind_eq_ok {x : Except ε α} {f : α → Except ε β} {b : β} (h : (x >>= f) = .ok b) :
    ∃ a, x = .ok a ∧ f a = .ok b := by
  cases x with
  | error e => cases h
  | ok a => exact ⟨a, rfl, h⟩

theorem bind_eq_error {x : Except ε α} {f : α → Except ε β} {e : ε} (h : (x >>= f) = .error e) :
    x = .error e ∨ ∃ a, x = .ok a ∧ f a = .error e := by
  cases x with
  | error e' =>
    cases h
    exact .inl rfl
  | ok a => exact .inr ⟨a, rfl, h⟩

/-- The error of a fold is that of one of its steps. -/
theorem exists_of_foldlM_eq_error {f : β → α → Except ε β} {l : List α} {b : β} {e : ε}
    (h : l.foldlM f b = .error e) : ∃ b' a, f b' a = .error e := by
  induction l generalizing b with
  | nil => cases h
  | cons a l ih =>
    rw [List.foldlM_cons] at h
    rcases bind_eq_error h with hstep | ⟨b', -, hrest⟩
    · exact ⟨b, a, hstep⟩
    · exact ih hrest

theorem exists_of_mapM_eq_error {f : α → Except ε β} {l : List α} {e : ε}
    (h : l.mapM f = .error e) : ∃ a, f a = .error e := by
  induction l with
  | nil => cases h
  | cons a l ih =>
    rw [List.mapM_cons] at h
    rcases bind_eq_error h with hstep | ⟨b, -, h⟩
    · exact ⟨a, hstep⟩
    · rcases bind_eq_error h with hrest | ⟨bs, -, h⟩
      · exact ih hrest
      · cases h

theorem foldlM_cons_eq_ok {f : β → α → Except ε β} {a : α} {l : List α} {b r : β}
    (h : (a :: l).foldlM f b = .ok r) : ∃ b', f b a = .ok b' ∧ l.foldlM f b' = .ok r := by
  rw [List.foldlM_cons] at h
  exact bind_eq_ok h

theorem foldlM_append_eq_ok {f : β → α → Except ε β} {l l' : List α} {b r : β}
    (h : (l ++ l').foldlM f b = .ok r) : ∃ b', l.foldlM f b = .ok b' ∧ l'.foldlM f b' = .ok r := by
  rw [List.foldlM_append] at h
  exact bind_eq_ok h

/-- `P` speaks of the elements that are done by now. -/
theorem foldlM_ok_induction {f : β → α → Except ε β} {P : List α → β → Prop} {l : List α} {b r : β}
    (h : l.foldlM f b = .ok r) (start : P [] b)
    (step : ∀ done a b b', a ∈ l → P done b → f b a = .ok b' → P (done ++ [a]) b') : P l r := by
  suffices hrest : ∀ (todo done : List α) (b : β), (∀ a ∈ todo, a ∈ l) → P done b →
      todo.foldlM f b = .ok r → P (done ++ todo) r from
    hrest l [] b (fun _ ha ↦ ha) start h
  intro todo
  induction todo with
  | nil =>
    intro done b _ hdone hfold
    cases hfold
    simpa using hdone
  | cons a todo ih =>
    intro done b hmem hdone hfold
    obtain ⟨b', hstep, hfold⟩ := foldlM_cons_eq_ok hfold
    rw [List.append_cons]
    exact ih (done ++ [a]) b' (fun x hx ↦ hmem x (List.mem_cons_of_mem a hx))
      (step done a b b' (hmem a List.mem_cons_self) hdone hstep) hfold

/-- `P` speaks of the elements that are done by now. -/
theorem foldl_done_induction {f : β → α → β} {P : List α → β → Prop} {l : List α} {b : β}
    (start : P [] b)
    (step : ∀ done a b, done ++ [a] <+: l → P done b → P (done ++ [a]) (f b a)) :
    P l (l.foldl f b) := by
  suffices hrest : ∀ (todo done : List α) (b : β), done ++ todo = l → P done b →
      P l (todo.foldl f b) from hrest l [] b rfl start
  intro todo
  induction todo with
  | nil =>
    intro done b hl hP
    rw [List.append_nil] at hl
    exact hl ▸ hP
  | cons a todo ih =>
    intro done b hl hP
    have hl' : done ++ [a] ++ todo = l := by rw [List.append_assoc, List.singleton_append, hl]
    exact ih (done ++ [a]) (f b a) hl' (step done a b ⟨todo, hl'⟩ hP)

theorem foldlM_range_induction {f : β → Nat → Except ε β} {P : Nat → β → Prop} {n : Nat} {b r : β}
    (h : (List.range n).foldlM f b = .ok r) (start : P 0 b)
    (step : ∀ i b b', i < n → P i b → f b i = .ok b' → P (i + 1) b') : P n r := by
  induction n generalizing r with
  | zero =>
    cases h
    exact start
  | succ n ih =>
    rw [List.range_succ] at h
    obtain ⟨b', hinit, hlast⟩ := foldlM_append_eq_ok h
    obtain ⟨_, hstep, hlast⟩ := foldlM_cons_eq_ok hlast
    cases hlast
    exact step n b' _ (Nat.lt_succ_self n)
      (ih hinit fun i b b' hi ↦ step i b b' (Nat.lt_succ_of_lt hi)) hstep

/-! ## Either end -/

/-- `P` holds of the value, or `Q` of the error. -/
def Ends (x : Except ε α) (P : α → Prop) (Q : ε → Prop) : Prop :=
  match x with
  | .ok a => P a
  | .error e => Q e

section Ends

variable {P : α → Prop} {Q : ε → Prop} {x : Except ε α}

theorem Ends.error {e : ε} (h : Ends x P Q) (hx : x = .error e) : Q e := by
  subst hx
  exact h

theorem Ends.exists_ok (h : Ends x P Q) (hQ : ∀ e, ¬ Q e) : ∃ a, x = .ok a ∧ P a := by
  cases x with
  | ok a => exact ⟨a, rfl, h⟩
  | error e => exact absurd h (hQ e)

theorem Ends.mono {P' : α → Prop} (h : Ends x P Q) (himp : ∀ a, x = .ok a → P a → P' a) :
    Ends x P' Q := by
  cases x with
  | ok a => exact himp a rfl h
  | error e => exact h

theorem Ends.mono_error {Q' : ε → Prop} (h : Ends x P Q) (himp : ∀ e, Q e → Q' e) : Ends x P Q' := by
  cases x with
  | ok a => exact h
  | error e => exact himp e h

theorem Ends.bind {f : α → Except ε β} {P' : β → Prop} (h : Ends x P Q)
    (hf : ∀ a, x = .ok a → P a → Ends (f a) P' Q) : Ends (x >>= f) P' Q := by
  cases x with
  | ok a => exact hf a rfl h
  | error e => exact h

/-- `P` speaks of the elements that are done by now. -/
theorem ends_foldlM {f : β → α → Except ε β} {P : List α → β → Prop} {l : List α} {b : β}
    (start : P [] b)
    (step : ∀ done a b, done ++ [a] <+: l → P done b → Ends (f b a) (P (done ++ [a])) Q) :
    Ends (l.foldlM f b) (P l) Q := by
  suffices hrest : ∀ (todo done : List α) (b : β), done ++ todo = l → P done b →
      Ends (todo.foldlM f b) (P l) Q from hrest l [] b rfl start
  intro todo
  induction todo with
  | nil =>
    intro done b hl hP
    rw [List.append_nil] at hl
    exact hl ▸ hP
  | cons a todo ih =>
    intro done b hl hP
    have hl' : done ++ [a] ++ todo = l := by rw [List.append_assoc, List.singleton_append, hl]
    rw [List.foldlM_cons]
    exact (step done a b ⟨todo, hl'⟩ hP).bind fun b' _ hb' ↦ ih (done ++ [a]) b' hl' hb'

end Ends

end Dataflow.Fold
