import Dataflow.Graph.Error
import Dataflow.Proofs.Fold

/-!
# Operations that can fail

A machine reads and writes by index, keeps numbers in words, and divides by whatever it is given. A
computation in such operations ends with a value, with an error about a graph, or with a fault. To show
that it has no faults is to show that it equals one that can only end with a value or an error.
-/

namespace Dataflow.Machine

inductive Fault where
  /-- An index is not below the length. -/
  | index
  /-- A number is too large for its word. -/
  | overflow
  /-- More is taken away than there is. -/
  | underflow
  | division
  /-- A loop has not come to its end in the rounds it was given. -/
  | endless
  deriving DecidableEq, Repr

/-- What ends a computation before it has a value. -/
inductive Halt where
  | fault (f : Fault)
  | refused (e : GraphError)
  deriving DecidableEq, Repr

abbrev Computation (α : Type) := Except Halt α

variable {α β σ : Type}

def stop (f : Fault) : Computation α := .error (.fault f)

def refuse (e : GraphError) : Computation α := .error (.refused e)

/-- A computation without faults. -/
def of (x : Except GraphError α) : Computation α := x.mapError .refused

@[simp]
theorem of_ok (a : α) : of (.ok a) = .ok a := rfl

@[simp]
theorem of_error (e : GraphError) : of (.error e : Except GraphError α) = refuse e := rfl

@[simp]
theorem ok_bind (a : α) (f : α → Computation β) : ((.ok a : Computation α) >>= f) = f a := rfl

@[simp]
theorem refuse_bind (e : GraphError) (f : α → Computation β) : (refuse e >>= f) = refuse e := rfl

/-! ## Single operations -/

/-- What stands at an index. -/
def found : Option α → Computation α
  | some a => .ok a
  | none => stop .index

/-- A number in a word of 64 bits. -/
def word (n : Nat) : Computation Nat := if n < Word.modulus then .ok n else stop .overflow

/-- One more than the largest half word. -/
def halfModulus : Nat := 4294967296

/-- A number in a half word of 32 bits. -/
def halfWord (n : Nat) : Computation Nat := if n < halfModulus then .ok n else stop .overflow

def difference (a b : Nat) : Computation Nat := if b ≤ a then .ok (a - b) else stop .underflow

def quotient (a b : Nat) : Computation Nat := if b = 0 then stop .division else .ok (a / b)

def remainder (a b : Nat) : Computation Nat := if b = 0 then stop .division else .ok (a % b)

/-- Writes over what stands at an index. -/
def store (l : List α) (i : Nat) (a : α) : Computation (List α) :=
  if i < l.length then .ok (l.set i a) else stop .index

/-- Changes what stands at an index. -/
def update (a : Array α) (i : Nat) (f : α → Computation α) : Computation (Array α) := do
  let old ← found a[i]?
  let new ← f old
  return a.setIfInBounds i new

@[simp]
theorem found_some (a : α) : found (some a) = .ok a := rfl

theorem word_of_lt {n : Nat} (h : n < Word.modulus) : word n = .ok n := if_pos h

theorem word_of_le {n : Nat} (h : Word.modulus ≤ n) : word n = stop .overflow :=
  if_neg (Nat.not_lt.mpr h)

theorem halfWord_of_lt {n : Nat} (h : n < halfModulus) : halfWord n = .ok n := if_pos h

theorem difference_of_le {a b : Nat} (h : b ≤ a) : difference a b = .ok (a - b) := if_pos h

theorem quotient_of_pos (a : Nat) {b : Nat} (h : 0 < b) : quotient a b = .ok (a / b) :=
  if_neg (Nat.pos_iff_ne_zero.mp h)

theorem remainder_of_pos (a : Nat) {b : Nat} (h : 0 < b) : remainder a b = .ok (a % b) :=
  if_neg (Nat.pos_iff_ne_zero.mp h)

theorem store_of_lt {l : List α} {i : Nat} (h : i < l.length) (a : α) :
    store l i a = .ok (l.set i a) := if_pos h

theorem update_eq {a : Array α} {i : Nat} {old new : α} {f : α → Computation α}
    (hold : a[i]? = some old) (hnew : f old = .ok new) :
    update a i f = .ok (a.setIfInBounds i new) := by
  rw [update, hold, found_some, ok_bind, hnew]
  rfl

/-! ## Rows of operations -/

theorem bind_of {x : Computation α} {y : Except GraphError α} {f : α → Computation β}
    {k : α → Except GraphError β} (hx : x = of y) (h : ∀ a, y = .ok a → f a = of (k a)) :
    (x >>= f) = of (y >>= k) := by
  subst hx
  cases y with
  | error e => rfl
  | ok a => exact h a rfl

/-- The element that comes after those in `done`. -/
theorem getElem?_after {done l : List α} {a : α} (h : done ++ [a] <+: l) :
    l[done.length]? = some a := by
  obtain ⟨rest, rfl⟩ := h
  rw [List.append_assoc, List.getElem?_append_right (Nat.le_refl _), Nat.sub_self]
  rfl

theorem mem_after {done l : List α} {a : α} (h : done ++ [a] <+: l) : a ∈ l :=
  List.mem_of_getElem? (getElem?_after h)

/-- `P` speaks of the elements that are done by now. -/
theorem foldlM_of {f : σ → α → Computation σ} {k : σ → α → Except GraphError σ}
    {P : List α → σ → Prop} {l : List α} {s : σ} (start : P [] s)
    (step : ∀ done a s, done ++ [a] <+: l → P done s →
      f s a = of (k s a) ∧ ∀ s', k s a = .ok s' → P (done ++ [a]) s') :
    l.foldlM f s = of (l.foldlM k s) := by
  -- Induction on what is still to do, which `P` does not see.
  suffices hrest : ∀ (todo done : List α) (s : σ), done ++ todo = l → P done s →
      todo.foldlM f s = of (todo.foldlM k s) from hrest l [] s rfl start
  intro todo
  induction todo with
  | nil => exact fun _ _ _ _ ↦ rfl
  | cons a todo ih =>
    intro done s hl hP
    have hl' : done ++ [a] ++ todo = l := by rw [List.append_assoc, List.singleton_append, hl]
    obtain ⟨hstep, hnext⟩ := step done a s ⟨todo, hl'⟩ hP
    rw [List.foldlM_cons, List.foldlM_cons]
    exact bind_of hstep fun s' hs' ↦ ih (done ++ [a]) s' hl' (hnext s' hs')

/-- A fold whose steps all have a value has one. -/
theorem exists_foldlM {f : σ → α → Computation σ} {P : List α → σ → Prop} {l : List α} {s : σ}
    (start : P [] s)
    (step : ∀ done a s, done ++ [a] <+: l → P done s → ∃ s', f s a = .ok s' ∧ P (done ++ [a]) s') :
    ∃ s', l.foldlM f s = .ok s' ∧ P l s' := by
  have hends : Fold.Ends (l.foldlM f s) (P l) fun _ ↦ False := by
    refine Fold.ends_foldlM start fun done a s hpre hP ↦ ?_
    obtain ⟨s', hs', hP'⟩ := step done a s hpre hP
    rw [hs']
    exact hP'
  exact hends.exists_ok fun _ ↦ id

/-- A fold comes to a fault when one of its steps always does, and no other step ends it in another
way. -/
theorem foldlM_stop {f : σ → α → Computation σ} {P : List α → σ → Prop} {l : List α} {s : σ}
    {fault : Fault} (start : P [] s)
    (step : ∀ done a s, done ++ [a] <+: l → P done s →
      f s a = stop fault ∨ ∃ s', f s a = .ok s' ∧ P (done ++ [a]) s')
    (h : ∃ a ∈ l, ∀ s, f s a = stop fault) : l.foldlM f s = stop fault := by
  -- The fold gets past no element whose step always comes to the fault.
  have hends : Fold.Ends (l.foldlM f s) (fun s ↦ P l s ∧ ∀ a ∈ l, ∃ s, f s a ≠ stop fault)
      fun e ↦ e = .fault fault := by
    refine Fold.ends_foldlM (P := fun done s ↦ P done s ∧ ∀ a ∈ done, ∃ s, f s a ≠ stop fault)
      ⟨start, fun a ha ↦ absurd ha List.not_mem_nil⟩ fun done a s hpre ⟨hP, hpast⟩ ↦ ?_
    rcases step done a s hpre hP with hstop | ⟨s', hs', hP'⟩
    · rw [hstop]
      exact rfl
    · have ha : f s a ≠ stop fault := by
        rw [hs']
        exact fun heq ↦ nomatch heq
      rw [hs']
      refine ⟨hP', fun b hb ↦ ?_⟩
      rcases List.mem_append.mp hb with hb | hb
      · exact hpast b hb
      · exact List.mem_singleton.mp hb ▸ ⟨s, ha⟩
  cases hfold : l.foldlM f s with
  | error e => rw [hends.error hfold, stop]
  | ok s' =>
    rw [hfold] at hends
    obtain ⟨a, ha, hstop⟩ := h
    obtain ⟨s, hs⟩ := hends.2 a ha
    exact absurd (hstop s) hs

/-- A sum of computed words overflows when one of them does. -/
theorem word_bind_add (acc n : Nat) : (word n >>= fun m ↦ word (acc + m)) = word (acc + n) := by
  rcases Nat.lt_or_ge n Word.modulus with hword | hwide
  · rw [word_of_lt hword, ok_bind]
  · rw [word_of_le hwide, word_of_le (Nat.le_trans hwide (Nat.le_add_left n acc))]
    rfl

/-- Adding up one by one overflows just if the whole sum is too large: a sum that has become too large
stays so. -/
theorem foldlM_word_add {step : Nat → α → Computation Nat} {term : α → Nat}
    (hstep : ∀ acc a, step acc a = word (acc + term a)) (l : List α) {acc : Nat}
    (hacc : acc < Word.modulus) :
    l.foldlM step acc = word (acc + (l.map term).foldr (· + ·) 0) := by
  induction l generalizing acc with
  | nil => exact (word_of_lt hacc).symm
  | cons a l ih =>
    rw [List.foldlM_cons, hstep, List.map_cons, List.foldr_cons, ← Nat.add_assoc]
    rcases Nat.lt_or_ge (acc + term a) Word.modulus with hfits | hwide
    · rw [word_of_lt hfits, ok_bind]
      exact ih hfits
    · rw [word_of_le hwide, word_of_le (Nat.le_trans hwide (Nat.le_add_right _ _))]
      rfl

/-- A row of computations that have values has these in order. -/
theorem mapM_eq {f : α → Computation β} {k : α → β} {l : List α} (h : ∀ a ∈ l, f a = .ok (k a)) :
    l.mapM f = .ok (l.map k) := by
  induction l with
  | nil => rfl
  | cons a l ih =>
    rw [List.mapM_cons, h a List.mem_cons_self, ok_bind,
      ih fun b hb ↦ h b (List.mem_cons_of_mem a hb)]
    rfl

/-- A row of computations comes to a fault when one of them does, and no other ends in another way. -/
theorem mapM_stop {f : α → Computation β} {l : List α} {fault : Fault}
    (hends : ∀ a ∈ l, f a = stop fault ∨ ∃ b, f a = .ok b) (h : ∃ a ∈ l, f a = stop fault) :
    l.mapM f = stop fault := by
  induction l with
  | nil => exact absurd h (by simp)
  | cons a l ih =>
    rw [List.mapM_cons]
    rcases hends a List.mem_cons_self with hstop | ⟨b, hb⟩
    · rw [hstop]
      rfl
    · obtain ⟨c, hc, hstop⟩ := h
      have hrest : ∃ c ∈ l, f c = stop fault := by
        rcases List.mem_cons.mp hc with rfl | hc
        · exact nomatch hb.symm.trans hstop
        · exact ⟨c, hc, hstop⟩
      rw [hb, ok_bind, ih (fun c hc ↦ hends c (List.mem_cons_of_mem a hc)) hrest]
      rfl

/-- A loop inside a loop does what one loop over all rows does. -/
theorem foldlM_flatMap {f : σ → β → Computation σ} {rows : α → List β}
    {row : σ → α → Computation σ} {l : List α}
    (h : ∀ a ∈ l, ∀ s, row s a = (rows a).foldlM f s) (s : σ) :
    l.foldlM row s = (l.flatMap rows).foldlM f s := by
  induction l generalizing s with
  | nil => rfl
  | cons a l ih =>
    rw [List.foldlM_cons, List.flatMap_cons, List.foldlM_append, h a List.mem_cons_self]
    refine bind_congr fun s' ↦ ?_
    exact ih (fun b hb ↦ h b (List.mem_cons_of_mem a hb)) s'

/-- Checks one after another find what the first of them that fails has found. -/
theorem forM_of {f : α → Computation Unit} {k : α → Except GraphError Unit} {l : List α}
    (h : ∀ a ∈ l, f a = of (k a)) : l.forM f = of (l.forM k) := by
  induction l with
  | nil => rfl
  | cons a l ih =>
    show (f a >>= fun _ ↦ l.forM f) = of (k a >>= fun _ ↦ l.forM k)
    exact bind_of (h a List.mem_cons_self) fun _ _ ↦ ih fun b hb ↦ h b (List.mem_cons_of_mem a hb)

/-- Checks of one kind refuse the first element that they do not let pass. -/
theorem forM_refuse {f : α → Computation Unit} {p : α → Bool} {e : α → GraphError} {l : List α}
    (h : ∀ a ∈ l, f a = if p a then refuse (e a) else .ok ()) :
    l.forM f = match l.find? p with
      | none => .ok ()
      | some a => refuse (e a) := by
  induction l with
  | nil => rfl
  | cons a l ih =>
    show (f a >>= fun _ ↦ l.forM f) = _
    rw [h a List.mem_cons_self]
    by_cases ha : p a
    · simp [ha]
    · simp [ha, ih fun b hb ↦ h b (List.mem_cons_of_mem a hb)]

end Dataflow.Machine
