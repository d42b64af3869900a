import Mathlib.Data.List.Perm.Basic

/-!
# Sequences of steps

A sequence of steps is legal when each step is allowed in the state it starts from. Where allowed steps
neither disable each other nor mind their order, a legal sequence can be left for another one and be
resumed later with the steps that are still missing, and sequences of the same steps end in the same
state.
-/

namespace Dataflow.Steps

variable {α σ : Type} {ok ok' : α → σ → Prop} {step : α → σ → σ} {a : α} {v w : List α} {s : σ}

def run (step : α → σ → σ) (w : List α) (s : σ) : σ := w.foldl (fun s a ↦ step a s) s

/-- Each step happens where `ok` allows it. -/
def Along (ok : α → σ → Prop) (step : α → σ → σ) : List α → σ → Prop
  | [], _ => True
  | a :: w, s => ok a s ∧ Along ok step w (step a s)

@[simp]
theorem run_nil : run step [] s = s := rfl

@[simp]
theorem run_cons : run step (a :: w) s = run step w (step a s) := rfl

@[simp]
theorem run_append : run step (v ++ w) s = run step w (run step v s) := List.foldl_append

/-- A sequence that comes back can be repeated. -/
theorem run_flatten_replicate (h : run step w s = s) (k : Nat) :
    run step (List.replicate k w).flatten s = s := by
  induction k with
  | zero => rfl
  | succ k ih => rw [List.replicate_succ, List.flatten_cons, run_append, h, ih]

@[simp]
theorem along_nil : Along ok step [] s := trivial

@[simp]
theorem along_cons : Along ok step (a :: w) s ↔ ok a s ∧ Along ok step w (step a s) := Iff.rfl

@[simp]
theorem along_append :
    Along ok step (v ++ w) s ↔ Along ok step v s ∧ Along ok step w (run step v s) := by
  induction v generalizing s with
  | nil => simp
  | cons a v ih => simp [ih, and_assoc]

theorem Along.mono (h : Along ok step w s) (himp : ∀ a s, ok a s → ok' a s) :
    Along ok' step w s := by
  induction w generalizing s with
  | nil => trivial
  | cons a w ih => exact ⟨himp a s h.1, ih h.2⟩

theorem Along.and (h : Along ok step w s) (h' : Along ok' step w s) :
    Along (fun a s ↦ ok a s ∧ ok' a s) step w s := by
  induction w generalizing s with
  | nil => trivial
  | cons a w ih => exact ⟨⟨h.1, h'.1⟩, ih h.2 h'.2⟩

/-- To allow every step of a sequence is to allow each after those before it. -/
theorem along_of_forall_split (h : ∀ v a u, w = v ++ a :: u → ok a (run step v s)) :
    Along ok step w s := by
  induction w generalizing s with
  | nil => trivial
  | cons a w ih =>
    refine ⟨h [] a w rfl, ih fun v b u hw ↦ ?_⟩
    exact h (a :: v) b u (by rw [hw, List.cons_append])

theorem Along.and_mem (h : Along ok step w s) : Along (fun a s ↦ a ∈ w ∧ ok a s) step w s := by
  have hmem : Along (fun a _ ↦ a ∈ w) step w s :=
    along_of_forall_split fun v a u hw ↦ by simp [hw]
  exact hmem.and h

/-! ## Steps that do not meet -/

/-- Of two different steps that are allowed, each leaves the other allowed, and their order does not
matter. -/
structure Diamond (ok : α → σ → Prop) (step : α → σ → σ) : Prop where
  keeps {a b : α} {s : σ} (hne : a ≠ b) (ha : ok a s) (hb : ok b s) : ok b (step a s)
  comm {a b : α} {s : σ} (hne : a ≠ b) (ha : ok a s) (hb : ok b s) :
    step b (step a s) = step a (step b s)

namespace Diamond

variable [DecidableEq α]

/-- A step that is allowed now can be taken first. -/
theorem along_erase (hd : Diamond ok step) (hw : Along ok step w s) (ha : ok a s) :
    Along ok step (w.erase a) (step a s) := by
  induction w generalizing s with
  | nil => trivial
  | cons b w ih =>
    by_cases hb : b = a
    · subst hb
      rw [List.erase_cons_head]
      exact hw.2
    · rw [List.erase_cons_tail (by simpa using hb)]
      refine ⟨hd.keeps (Ne.symm hb) ha hw.1, ?_⟩
      rw [← hd.comm hb hw.1 ha]
      exact ih hw.2 (hd.keeps hb hw.1 ha)

theorem run_erase (hd : Diamond ok step) (hw : Along ok step w s) (ha : ok a s) (hmem : a ∈ w) :
    run step (w.erase a) (step a s) = run step w s := by
  induction w generalizing s with
  | nil => simp at hmem
  | cons b w ih =>
    by_cases hb : b = a
    · subst hb
      rw [List.erase_cons_head, run_cons]
    · rw [List.erase_cons_tail (by simpa using hb), run_cons, run_cons, ← hd.comm hb hw.1 ha]
      exact ih hw.2 (hd.keeps hb hw.1 ha) ((List.mem_cons.mp hmem).resolve_left (Ne.symm hb))

/-- After `v`, the steps of `w` that are not in `v` are still a legal sequence. -/
theorem along_diff (hd : Diamond ok step) (hv : Along ok step v s) (hw : Along ok step w s) :
    Along ok step (w.diff v) (run step v s) := by
  induction v generalizing w s with
  | nil => simpa using hw
  | cons a v ih =>
    rw [List.diff_cons, run_cons]
    exact ih hv.2 (hd.along_erase hw hv.1)

/-- Legal sequences of the same steps end in the same state. -/
theorem run_eq_of_perm (hd : Diamond ok step) (hv : Along ok step v s) (hw : Along ok step w s)
    (h : v.Perm w) : run step v s = run step w s := by
  induction v generalizing w s with
  | nil => rw [h.nil_eq]
  | cons a v ih =>
    have hmem : a ∈ w := h.subset List.mem_cons_self
    have hrest : v.Perm (w.erase a) := (List.cons_perm_iff_perm_erase.mp h).2
    rw [← hd.run_erase hw hv.1 hmem, run_cons]
    exact ih hv.2 (hd.along_erase hw hv.1) hrest

end Diamond

end Dataflow.Steps
