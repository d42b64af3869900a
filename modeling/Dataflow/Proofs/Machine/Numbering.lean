import Dataflow.Proofs.Machine.Operation
import Dataflow.Proofs.Schedule.Period
import Mathlib.Algebra.BigOperators.Group.List.Basic

/-!
# Numbers of firings

All firings of a period stand in one row, node after node. A firing is known by its number in that row,
which is where the firings of its node begin, plus how often this node has fired before. Each number of
the row belongs to one firing of one node.
-/

namespace Dataflow

namespace Repetitions

variable {r : Repetitions} {m n k l : Nat}

/-- The number of the first firing of a node. -/
def offset (r : Repetitions) (n : NodeId) : Nat := (r.counts.take n).sum

@[simp]
theorem offset_zero (r : Repetitions) : r.offset 0 = 0 := rfl

theorem offset_succ (r : Repetitions) (n : NodeId) : r.offset (n + 1) = r.offset n + r.get n := by
  unfold offset get
  rcases Nat.lt_or_ge n r.counts.length with hn | hn
  · rw [List.sum_take_succ r.counts n hn, List.getElem?_eq_getElem hn, Option.getD_some]
  · rw [List.take_of_length_le hn, List.take_of_length_le (Nat.le_succ_of_le hn),
      List.getElem?_eq_none hn]
    rfl

theorem offset_length (r : Repetitions) : r.offset r.counts.length = r.total := by
  rw [offset, List.take_length]
  rfl

theorem offset_mono (r : Repetitions) (h : m ≤ n) : r.offset m ≤ r.offset n := by
  induction n, h using Nat.le_induction with
  | base => exact Nat.le_refl _
  | succ n _ ih => exact ih.trans (r.offset_succ n ▸ Nat.le_add_right _ _)

/-- The firings of a node end before those of the next begin. -/
theorem offset_add_lt (hk : k < r.get m) (h : m < n) : r.offset m + k < r.offset n := by
  refine Nat.lt_of_lt_of_le ?_ (r.offset_mono h)
  rw [Nat.succ_eq_add_one, offset_succ]
  omega

theorem offset_add_lt_total (hk : k < r.get n) : r.offset n + k < r.total := by
  rw [← offset_length]
  exact offset_add_lt hk (lt_of_get_pos (Nat.zero_lt_of_lt hk))

theorem offset_add_inj (hk : k < r.get m) (hl : l < r.get n) :
    r.offset m + k = r.offset n + l ↔ m = n ∧ k = l := by
  constructor
  · intro h
    rcases Nat.lt_trichotomy m n with hlt | rfl | hgt
    · have hbefore := offset_add_lt hk hlt
      omega
    · exact ⟨rfl, Nat.add_left_cancel h⟩
    · have hbefore := offset_add_lt hl hgt
      omega
  · rintro ⟨rfl, rfl⟩
    rfl

/-- The numbers of the firings of the first nodes are all numbers below the next. -/
theorem range_offset (r : Repetitions) (n : NodeId) : List.range (r.offset n) =
    (List.range n).flatMap fun m ↦ (List.range (r.get m)).map (r.offset m + ·) := by
  induction n with
  | zero => rfl
  | succ n ih =>
    rw [offset_succ, List.range_add, ih, List.range_succ, List.flatMap_append, List.flatMap_singleton]

theorem range_total (r : Repetitions) : List.range r.total =
    (List.range r.counts.length).flatMap fun n ↦ (List.range (r.get n)).map (r.offset n + ·) := by
  rw [← offset_length, range_offset]

theorem exists_offset (h : m < r.total) : ∃ n k, k < r.get n ∧ m = r.offset n + k := by
  have hmem := List.mem_range.mpr h
  rw [range_total, List.mem_flatMap] at hmem
  obtain ⟨n, -, hmem⟩ := hmem
  obtain ⟨k, hk, rfl⟩ := List.mem_map.mp hmem
  exact ⟨n, k, List.mem_range.mp hk, rfl⟩

theorem zipIdx_counts (r : Repetitions) :
    r.counts.zipIdx = (List.range r.counts.length).map fun n ↦ (r.get n, n) := by
  apply List.ext_getElem (by simp)
  intro n hn _
  have hlt : n < r.counts.length := by simpa using hn
  simp [get, hlt]

theorem total_lt (r : Repetitions) (h : ∀ n, r.get n < Spread.countLimit) :
    r.total ≤ r.counts.length * (Spread.countLimit - 1) := by
  rw [← offset_length]
  induction r.counts.length with
  | zero => simp
  | succ n ih =>
    rw [offset_succ, Nat.succ_mul]
    exact Nat.add_le_add ih (Nat.le_sub_one_of_lt (h n))

end Repetitions

namespace Machine

variable {r : Repetitions}

/-- The number of all firings. -/
def total (r : Repetitions) : Computation Nat :=
  r.counts.foldlM (fun acc count ↦ word (acc + count)) 0

/-- The next node begins behind the numbers so far, and `count` more follow. -/
def pushOffset (row : List Nat × Nat) (count : Nat) : Computation (List Nat × Nat) := do
  let next ← word (row.2 + count)
  return (row.1 ++ [row.2], next)

/-- The number of the first firing of each node, and of all firings. -/
def offsets (r : Repetitions) : Computation (List Nat × Nat) := do
  let row ← r.counts.foldlM pushOffset ([], 0)
  return (row.1 ++ [row.2], row.2)

/-- The node of each firing. -/
def owners (r : Repetitions) : List NodeId :=
  r.counts.zipIdx.flatMap fun (count, n) ↦ List.replicate count n

theorem offset_length_of_concat {done : List Nat} {count : Nat} (h : done ++ [count] <+: r.counts) :
    r.offset (done.length + 1) = r.offset done.length + count := by
  have hcount : r.get done.length = count := by
    rw [Repetitions.get, getElem?_after h, Option.getD_some]
  rw [r.offset_succ, hcount]

/-- What has been added up by now is no more than the sum. -/
theorem word_offset {done : List Nat} {count : Nat} (h : r.total < Word.modulus)
    (hpre : done ++ [count] <+: r.counts) :
    word (r.offset done.length + count) = .ok (r.offset (done.length + 1)) := by
  have hle : r.offset (done.length + 1) ≤ r.total := by
    rw [← r.offset_length]
    exact r.offset_mono (by simpa using hpre.length_le)
  rw [← offset_length_of_concat hpre]
  exact word_of_lt (Nat.lt_of_le_of_lt hle h)

/-- The firings of a period can be counted in a word. -/
theorem total_lt_modulus {g : Graph} (hr : r.Balances g)
    (hnodes : g.nodes.length < 2147483648) : r.total < Word.modulus := by
  have hcount : ∀ n, r.get n < Spread.countLimit := fun n ↦ by
    rcases Nat.lt_or_ge n g.nodes.length with hn | hn
    · exact hr.fits hn
    · rw [Repetitions.get_eq_zero (hr.length ▸ hn)]
      decide
  have hsize : r.counts.length * (Spread.countLimit - 1) ≤ 2147483648 * (Spread.countLimit - 1) :=
    Nat.mul_le_mul_right _ (hr.length ▸ Nat.le_of_lt hnodes)
  exact Nat.lt_of_le_of_lt ((r.total_lt hcount).trans hsize) (by decide)

theorem total_eq (h : r.total < Word.modulus) : total r = .ok r.total := by
  have hsum : total r = word (0 + (r.counts.map id).foldr (· + ·) 0) :=
    foldlM_word_add (fun _ _ ↦ rfl) r.counts (by decide)
  rw [hsum, List.map_id, Nat.zero_add]
  exact word_of_lt h

theorem offsets_eq (h : r.total < Word.modulus) :
    offsets r = .ok ((List.range (r.counts.length + 1)).map r.offset, r.total) := by
  obtain ⟨row, hfold, hbegins, hacc⟩ := exists_foldlM (f := pushOffset) (l := r.counts)
    (P := fun done row ↦ row.1 = (List.range done.length).map r.offset ∧
      row.2 = r.offset done.length)
    (s := ([], 0)) ⟨rfl, r.offset_zero.symm⟩ (fun done count row hpre ⟨hbegins, hacc⟩ ↦ by
      refine ⟨(row.1 ++ [row.2], r.offset (done.length + 1)), ?_, ?_, ?_⟩
      · rw [pushOffset, hacc, word_offset h hpre]
        rfl
      · simp [hbegins, hacc, List.range_succ]
      · simp)
  rw [offsets, hfold, ok_bind, List.range_succ, List.map_append, List.map_singleton, hbegins, hacc,
    r.offset_length]
  rfl

theorem owners_eq (r : Repetitions) :
    owners r = (List.range r.counts.length).flatMap fun n ↦ List.replicate (r.get n) n := by
  rw [owners, r.zipIdx_counts, List.flatMap_map]

theorem length_replicates (r : Repetitions) (size : Nat) :
    ((List.range size).flatMap fun n ↦ List.replicate (r.get n) n).length = r.offset size := by
  have hrow := congrArg List.length (r.range_offset size)
  rw [List.length_range, List.length_flatMap] at hrow
  rw [hrow, List.length_flatMap]
  simp

theorem length_owners (r : Repetitions) : (owners r).length = r.total := by
  rw [owners_eq, length_replicates, r.offset_length]

theorem owners_getElem? {n : NodeId} {k : Nat} (hk : k < r.get n) :
    (owners r)[r.offset n + k]? = some n := by
  have hrows (size : Nat) (hn : n < size) :
      ((List.range size).flatMap fun n ↦ List.replicate (r.get n) n)[r.offset n + k]? = some n := by
    induction size with
    | zero => exact absurd hn (Nat.not_lt_zero n)
    | succ size ih =>
      have hlength := length_replicates r size
      rw [List.range_succ, List.flatMap_append, List.flatMap_singleton]
      rcases Nat.lt_succ_iff_lt_or_eq.mp hn with hlt | rfl
      · rw [List.getElem?_append_left (hlength ▸ Repetitions.offset_add_lt hk hlt)]
        exact ih hlt
      · rw [List.getElem?_append_right (hlength ▸ Nat.le_add_right _ _), hlength,
          Nat.add_sub_cancel_left, List.getElem?_replicate, if_pos hk]
  rw [owners_eq]
  exact hrows _ (Repetitions.lt_of_get_pos (Nat.zero_lt_of_lt hk))

end Machine

end Dataflow
