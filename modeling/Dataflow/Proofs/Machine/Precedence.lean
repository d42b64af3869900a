import Dataflow.Proofs.Machine.Operation
import Mathlib.Data.List.Nodup
import Mathlib.Data.List.Perm.Subperm
import Mathlib.Tactic.Tauto

/-!
# Sorting by precedence

Some numbers wait for others. Each number knows those that wait for it and how many it still waits for
itself, and the least number that waits for nothing comes next. A number is taken once, so no more is
ever taken off a count than has been put there, and what remains when nothing is ready waits for ever.
-/

namespace Dataflow.Machine

/-- For each number those that wait for it, and how many it waits for. -/
structure Precedence where
  successors : Array (List Nat)
  degrees : Array Nat

namespace Precedence

def start (size : Nat) : Precedence := ⟨Array.replicate size [], Array.replicate size 0⟩

/-- Makes the second number wait for the first. -/
def add (d : Precedence) (pair : Nat × Nat) : Computation Precedence := do
  let successors ← update d.successors pair.1 fun waiting ↦ .ok (waiting ++ [pair.2])
  let degrees ← update d.degrees pair.2 fun degree ↦ halfWord (degree + 1)
  return ⟨successors, degrees⟩

end Precedence

/-- How many each number still waits for, and those that wait for nothing. -/
structure Front where
  degrees : Array Nat
  ready : List Nat

/-- Those that wait for nothing from the start are ready. -/
def Precedence.front (d : Precedence) : Front where
  degrees := d.degrees
  ready := (d.degrees.toList.zipIdx.filter (·.1 = 0)).map (·.2)

/-- What `next` waits for becomes one less. -/
def release (s : Front) (next : Nat) : Computation Front := do
  let degrees ← update s.degrees next fun degree ↦ difference degree 1
  let degree ← found degrees[next]?
  return ⟨degrees, if degree = 0 then next :: s.ready else s.ready⟩

/-- Takes the least number that is ready until there is none, and notes the owners. -/
def sort (successors : Array (List Nat)) (owners : List NodeId) :
    (rounds : Nat) → Front → List NodeId → Computation (Front × List NodeId)
  | 0, s, order => if s.ready = [] then .ok (s, order) else stop .endless
  | rounds + 1, s, order =>
    match s.ready.min? with
    | none => .ok (s, order)
    | some i => do
      let owner ← found owners[i]?
      let waiting ← found successors[i]?
      let s ← waiting.foldlM release ⟨s.degrees, s.ready.erase i⟩
      sort successors owners rounds s (order ++ [owner])

/-! ## What is written down -/

variable {pairs : List (Nat × Nat)} {size : Nat} {done : List Nat}

/-- The numbers that wait for `i`, in the order in which they were told to. -/
def waitingFor (pairs : List (Nat × Nat)) (i : Nat) : List Nat :=
  (pairs.filter (·.1 = i)).map (·.2)

theorem waitingFor_concat (pairs : List (Nat × Nat)) (pair : Nat × Nat) (i : Nat) :
    waitingFor (pairs ++ [pair]) i =
      if pair.1 = i then waitingFor pairs i ++ [pair.2] else waitingFor pairs i := by
  by_cases h : pair.1 = i <;> simp [waitingFor, List.filter_append, h]

theorem mem_of_mem_waitingFor {i y : Nat} (h : y ∈ waitingFor pairs i) : (i, y) ∈ pairs := by
  obtain ⟨⟨a, b⟩, hmem, rfl⟩ := List.mem_map.mp h
  obtain ⟨hpair, hfirst⟩ := List.mem_filter.mp hmem
  cases of_decide_eq_true hfirst
  exact hpair

namespace Precedence

/-- All pairs that were added are there, and nothing else. -/
structure Records (pairs : List (Nat × Nat)) (size : Nat) (d : Precedence) : Prop where
  size_degrees : d.degrees.size = size
  successors {i : Nat} (h : i < size) : d.successors[i]? = some (waitingFor pairs i)
  degrees {i : Nat} (h : i < size) : d.degrees[i]? = some (pairs.countP (·.2 = i))

theorem records_start (size : Nat) : Records [] size (start size) where
  size_degrees := Array.size_replicate
  successors h := by simp [start, h, waitingFor]
  degrees h := by simp [start, h]

theorem Records.add {d : Precedence} (h : Records pairs size d) {pair : Nat × Nat}
    (hfirst : pair.1 < size) (hsecond : pair.2 < size)
    (hfits : (pairs ++ [pair]).countP (·.2 = pair.2) < halfModulus) :
    ∃ d', d.add pair = .ok d' ∧ Records (pairs ++ [pair]) size d' := by
  have hcount : (pairs ++ [pair]).countP (·.2 = pair.2) = pairs.countP (·.2 = pair.2) + 1 := by
    simp [List.countP_append]
  rw [hcount] at hfits
  refine ⟨⟨d.successors.setIfInBounds pair.1 (waitingFor pairs pair.1 ++ [pair.2]),
    d.degrees.setIfInBounds pair.2 (pairs.countP (·.2 = pair.2) + 1)⟩, ?_, ?_⟩
  · have hsuccessors := update_eq (f := fun waiting ↦ .ok (waiting ++ [pair.2]))
      (h.successors hfirst) rfl
    have hdegrees := update_eq (f := fun degree ↦ halfWord (degree + 1))
      (h.degrees hsecond) (halfWord_of_lt hfits)
    rw [Precedence.add, hsuccessors, ok_bind, hdegrees]
    rfl
  · refine ⟨by simpa using h.size_degrees, fun {i} hi ↦ ?_, fun {i} hi ↦ ?_⟩
    · rw [waitingFor_concat]
      by_cases heq : pair.1 = i
      · subst heq
        have hlt := (Array.getElem?_eq_some_iff.mp (h.successors hi)).1
        simp [hlt]
      · simp [heq, h.successors hi]
    · rw [List.countP_append]
      by_cases heq : pair.2 = i
      · subst heq
        have hlt := (Array.getElem?_eq_some_iff.mp (h.degrees hi)).1
        simp [hlt]
      · simp [heq, h.degrees hi]

/-- Pairs of numbers that are there can all be written down, if none waits for too many. -/
theorem exists_records (hpairs : ∀ pair ∈ pairs, pair.1 < size ∧ pair.2 < size)
    (hfits : ∀ i, pairs.countP (·.2 = i) < halfModulus) :
    ∃ d, pairs.foldlM add (start size) = .ok d ∧ Records pairs size d := by
  refine exists_foldlM (P := fun done d ↦ Records done size d) (records_start size) ?_
  intro done pair d hpre hd
  obtain ⟨hfirst, hsecond⟩ := hpairs pair (mem_after hpre)
  exact hd.add hfirst hsecond (Nat.lt_of_le_of_lt hpre.sublist.countP_le (hfits pair.2))

end Precedence

/-! ## What is still to come -/

/-- How many numbers `y` waits for that are not done. -/
def waits (pairs : List (Nat × Nat)) (done : List Nat) (y : Nat) : Nat :=
  pairs.countP fun pair ↦ pair.2 = y ∧ pair.1 ∉ done

theorem waits_eq_zero_iff {y : Nat} :
    waits pairs done y = 0 ↔ ∀ pair ∈ pairs, pair.2 = y → pair.1 ∈ done := by
  simp [waits, List.countP_eq_zero]

theorem waits_nil (pairs : List (Nat × Nat)) (y : Nat) :
    waits pairs [] y = pairs.countP (·.2 = y) := by
  simp [waits]

/-- Those that wait for a number wait for one less when it is done. -/
theorem waits_eq_add_count {m : Nat} (hm : m ∉ done) (y : Nat) :
    waits pairs done y = waits pairs (m :: done) y + (waitingFor pairs m).count y := by
  have hothers : ((pairs.filter fun pair ↦ !decide (pair.1 = m)).countP
      fun pair ↦ pair.2 = y ∧ pair.1 ∉ done) = waits pairs (m :: done) y := by
    rw [List.countP_filter, waits]
    congr 1
    funext pair
    by_cases hfirst : pair.1 = m <;> simp [hfirst]
  have hwaiting : ((pairs.filter fun pair ↦ decide (pair.1 = m)).countP
      fun pair ↦ pair.2 = y ∧ pair.1 ∉ done) = (waitingFor pairs m).count y := by
    rw [waitingFor, List.count, List.countP_map]
    refine List.countP_congr fun pair hpair ↦ ?_
    have hfirst : pair.1 = m := of_decide_eq_true (List.mem_filter.mp hpair).2
    simp [hfirst, hm]
  rw [waits, List.countP_eq_countP_filter_add _ _ fun pair ↦ decide (pair.1 = m), hwaiting, hothers,
    Nat.add_comm]

/-- The front after the numbers in `done`, where `degree` says what the others still wait for. -/
structure Front.Holds (size : Nat) (degree : Nat → Nat) (done : List Nat) (s : Front) : Prop where
  size_degrees : s.degrees.size = size
  degrees {y : Nat} (h : y < size) : s.degrees[y]? = some (degree y)
  mem_ready {y : Nat} : y ∈ s.ready ↔ y < size ∧ y ∉ done ∧ degree y = 0
  nodup_ready : s.ready.Nodup
  settled {y : Nat} (h : y ∈ done) : y < size ∧ degree y = 0
  nodup : done.Nodup

namespace Front.Holds

variable {degree : Nat → Nat} {s : Front}

theorem length_le (h : s.Holds size degree done) : done.length ≤ size := by
  have hsub : done ⊆ List.range size := fun y hy ↦ List.mem_range.mpr (h.settled hy).1
  simpa using (h.nodup.subperm hsub).length_le

theorem mem_of_length_eq (h : s.Holds size degree done) (hlength : done.length = size) {y : Nat}
    (hy : y < size) : y ∈ done := by
  have hsub : done ⊆ List.range size := fun y hy ↦ List.mem_range.mpr (h.settled hy).1
  have hperm := (h.nodup.subperm hsub).perm_of_length_le (by simp [hlength])
  exact hperm.mem_iff.mpr (List.mem_range.mpr hy)

/-- Where nothing is ready, what is not done waits for something. -/
theorem degree_pos_iff (h : s.Holds size degree done) (hend : s.ready = []) {y : Nat}
    (hy : y < size) : 0 < degree y ↔ y ∉ done := by
  constructor
  · intro hpos hdone
    exact Nat.ne_of_gt hpos (h.settled hdone).2
  · intro hnew
    refine Nat.pos_of_ne_zero fun hzero ↦ ?_
    have hready := h.mem_ready.mpr ⟨hy, hnew, hzero⟩
    simp [hend] at hready

theorem start {d : Precedence} (hd : d.Records pairs size) :
    d.front.Holds size (waits pairs []) [] := by
  refine ⟨hd.size_degrees, fun {y} hy ↦ ?_, fun {y} ↦ ?_, ?_, nofun, List.nodup_nil⟩
  · rw [waits_nil]
    exact hd.degrees hy
  · have hmem : y ∈ d.front.ready ↔ d.degrees[y]? = some 0 := by
      simp [Precedence.front, List.mem_zipIdx_iff_getElem?]
    rw [hmem, waits_nil]
    constructor
    · intro hdegree
      have hlt : y < size := hd.size_degrees ▸ (Array.getElem?_eq_some_iff.mp hdegree).1
      rw [hd.degrees hlt] at hdegree
      exact ⟨hlt, List.not_mem_nil, Option.some.inj hdegree⟩
    · rintro ⟨hlt, -, hzero⟩
      rw [hd.degrees hlt, hzero]
  · refine List.Nodup.sublist (List.filter_sublist.map _) ?_
    rw [List.zipIdx_map_snd]
    exact List.nodup_range'

/-- One number less to wait for. -/
theorem release (h : s.Holds size degree done) {next : Nat} (hnext : next < size)
    {degree' : Nat → Nat} (hdegree : ∀ y, degree y = degree' y + if y = next then 1 else 0) :
    ∃ s', Machine.release s next = .ok s' ∧ s'.Holds size degree' done := by
  have hpos : degree next = degree' next + 1 := by rw [hdegree, if_pos rfl]
  have hother {y : Nat} (hy : y ≠ next) : degree y = degree' y := by rw [hdegree, if_neg hy]; rfl
  have hnew : next ∉ done := fun hdone ↦ by
    have hzero := (h.settled hdone).2
    omega
  have hlt : next < s.degrees.size := h.size_degrees ▸ hnext
  have hdifference : difference (degree next) 1 = .ok (degree' next) := by
    rw [difference_of_le (by omega), hpos, Nat.add_sub_cancel]
  refine ⟨⟨s.degrees.setIfInBounds next (degree' next),
    if degree' next = 0 then next :: s.ready else s.ready⟩, ?_, ?_⟩
  · rw [Machine.release, update_eq (h.degrees hnext) hdifference, ok_bind,
      Array.getElem?_setIfInBounds_self_of_lt hlt]
    rfl
  · have hwaiting : next ∉ s.ready := fun hready ↦ by
      have hzero := (h.mem_ready.mp hready).2.2
      omega
    refine ⟨by simpa using h.size_degrees, fun {y} hy ↦ ?_, fun {y} ↦ ?_, ?_, fun {y} hy ↦ ?_, h.nodup⟩
    · by_cases heq : next = y
      · subst heq
        exact Array.getElem?_setIfInBounds_self_of_lt hlt
      · rw [Array.getElem?_setIfInBounds_ne heq, h.degrees hy, hother (Ne.symm heq)]
    · by_cases heq : y = next
      · subst heq
        by_cases hzero : degree' y = 0
        · simp [hzero, hnext, hnew]
        · simp [hzero, hwaiting]
      · have hsame : y ∈ s.ready ↔ y < size ∧ y ∉ done ∧ degree' y = 0 := by
          rw [h.mem_ready, hother heq]
        split
        · rw [List.mem_cons, hsame]
          simp [heq]
        · exact hsame
    · split
      · exact List.nodup_cons.mpr ⟨hwaiting, h.nodup_ready⟩
      · exact h.nodup_ready
    · obtain ⟨hlt, hzero⟩ := h.settled hy
      exact ⟨hlt, by have hle := hdegree y; omega⟩

/-- Taking a ready number off the front. -/
theorem take (h : s.Holds size degree done) {m : Nat} (hm : m ∈ s.ready) :
    Holds size degree (m :: done) ⟨s.degrees, s.ready.erase m⟩ := by
  obtain ⟨hlt, hnew, hzero⟩ := h.mem_ready.mp hm
  refine ⟨h.size_degrees, h.degrees, fun {y} ↦ ?_, h.nodup_ready.erase m, fun {y} hy ↦ ?_,
    List.nodup_cons.mpr ⟨hnew, h.nodup⟩⟩
  · rw [h.nodup_ready.mem_erase_iff, h.mem_ready, List.mem_cons, not_or]
    tauto
  · rcases List.mem_cons.mp hy with rfl | hold
    · exact ⟨hlt, hzero⟩
    · exact h.settled hold

/-- Everything that waited for `m` waits for one number less when `m` is done. -/
theorem next (h : s.Holds size (waits pairs done) done) {m : Nat} (hm : m ∈ s.ready)
    (hpairs : ∀ pair ∈ pairs, pair.1 < size ∧ pair.2 < size) :
    ∃ s', (waitingFor pairs m).foldlM Machine.release ⟨s.degrees, s.ready.erase m⟩ = .ok s' ∧
      s'.Holds size (waits pairs (m :: done)) (m :: done) := by
  have hnew : m ∉ done := (h.mem_ready.mp hm).2.1
  -- A number can wait for `m` more than once, so the releases are counted.
  have hfold := exists_foldlM (f := Machine.release) (l := waitingFor pairs m)
    (P := fun released s' ↦ s'.Holds size (fun y ↦ waits pairs (m :: done) y +
      ((waitingFor pairs m).count y - released.count y)) (m :: done))
    (s := ⟨s.degrees, s.ready.erase m⟩) ?_ ?_
  · simpa using hfold
  · have htaken := h.take hm
    simpa [← waits_eq_add_count hnew] using htaken
  · intro released next s' hpre hs'
    have hnext : next ∈ waitingFor pairs m := mem_after hpre
    refine hs'.release (hpairs _ (mem_of_mem_waitingFor hnext)).2 fun y ↦ ?_
    have hcount := hpre.sublist.count_le y
    rw [List.count_append, List.count_singleton] at hcount ⊢
    by_cases hy : y = next
    · subst hy
      simp only [beq_self_eq_true, if_true] at hcount ⊢
      omega
    · have hne : (next == y) = false := by simpa using Ne.symm hy
      simp only [hne, if_neg hy, Bool.false_eq_true, if_false] at hcount ⊢
      omega

end Front.Holds

/-! ## The order -/

/-- The least number that is not done and waits for nothing. -/
def least? (pairs : List (Nat × Nat)) (size : Nat) (done : List Nat) : Option Nat :=
  (List.range size).find? fun y ↦ y ∉ done ∧ waits pairs done y = 0

/-- Everything that can be done, the latest first. -/
def doneAfter (pairs : List (Nat × Nat)) (size : Nat) : (rounds : Nat) → List Nat → List Nat
  | 0, done => done
  | rounds + 1, done =>
    match least? pairs size done with
    | none => done
    | some m => doneAfter pairs size rounds (m :: done)

theorem Front.Holds.min?_ready {s : Front} (h : s.Holds size (waits pairs done) done) :
    s.ready.min? = least? pairs size done := by
  cases hleast : least? pairs size done with
  | none =>
    rw [List.min?_eq_none_iff]
    refine List.eq_nil_iff_forall_not_mem.mpr fun y hy ↦ ?_
    obtain ⟨hlt, hnew, hzero⟩ := h.mem_ready.mp hy
    have hnot := List.find?_eq_none.mp hleast y (List.mem_range.mpr hlt)
    simp [hnew, hzero] at hnot
  | some m =>
    obtain ⟨hm, hmem, hbefore⟩ := List.find?_range_eq_some.mp hleast
    rw [List.min?_eq_some_iff]
    refine ⟨h.mem_ready.mpr ⟨List.mem_range.mp hmem, by simpa using hm⟩, fun y hy ↦ ?_⟩
    by_contra hlt
    obtain ⟨-, hnew, hzero⟩ := h.mem_ready.mp hy
    have hnot := hbefore y (by omega)
    simp [hnew, hzero] at hnot

/-- The sort takes what can be done, in the same order, and stops when nothing is ready. -/
theorem sort_eq {d : Precedence} (hd : d.Records pairs size)
    (hpairs : ∀ pair ∈ pairs, pair.1 < size ∧ pair.2 < size) {owners : List NodeId}
    (howners : owners.length = size) {rounds : Nat} {s : Front}
    (h : s.Holds size (waits pairs done) done) (hrounds : rounds + done.length = size) :
    let done' := doneAfter pairs size rounds done
    ∃ s', sort d.successors owners rounds s (done.map (owners.getD · 0)).reverse =
        .ok (s', (done'.map (owners.getD · 0)).reverse) ∧
      s'.ready = [] ∧ s'.Holds size (waits pairs done') done' := by
  induction rounds generalizing s done with
  | zero =>
    -- Each round has done one number, so all are done.
    have hend : s.ready = [] := by
      refine List.eq_nil_iff_forall_not_mem.mpr fun y hy ↦ ?_
      obtain ⟨hlt, hnew, -⟩ := h.mem_ready.mp hy
      exact hnew (h.mem_of_length_eq (by omega) hlt)
    exact ⟨s, if_pos hend, hend, h⟩
  | succ rounds ih =>
    have hmin := h.min?_ready
    cases hleast : least? pairs size done with
    | none =>
      rw [hleast] at hmin
      simp only [doneAfter, hleast]
      exact ⟨s, by rw [sort, hmin], List.min?_eq_none_iff.mp hmin, h⟩
    | some m =>
      rw [hleast] at hmin
      have hmem : m ∈ s.ready := List.min?_mem hmin
      have hlt : m < size := (h.mem_ready.mp hmem).1
      obtain ⟨s₁, hrelease, hholds⟩ := h.next hmem hpairs
      obtain ⟨s', hsort, hend⟩ := ih hholds (by rw [List.length_cons]; omega)
      simp only [doneAfter, hleast]
      refine ⟨s', ?_, hend⟩
      have howner : owners[m]? = some (owners.getD m 0) := by
        rw [List.getD_eq_getElem?_getD, List.getElem?_eq_getElem (howners ▸ hlt)]
        rfl
      rw [sort, hmin]
      simp only [howner, hd.successors hlt, found_some, ok_bind, hrelease]
      rw [← hsort, List.map_cons, List.reverse_cons]

end Dataflow.Machine
