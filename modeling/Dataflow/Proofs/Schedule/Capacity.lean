import Dataflow.Proofs.Schedule.Period
import Dataflow.Schedule.Capacity

/-!
# Capacities that carry a period

The peak of an edge is the least capacity with which the order of a period never overflows it. The
replay against fixed capacities succeeds exactly when each firing of the order is ready and the initial
tokens come back, so without a limit a fixed order always gets capacities that carry it.
-/

namespace Dataflow

/-- The entries of an array by edge. -/
def Levels.of (a : Array Nat) : Levels := fun id ↦ a.getD id 0

namespace Levels

theorem of_modify (a : Array Nat) (i : EdgeId) (f : Nat → Nat) (id : EdgeId) :
    of (a.modify i f) id = if id = i ∧ id < a.size then f (of a id) else of a id := by
  simp only [of, Array.getD_eq_getD_getElem?, Array.getElem?_modify]
  by_cases hid : i = id
  · subst hid
    by_cases hlt : i < a.size <;> simp [hlt]
  · simp [hid, Ne.symm hid]

theorem of_toArray (l : List Nat) (id : EdgeId) : of l.toArray id = l[id]?.getD 0 := by
  simp [of, Array.getD_eq_getD_getElem?]

theorem setIfInBounds_eq_modify (a : Array Nat) (i : Nat) (f : Nat → Nat) :
    a.setIfInBounds i (f (a.getD i 0)) = a.modify i f := by
  apply Array.ext_getElem?
  intro j
  simp only [Array.getElem?_setIfInBounds, Array.getElem?_modify, Array.getD_eq_getD_getElem?]
  by_cases hj : i = j
  · subst hj
    by_cases hlt : i < a.size <;> simp [hlt]
  · simp [hj]

/-- The array with `f (· rate)` done at every edge of `rates`. -/
def change (f : Nat → Nat → Nat) (rates : List EdgeRate) (a : Array Nat) : Array Nat :=
  rates.foldl (fun a r ↦ a.modify r.edge (f · r.rate)) a

@[simp]
theorem size_change (f : Nat → Nat → Nat) (rates : List EdgeRate) (a : Array Nat) :
    (change f rates a).size = a.size := by
  induction rates generalizing a with
  | nil => rfl
  | cons r rates ih => simpa [change] using ih (a.modify r.edge (f · r.rate))

theorem of_change (f : Nat → Nat → Nat) (rate : EdgeId → Nat) {ids : List EdgeId}
    (hnodup : ids.Nodup) {a : Array Nat} (hlt : ∀ id ∈ ids, id < a.size) (id : EdgeId) :
    of (change f (ids.map fun id ↦ ⟨id, rate id⟩) a) id =
      if id ∈ ids then f (of a id) (rate id) else of a id := by
  induction ids generalizing a with
  | nil => rfl
  | cons i ids ih =>
    obtain ⟨hi, hnodup⟩ := List.nodup_cons.mp hnodup
    have hrest := ih hnodup (a := a.modify i (f · (rate i)))
      (fun j hj ↦ by simpa using hlt j (List.mem_cons_of_mem i hj))
    refine hrest.trans ?_
    rw [of_modify]
    by_cases hid : id = i
    · subst hid
      simp [hi, hlt id List.mem_cons_self]
    · simp [hid]

end Levels

namespace Graph

variable {g : Graph}

theorem Coherent.moved_eq (hg : g.Coherent) (d : Direction) (n : NodeId) (id : EdgeId) :
    g.moved d n id = if id ∈ g.edgesAt d n then g.rateAt d id else 0 := by
  cases he : g.edges[id]? with
  | none => simp [moved, rateAt, he]
  | some e =>
    have hmem : id ∈ g.edgesAt d n ↔ (e.portAt d).node = n := by
      simp [hg.mem_edgesAt, he]
    simp [moved_of_getElem? he, Edge.moved, rateAt, he, hmem]

theorem Coherent.moved_of_mem (hg : g.Coherent) {d : Direction} {n : NodeId} {id : EdgeId}
    (hid : id ∈ g.edgesAt d n) : g.moved d n id = g.rateAt d id := by
  rw [hg.moved_eq, if_pos hid]

theorem Coherent.moved_of_not_mem (hg : g.Coherent) {d : Direction} {n : NodeId} {id : EdgeId}
    (hid : id ∉ g.edgesAt d n) : g.moved d n id = 0 := by
  rw [hg.moved_eq, if_neg hid]

/-- A firing leaves the edges of other nodes as they are. -/
theorem Coherent.after_of_forall_not_mem (hg : g.Coherent) {n : NodeId} {id : EdgeId}
    (hid : ∀ d, id ∉ g.edgesAt d n) (level : Levels) : g.after n level id = level id := by
  calc
    g.after n level id = level id + g.moved .output n id - g.moved .input n id := rfl
    _ = level id + 0 - 0 := by rw [hg.moved_of_not_mem (hid _), hg.moved_of_not_mem (hid _)]
    _ = level id := rfl

theorem Coherent.lt_of_mem_edgesAt (hg : g.Coherent) {d : Direction} {n : NodeId} {id : EdgeId}
    (h : id ∈ g.edgesAt d n) : id < g.edges.length := by
  obtain ⟨e, he, -⟩ := hg.mem_edgesAt.mp h
  exact (List.getElem?_eq_some_iff.mp he).1

theorem inputs_guard (g : Graph) (n : NodeId) :
    (g.guard n).inputs = (g.edgesAt .input n).map fun id ↦ ⟨id, g.rateAt .input id⟩ := rfl

theorem outputs_guard (g : Graph) (n : NodeId) :
    (g.guard n).outputs = (g.edgesAt .output n).map fun id ↦ ⟨id, g.rateAt .output id⟩ := rfl

/-- What a firing adds to an array of levels. -/
theorem Coherent.of_change_outputs (hg : g.Coherent) (n : NodeId) {a : Array Nat}
    (ha : a.size = g.edges.length) :
    Levels.of (Levels.change (· + ·) (g.guard n).outputs a) =
      fun id ↦ Levels.of a id + g.moved .output n id := by
  funext id
  rw [outputs_guard, Levels.of_change _ _ (hg.nodup_edgesAt .output n)
    (fun id hid ↦ ha ▸ hg.lt_of_mem_edgesAt hid), hg.moved_eq]
  split <;> rfl

/-- What a firing takes from an array of levels. -/
theorem Coherent.of_change_inputs (hg : g.Coherent) (n : NodeId) {a : Array Nat}
    (ha : a.size = g.edges.length) :
    Levels.of (Levels.change (· - ·) (g.guard n).inputs a) =
      fun id ↦ Levels.of a id - g.moved .input n id := by
  funext id
  rw [inputs_guard, Levels.of_change _ _ (hg.nodup_edgesAt .input n)
    (fun id hid ↦ ha ▸ hg.lt_of_mem_edgesAt hid), hg.moved_eq]
  split <;> rfl

theorem size_delays (g : Graph) : g.delays.size = g.edges.length := by simp [delays]

theorem of_delays (g : Graph) : Levels.of g.delays = g.delay := by
  funext id
  simp [delays, Levels.of_toArray, delay]

/-- The guards of an order are those of its nodes, and a node that does not exist has an empty one. -/
theorem guardsOf_eq (g : Graph) (order : List NodeId) : g.guardsOf order = order.map g.guard := by
  refine List.map_congr_left fun n _ ↦ ?_
  rw [Array.getD_eq_getD_getElem?, List.getElem?_toArray, guardSet]
  by_cases hn : n < g.nodes.length
  · simp [hn]
  · simp [hn, guard, inputEdges, outputEdges]

end Graph

/-! ## Peaks -/

/-- A firing of node `n` stays within `bound`; its outputs are written before its inputs are given
back. -/
def Graph.Within (g : Graph) (bound : Levels) (n : NodeId) (level : Levels) : Prop :=
  ∀ id, level id + g.moved .output n id ≤ bound id

namespace Backlog

variable {g : Graph} {b : Backlog} {level : Levels}

/-- The backlog stands at `level`, and no level exceeds its peak. -/
structure Tracks (b : Backlog) (g : Graph) (level : Levels) : Prop where
  size_level : b.level.size = g.edges.length
  size_peak : b.peak.size = g.edges.length
  level_eq : Levels.of b.level = level
  le_peak (id : EdgeId) : level id ≤ Levels.of b.peak id

theorem tracks_start (g : Graph) : Tracks ⟨g.delays, g.delays⟩ g g.delay :=
  ⟨g.size_delays, g.size_delays, g.of_delays, fun id ↦ by rw [g.of_delays]⟩

theorem level_produce (b : Backlog) (r : EdgeRate) :
    (b.produce r).level = b.level.modify r.edge (· + r.rate) :=
  Levels.setIfInBounds_eq_modify b.level r.edge (· + r.rate)

theorem peak_produce (b : Backlog) (r : EdgeRate) :
    (b.produce r).peak = b.peak.modify r.edge (max · (Levels.of b.level r.edge + r.rate)) := rfl

theorem size_peak_foldl_produce (b : Backlog) (rates : List EdgeRate) :
    (rates.foldl produce b).peak.size = b.peak.size := by
  induction rates generalizing b with
  | nil => rfl
  | cons r rates ih => simpa [peak_produce] using ih (b.produce r)

theorem level_foldl_produce (b : Backlog) (rates : List EdgeRate) :
    (rates.foldl produce b).level = Levels.change (· + ·) rates b.level := by
  induction rates generalizing b with
  | nil => rfl
  | cons r rates ih => rw [List.foldl_cons, ih, level_produce]; rfl

/-- The peak of an edge that is written becomes the higher one of what it was and the new level. -/
theorem peak_foldl_produce (rate : EdgeId → Nat) {ids : List EdgeId} (hnodup : ids.Nodup)
    {b : Backlog} (hlt : ∀ id ∈ ids, id < b.peak.size) (id : EdgeId) :
    Levels.of ((ids.map fun id ↦ ⟨id, rate id⟩).foldl produce b).peak id =
      if id ∈ ids then max (Levels.of b.peak id) (Levels.of b.level id + rate id)
      else Levels.of b.peak id := by
  induction ids generalizing b with
  | nil => rfl
  | cons i ids ih =>
    obtain ⟨hi, hnodup⟩ := List.nodup_cons.mp hnodup
    rw [List.map_cons, List.foldl_cons, ih hnodup (b := b.produce ⟨i, rate i⟩)
      (fun j hj ↦ by simpa [peak_produce] using hlt j (List.mem_cons_of_mem i hj))]
    simp only [peak_produce, level_produce, Levels.of_modify]
    by_cases hid : id = i
    · subst hid
      simp [hi, hlt id List.mem_cons_self]
    · simp [hid]

/-- Taking tokens that are there succeeds. -/
theorem foldlM_consume (n : NodeId) (rate : EdgeId → Nat) {ids : List EdgeId}
    (hnodup : ids.Nodup) {b : Backlog} (henough : ∀ id ∈ ids, rate id ≤ Levels.of b.level id) :
    (ids.map fun id ↦ ⟨id, rate id⟩).foldlM (consume n) b =
      .ok ⟨Levels.change (· - ·) (ids.map fun id ↦ ⟨id, rate id⟩) b.level, b.peak⟩ := by
  induction ids generalizing b with
  | nil => rfl
  | cons i ids ih =>
    obtain ⟨hi, hnodup⟩ := List.nodup_cons.mp hnodup
    have hhead := henough i List.mem_cons_self
    have hstep : consume n b ⟨i, rate i⟩ = .ok ⟨b.level.modify i (· - rate i), b.peak⟩ := by
      rw [← Levels.setIfInBounds_eq_modify]
      exact if_neg (Nat.not_lt.mpr hhead)
    rw [List.map_cons, List.foldlM_cons, hstep]
    refine ih hnodup fun j hj ↦ ?_
    have hne : j ≠ i := fun heq ↦ hi (heq ▸ hj)
    rw [Levels.of_modify, if_neg (fun h ↦ hne h.1)]
    exact henough j (List.mem_cons_of_mem i hj)

theorem Tracks.fire (hg : g.Coherent) (h : b.Tracks g level) {n : NodeId} (hfed : g.Fed n level) :
    ∃ b', b.fire (g.guard n) = .ok b' ∧ b'.Tracks g (g.after n level) ∧
      ∀ id, Levels.of b'.peak id = max (Levels.of b.peak id) (level id + g.moved .output n id) := by
  have hproduced : Levels.of ((g.guard n).outputs.foldl produce b).level =
      fun id ↦ level id + g.moved .output n id := by
    rw [level_foldl_produce, hg.of_change_outputs n h.size_level, h.level_eq]
  have hpeak (id : EdgeId) : Levels.of ((g.guard n).outputs.foldl produce b).peak id =
      max (Levels.of b.peak id) (level id + g.moved .output n id) := by
    rw [Graph.outputs_guard, peak_foldl_produce _ (hg.nodup_edgesAt .output n)
      (fun id hid ↦ h.size_peak ▸ hg.lt_of_mem_edgesAt hid), h.level_eq, hg.moved_eq]
    have hle := h.le_peak id
    split
    · rfl
    · exact (Nat.max_eq_left hle).symm
  have hsize : ((g.guard n).outputs.foldl produce b).level.size = g.edges.length := by
    rw [level_foldl_produce, Levels.size_change, h.size_level]
  have henough : ∀ id ∈ g.edgesAt .input n,
      g.rateAt .input id ≤ Levels.of ((g.guard n).outputs.foldl produce b).level id :=
    (hg.all_rates_iff .input n _).mpr fun id ↦ by
      rw [hproduced]
      exact Nat.le_add_right_of_le (hfed id)
  refine ⟨_, foldlM_consume n _ (hg.nodup_edgesAt .input n) henough, ⟨?_, ?_, ?_, ?_⟩, hpeak⟩
  · rw [Levels.size_change, hsize]
  · rw [size_peak_foldl_produce, h.size_peak]
  · refine (hg.of_change_inputs n hsize).trans ?_
    rw [hproduced]
    rfl
  · intro id
    rw [hpeak, Graph.after]
    omega

/-- A sequence that finds its tokens is followed to its end, and what is above all peaks is a bound
that all of its firings stay within. -/
theorem Tracks.foldlM_fire (hg : g.Coherent) (h : b.Tracks g level) {w : List NodeId}
    (hfed : Steps.Along g.Fed g.after w level) :
    ∃ b', (w.map g.guard).foldlM Backlog.fire b = .ok b' ∧
      b'.Tracks g (Steps.run g.after w level) ∧
      ∀ bound : Levels, (∀ id, Levels.of b'.peak id ≤ bound id) ↔
        (∀ id, Levels.of b.peak id ≤ bound id) ∧ Steps.Along (g.Within bound) g.after w level := by
  induction w generalizing b level with
  | nil => exact ⟨b, rfl, h, fun bound ↦ by simp⟩
  | cons n w ih =>
    obtain ⟨c, hfire, htracks, hpeak⟩ := h.fire hg hfed.1
    obtain ⟨b', hfold, hend, hbound⟩ := ih htracks hfed.2
    refine ⟨b', ?_, hend, fun bound ↦ ?_⟩
    · rw [List.map_cons, List.foldlM_cons, hfire]
      exact hfold
    · rw [hbound, Steps.along_cons, ← and_assoc]
      simp only [hpeak, Nat.max_le, forall_and]
      rfl

end Backlog

theorem Graph.exists_peaks {g : Graph} (hg : g.Coherent) {order : List NodeId}
    (h : Steps.Along g.Fed g.after order g.delay) :
    ∃ peaks, g.peaks (g.guardsOf order) = .ok peaks ∧ peaks.length = g.edges.length ∧
      ∀ bound : Levels, (∀ id, peaks[id]?.getD 0 ≤ bound id) ↔
        (∀ id, g.delay id ≤ bound id) ∧ Steps.Along (g.Within bound) g.after order g.delay := by
  obtain ⟨b, hfold, htracks, hbound⟩ := (Backlog.tracks_start g).foldlM_fire hg h
  refine ⟨b.peak.toList, ?_, by simpa using htracks.size_peak, fun bound ↦ ?_⟩
  · rw [peaks, guardsOf_eq, hfold]
    rfl
  · have hlevels (id : EdgeId) : b.peak.toList[id]?.getD 0 = Levels.of b.peak id := by
      rw [← Levels.of_toArray, Array.toArray_toList]
    simp only [hlevels, hbound, g.of_delays]

/-! ## What is written -/

namespace Graph

variable {g : Graph} {v w : List NodeId}

/-- The initial tokens of an edge and all that the firings in `w` write to it. -/
def written (g : Graph) (w : List NodeId) : Levels :=
  fun id ↦ (g.edges[id]?.map fun e ↦
    e.delay.toNat + e.rateAt .output * w.count e.source.node).getD 0

theorem written_of_getElem? {id : EdgeId} {e : Edge} (he : g.edges[id]? = some e) :
    g.written w id = e.delay.toNat + e.rateAt .output * w.count e.source.node := by
  simp [written, he]

theorem written_nil (g : Graph) : g.written [] = g.delay := by
  funext id
  simp [written, delay]

theorem written_concat (g : Graph) (w : List NodeId) (n : NodeId) (id : EdgeId) :
    g.written (w ++ [n]) id = g.written w id + g.moved .output n id := by
  cases he : g.edges[id]? with
  | none => simp [written, moved, he]
  | some e =>
    rw [written_of_getElem? he, written_of_getElem? he, moved_of_getElem? he, Edge.moved,
      Edge.portAt, List.count_append, List.count_singleton, Nat.mul_add, Nat.add_assoc]
    by_cases hn : e.source.node = n
    · simp [hn]
    · simp [hn, Ne.symm hn]

theorem written_mono (h : ∀ n, v.count n ≤ w.count n) (id : EdgeId) :
    g.written v id ≤ g.written w id := by
  cases he : g.edges[id]? with
  | none => simp [written, he]
  | some e =>
    rw [written_of_getElem? he, written_of_getElem? he]
    exact Nat.add_le_add_left (Nat.mul_le_mul_left _ (h _)) _

theorem run_after_le_written (g : Graph) (w : List NodeId) (id : EdgeId) :
    Steps.run g.after w g.delay id ≤ g.written w id := by
  induction w using List.reverseRecOn with
  | nil => rw [written_nil, Steps.run_nil]
  | append_singleton w n ih =>
    calc
      Steps.run g.after (w ++ [n]) g.delay id
          = Steps.run g.after w g.delay id + g.moved .output n id - g.moved .input n id := by
        rw [Steps.run_append, Steps.run_cons, Steps.run_nil, after]
      _ ≤ Steps.run g.after w g.delay id + g.moved .output n id := Nat.sub_le _ _
      _ ≤ g.written w id + g.moved .output n id := Nat.add_le_add_right ih _
      _ = g.written (w ++ [n]) id := (g.written_concat w n id).symm

/-- No firing brings an edge above what is written to it in all. -/
theorem along_within_written (g : Graph) (w : List NodeId) :
    Steps.Along (g.Within (g.written w)) g.after w g.delay := by
  refine Steps.along_of_forall_split fun u n v hw id ↦ ?_
  calc
    Steps.run g.after u g.delay id + g.moved .output n id
        ≤ g.written u id + g.moved .output n id :=
      Nat.add_le_add_right (g.run_after_le_written u id) _
    _ = g.written (u ++ [n]) id := (g.written_concat u n id).symm
    _ ≤ g.written w id := written_mono (fun m ↦ by simp [hw, List.count_cons]) id

end Graph

namespace Backlog

variable {g : Graph} {b : Backlog} {bound : Levels}

/-- All levels and peaks are within `bound`, whether or not every firing has found its tokens. -/
structure Below (b : Backlog) (g : Graph) (bound : Levels) : Prop where
  size_level : b.level.size = g.edges.length
  size_peak : b.peak.size = g.edges.length
  level_le (id : EdgeId) : Levels.of b.level id ≤ bound id
  peak_le (id : EdgeId) : Levels.of b.peak id ≤ bound id

theorem below_start (g : Graph) : Below ⟨g.delays, g.delays⟩ g (g.written []) := by
  have hstart (id : EdgeId) : Levels.of g.delays id ≤ g.written [] id := by
    rw [g.of_delays, g.written_nil]
  exact ⟨g.size_delays, g.size_delays, hstart, hstart⟩

theorem Below.foldl_produce (hg : g.Coherent) (h : b.Below g bound) (n : NodeId) :
    ((g.guard n).outputs.foldl produce b).Below g fun id ↦ bound id + g.moved .output n id := by
  refine ⟨?_, ?_, fun id ↦ ?_, fun id ↦ ?_⟩
  · rw [level_foldl_produce, Levels.size_change, h.size_level]
  · rw [size_peak_foldl_produce, h.size_peak]
  · rw [level_foldl_produce, hg.of_change_outputs n h.size_level]
    exact Nat.add_le_add_right (h.level_le id) _
  · have hlevel := h.level_le id
    have hpeak := h.peak_le id
    rw [Graph.outputs_guard, peak_foldl_produce _ (hg.nodup_edgesAt .output n)
      (fun id hid ↦ h.size_peak ▸ hg.lt_of_mem_edgesAt hid), hg.moved_eq]
    split <;> omega

theorem Below.consume (h : b.Below g bound) {n : NodeId} {r : EdgeRate} {b' : Backlog}
    (hconsume : b.consume n r = .ok b') : b'.Below g bound := by
  have hlevel : b'.level = b.level.modify r.edge (· - r.rate) ∧ b'.peak = b.peak := by
    simp only [Backlog.consume] at hconsume
    split at hconsume
    · cases hconsume
    · cases hconsume
      exact ⟨Levels.setIfInBounds_eq_modify b.level r.edge (· - r.rate), rfl⟩
  refine ⟨?_, ?_, fun id ↦ ?_, ?_⟩
  · rw [hlevel.1, Array.size_modify, h.size_level]
  · rw [hlevel.2, h.size_peak]
  · rw [hlevel.1, Levels.of_modify]
    split
    · exact (Nat.sub_le _ _).trans (h.level_le id)
    · exact h.level_le id
  · rw [hlevel.2]
    exact h.peak_le

theorem Below.fire (hg : g.Coherent) {w : List NodeId} (h : b.Below g (g.written w)) {n : NodeId}
    {b' : Backlog} (hfire : b.fire (g.guard n) = .ok b') : b'.Below g (g.written (w ++ [n])) := by
  rw [funext (g.written_concat w n)]
  exact Fold.foldlM_ok_induction
    (P := fun _ b ↦ b.Below g fun id ↦ g.written w id + g.moved .output n id) hfire
    (h.foldl_produce hg n) fun _ _ _ _ _ hb ↦ hb.consume

end Backlog

namespace Graph

variable {g : Graph} {w : List NodeId} {b : Backlog}

/-- Where the replay that notes the peaks stands after the firings in `w`. -/
def backlog (g : Graph) (w : List NodeId) : Except GraphError Backlog :=
  w.foldlM (fun b n ↦ b.fire (g.guard n)) ⟨g.delays, g.delays⟩

theorem backlog_concat (g : Graph) (w : List NodeId) (n : NodeId) :
    g.backlog (w ++ [n]) = g.backlog w >>= fun b ↦ b.fire (g.guard n) := by
  rw [backlog, List.foldlM_append]
  exact bind_congr fun b ↦ by simp

theorem peaks_eq_backlog (g : Graph) (w : List NodeId) :
    g.peaks (g.guardsOf w) = (fun b ↦ b.peak.toList) <$> g.backlog w := by
  rw [peaks, guardsOf_eq, List.foldlM_map]
  rfl

theorem below_of_backlog (hg : g.Coherent) (h : g.backlog w = .ok b) : b.Below g (g.written w) :=
  Fold.foldlM_ok_induction (P := fun done b ↦ b.Below g (g.written done)) h
    (Backlog.below_start g) fun _ _ _ _ _ hb ↦ hb.fire hg

/-- There is a peak for each edge, and none is above what is written to its edge. -/
theorem peaks_le_written (hg : g.Coherent) {peaks : List Nat}
    (h : g.peaks (g.guardsOf w) = .ok peaks) :
    peaks.length = g.edges.length ∧ ∀ id, peaks[id]?.getD 0 ≤ g.written w id := by
  rw [peaks_eq_backlog] at h
  obtain ⟨b, hb, h⟩ := Fold.bind_eq_ok h
  cases h
  have hbelow := below_of_backlog hg hb
  refine ⟨by simpa using hbelow.size_peak, fun id ↦ ?_⟩
  calc
    b.peak.toList[id]?.getD 0 = Levels.of b.peak id := by
      rw [← Levels.of_toArray, Array.toArray_toList]
    _ ≤ g.written w id := hbelow.peak_le id

/-- Where all firings find their tokens, the replay follows them. -/
theorem tracks_of_backlog (hg : g.Coherent) (hfed : Steps.Along g.Fed g.after w g.delay)
    (h : g.backlog w = .ok b) : b.Tracks g (Steps.run g.after w g.delay) := by
  obtain ⟨b', hfold, htracks, -⟩ := (Backlog.tracks_start g).foldlM_fire hg hfed
  rw [List.foldlM_map] at hfold
  cases Except.ok.inj (h.symm.trans hfold)
  exact htracks

end Graph

/-! ## The replay against capacities -/

namespace Graph

variable {g : Graph} {capacities a a' : Array Nat}

theorem rejectEdge_eq_ok_iff {p : EdgeId → Edge → Bool} :
    g.rejectEdge p = .ok () ↔ ∀ id e, g.edges[id]? = some e → p id e = false := by
  have hnone : g.rejectEdge p = .ok () ↔ g.edges.zipIdx.find? (fun x ↦ p x.2 x.1) = none := by
    unfold rejectEdge
    cases g.edges.zipIdx.find? (fun x ↦ p x.2 x.1) <;> simp
  rw [hnone, List.find?_eq_none]
  constructor
  · intro h id e he
    simpa using h (e, id) (List.mem_zipIdx_iff_getElem?.mpr he)
  · rintro h ⟨e, id⟩ hmem
    simpa using h id e (List.mem_zipIdx_iff_getElem?.mp hmem)

/-- The array of levels after a firing of node `n`. -/
def fired (g : Graph) (n : NodeId) (a : Array Nat) : Array Nat :=
  Levels.change (· - ·) (g.guard n).inputs (Levels.change (· + ·) (g.guard n).outputs a)

theorem size_fired (g : Graph) (n : NodeId) (a : Array Nat) : (g.fired n a).size = a.size := by
  simp [fired]

theorem Coherent.of_fired (hg : g.Coherent) (n : NodeId) (ha : a.size = g.edges.length) :
    Levels.of (g.fired n a) = g.after n (Levels.of a) := by
  rw [fired, hg.of_change_inputs n (by simpa using ha), hg.of_change_outputs n ha]
  rfl

/-- The replay fires a node exactly when its guard is satisfied. -/
theorem fireWithin_eq_ok_iff {n : NodeId} : fireWithin capacities a (g.guard n) = .ok a' ↔
    g.Guarded (Levels.of capacities) n (Levels.of a) ∧ g.fired n a = a' := by
  unfold fireWithin Guarded Guard.isSatisfied
  simp only [Bool.and_eq_true, List.all_eq_true, decide_eq_true_eq]
  cases hin : (g.guard n).inputs.find? (fun r ↦ a.getD r.edge 0 < r.rate) with
  | some r =>
    have hmem := List.mem_of_find?_eq_some hin
    have hlt := List.find?_some hin
    refine ⟨fun h ↦ (nomatch h), fun h ↦ absurd (h.1.1 r hmem) ?_⟩
    exact Nat.not_le.mpr (of_decide_eq_true hlt)
  | none =>
    cases hout : (g.guard n).outputs.find?
        (fun r ↦ capacities.getD r.edge 0 - a.getD r.edge 0 < r.rate) with
    | some r =>
      have hmem := List.mem_of_find?_eq_some hout
      have hlt := List.find?_some hout
      refine ⟨fun h ↦ (nomatch h), fun h ↦ absurd (h.1.2 r hmem) ?_⟩
      exact Nat.not_le.mpr (of_decide_eq_true hlt)
    | none =>
      simp only [List.find?_eq_none, decide_eq_true_eq, Nat.not_lt] at hin hout
      rw [Except.ok.injEq]
      exact ⟨fun h ↦ ⟨⟨hin, hout⟩, h⟩, fun h ↦ h.2⟩

/-- A replay succeeds exactly on the sequences of firings whose guards are satisfied. -/
theorem Coherent.foldlM_fireWithin_iff (hg : g.Coherent) {w : List NodeId} {level : Levels}
    (ha : a.size = g.edges.length) :
    (∃ a', (w.map g.guard).foldlM (fireWithin capacities) a = .ok a' ∧ Levels.of a' = level) ↔
      Steps.Along (g.Guarded (Levels.of capacities)) g.after w (Levels.of a) ∧
        Steps.run g.after w (Levels.of a) = level := by
  induction w generalizing a with
  | nil => exact ⟨fun ⟨_, h, hlevel⟩ ↦ ⟨trivial, by cases h; exact hlevel⟩, fun h ↦ ⟨a, rfl, h.2⟩⟩
  | cons n w ih =>
    have hrest := ih (a := g.fired n a) (by rw [size_fired, ha])
    rw [hg.of_fired n ha] at hrest
    rw [Steps.along_cons, Steps.run_cons, and_assoc, ← hrest]
    constructor
    · rintro ⟨a', hfold, hlevel⟩
      obtain ⟨b, hfire, hfold⟩ := Fold.foldlM_cons_eq_ok hfold
      obtain ⟨hsat, rfl⟩ := fireWithin_eq_ok_iff.mp hfire
      exact ⟨hsat, a', hfold, hlevel⟩
    · rintro ⟨hsat, a', hfold, hlevel⟩
      refine ⟨a', ?_, hlevel⟩
      rw [List.map_cons, List.foldlM_cons, fireWithin_eq_ok_iff.mpr ⟨hsat, rfl⟩]
      exact hfold

theorem delay_of_length_le {id : EdgeId} (h : g.edges.length ≤ id) : g.delay id = 0 := by
  simp [delay, List.getElem?_eq_none h]

/-- The replay of an order succeeds when the initial tokens have room, each firing is ready, and the
initial tokens come back. -/
theorem Coherent.verify_eq_ok_iff (hg : g.Coherent) {order : List NodeId} :
    g.verify (g.guardsOf order) capacities = .ok () ↔
      (∀ id, g.delay id ≤ Levels.of capacities id) ∧
        Steps.Along (g.Guarded (Levels.of capacities)) g.after order g.delay ∧
        Steps.run g.after order g.delay = g.delay := by
  have hfold : (∃ a, (order.map g.guard).foldlM (fireWithin capacities) g.delays = .ok a ∧
      Levels.of a = g.delay) ↔ _ := hg.foldlM_fireWithin_iff g.size_delays
  rw [g.of_delays] at hfold
  rw [← hfold, guardsOf_eq]
  constructor
  · intro h
    obtain ⟨_, hroom, h⟩ := Fold.bind_eq_ok h
    obtain ⟨a', hreplay, hback⟩ := Fold.bind_eq_ok h
    obtain ⟨-, hlevel⟩ := (hg.foldlM_fireWithin_iff g.size_delays).mp ⟨a', hreplay, rfl⟩
    refine ⟨fun id ↦ ?_, a', hreplay, funext fun id ↦ ?_⟩
    · cases he : g.edges[id]? with
      | none =>
        rw [delay_of_length_le (List.getElem?_eq_none_iff.mp he)]
        exact Nat.zero_le _
      | some e => simpa [delay_of_getElem? he, Levels.of] using rejectEdge_eq_ok_iff.mp hroom id e he
    · cases he : g.edges[id]? with
      | none => rw [← hlevel, run_after_of_length_le (List.getElem?_eq_none_iff.mp he), g.of_delays]
      | some e => simpa [delay_of_getElem? he, Levels.of] using rejectEdge_eq_ok_iff.mp hback id e he
  · rintro ⟨hroom, a', hreplay, hlevel⟩
    have hfirst : g.rejectEdge (fun id e ↦ capacities.getD id 0 < e.delay.toNat) = .ok () := by
      refine rejectEdge_eq_ok_iff.mpr fun id e he ↦ ?_
      simpa [delay_of_getElem? he, Levels.of] using hroom id
    have hlast : g.rejectEdge (fun id e ↦ a'.getD id 0 ≠ e.delay.toNat) = .ok () := by
      refine rejectEdge_eq_ok_iff.mpr fun id e he ↦ ?_
      simpa [delay_of_getElem? he, Levels.of] using congrFun hlevel id
    rw [verify, hfirst]
    simp only [bind, Except.bind, hreplay]
    exact hlast

end Graph

/-! ## Sizes of a fixed order -/

namespace SizingOptions

variable {o : SizingOptions} {n m : Nat}

/-- What the limit leaves of a capacity. -/
def cut (o : SizingOptions) (n : Nat) : Nat := o.limit.elim n fun limit ↦ min n limit.toNat

/-- The limit does not cut it. -/
def Allows (o : SizingOptions) (n : Nat) : Prop := ∀ limit, o.limit = some limit → n ≤ limit.toNat

theorem allows_of_limit_eq_none (h : o.limit = none) (n : Nat) : o.Allows n := by
  intro limit hlimit
  rw [h] at hlimit
  cases hlimit

theorem cut_le (o : SizingOptions) (n : Nat) : o.cut n ≤ n := by
  rw [cut]
  cases o.limit with
  | none => exact Nat.le_refl n
  | some limit => exact Nat.min_le_left _ _

theorem allows_cut (o : SizingOptions) (n : Nat) : o.Allows (o.cut n) := by
  intro limit hlimit
  rw [cut, hlimit]
  exact Nat.min_le_right _ _

theorem Allows.cut_eq (h : o.Allows n) : o.cut n = n := by
  rw [cut]
  cases hlimit : o.limit with
  | none => rfl
  | some limit => exact Nat.min_eq_left (h limit hlimit)

theorem cut_mono (o : SizingOptions) (h : n ≤ m) : o.cut n ≤ o.cut m := by
  rw [cut, cut]
  cases o.limit with
  | none => exact h
  | some limit => exact Nat.le_min.mpr ⟨(Nat.min_le_left _ _).trans h, Nat.min_le_right _ _⟩

end SizingOptions

namespace Graph

variable {g : Graph} {r : Repetitions} {o : SizingOptions} {order capacities : List Nat}

theorem capacityOf_static (hmode : o.mode = .static) (e : Edge) (peak : Nat) :
    capacityOf e peak r o = o.cut peak := by
  have hfixed : o.mode.isAsynchronous = false := by rw [hmode]; rfl
  rw [capacityOf, hfixed, SizingOptions.cut]
  cases o.limit <;> rfl

/-- The two steps of a sizing that succeeds. -/
theorem capacities_eq_ok_iff : g.capacities r order o = .ok capacities ↔
    ∃ peaks, g.peaks (g.guardsOf order) = .ok peaks ∧
      (g.edges.zip peaks).map (fun x ↦ capacityOf x.1 x.2 r o) = capacities ∧
      g.verify (g.guardsOf order) capacities.toArray = .ok () := by
  constructor
  · intro h
    obtain ⟨peaks, hpeaks, h⟩ := Fold.bind_eq_ok h
    obtain ⟨_, hverify, h⟩ := Fold.bind_eq_ok h
    cases h
    exact ⟨peaks, hpeaks, rfl, hverify⟩
  · rintro ⟨peaks, hpeaks, rfl, hverify⟩
    simp only [capacities, hpeaks, bind, Except.bind, hverify]
    rfl

/-- Peaks that the limit allows are the sizes in a fixed order. -/
theorem map_capacityOf_static (hmode : o.mode = .static) {peaks : List Nat}
    (hlength : peaks.length = g.edges.length) (hallows : ∀ peak ∈ peaks, o.Allows peak) :
    (g.edges.zip peaks).map (fun x ↦ capacityOf x.1 x.2 r o) = peaks :=
  calc
    (g.edges.zip peaks).map (fun x ↦ capacityOf x.1 x.2 r o) = (g.edges.zip peaks).map Prod.snd :=
      List.map_congr_left fun x hx ↦
        (capacityOf_static hmode x.1 x.2).trans (hallows x.2 (List.of_mem_zip hx).2).cut_eq
    _ = peaks := List.map_snd_zip (Nat.le_of_eq hlength)

theorem getElem?_map_capacityOf {peaks : List Nat} {id : EdgeId} {e : Edge} {peak : Nat}
    (he : g.edges[id]? = some e) (hpeak : peaks[id]? = some peak) :
    ((g.edges.zip peaks).map fun x ↦ capacityOf x.1 x.2 r o)[id]? = some (capacityOf e peak r o) := by
  have hzip : (g.edges.zip peaks)[id]? = some (e, peak) := List.getElem?_zip_eq_some.mpr ⟨he, hpeak⟩
  rw [List.getElem?_map, hzip, Option.map_some]

end Graph

end Dataflow
