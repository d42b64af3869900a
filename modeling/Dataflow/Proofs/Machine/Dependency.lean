import Dataflow.Proofs.Machine.Numbering
import Dataflow.Proofs.Machine.Precedence
import Mathlib.Algebra.Order.BigOperators.Group.List
import Mathlib.Data.List.Flatten

/-!
# Dependencies between firings

A firing waits for the one of its node before it, and on each input edge for the firing of the source
that writes the last token it reads, unless this token is there from the start. In balance that firing
is one of the source's own, so all numbers that are written down are numbers of firings, and a firing
waits for no more than one on each edge and one of its node.
-/

namespace Dataflow

/-- The firing of the source that writes the last token that firing `j` of the target reads. -/
def Edge.producer (e : Edge) (j : Nat) : Nat :=
  ((j + 1) * e.consumption.toNat - 1 - e.delay.toNat) / e.production.toNat

theorem Repetitions.Balances.producer_lt {g : Graph} {r : Repetitions} (hr : r.Balances g)
    (hg : g.Coherent) (hv : g.Valid) {id : EdgeId} {e : Edge} (he : g.edges[id]? = some e) {j : Nat}
    (hj : j < r.get e.target.node) (hlast : e.delay.toNat < (j + 1) * e.consumption.toNat) :
    e.producer j < r.get e.source.node := by
  have hproduction : 0 < e.production.toNat := hv.rateAt_pos hg he .output
  have hperiod : (j + 1) * e.consumption.toNat ≤ r.get e.source.node * e.production.toNat := by
    have hbalance : e.production.toNat * r.get e.source.node =
        e.consumption.toNat * r.get e.target.node := hr.balance he
    rw [Nat.mul_comm (r.get e.source.node), hbalance, Nat.mul_comm]
    exact Nat.mul_le_mul_left _ hj
  rw [Edge.producer, Nat.div_lt_iff_lt_mul hproduction]
  omega

namespace Machine

/-! ## Writing dependencies down -/

/-- Firing `k` of node `n` waits for the one before it. -/
def addChain (offsets : List Nat) (n : NodeId) (d : Precedence) (k : Nat) :
    Computation Precedence := do
  let offset ← found offsets[n]?
  let next ← word (offset + k)
  let before ← difference next 1
  d.add (before, next)

def addChains (r : Repetitions) (offsets : List Nat) (d : Precedence) : Computation Precedence :=
  r.counts.zipIdx.foldlM
    (fun d (count, n) ↦ (List.range' 1 (count - 1)).foldlM (addChain offsets n) d) d

/-- Firing `j` of the target waits for the firing of the source that writes its last token. -/
def addCrossing (offsets : List Nat) (e : Edge) (d : Precedence) (j : Nat) :
    Computation Precedence := do
  let next ← word (j + 1)
  let last ← word (next * e.consumption.toNat)
  if last ≤ e.delay.toNat then .ok d
  else do
    let before ← difference last 1
    let written ← difference before e.delay.toNat
    let producer ← quotient written e.production.toNat
    let source ← found offsets[e.source.node]?
    let first ← word (source + producer)
    let target ← found offsets[e.target.node]?
    let second ← word (target + j)
    d.add (first, second)

def addCrossings (g : Graph) (r : Repetitions) (offsets : List Nat) (d : Precedence) :
    Computation Precedence :=
  g.edges.foldlM
    (fun d e ↦ do
      let count ← found r.counts[e.target.node]?
      (List.range count).foldlM (addCrossing offsets e) d) d

/-! ## All dependencies -/

/-- Each firing of a node waits for the one before it. -/
def chainPairs (r : Repetitions) : List (Nat × Nat) :=
  (List.range r.counts.length).flatMap fun n ↦
    (List.range' 1 (r.get n - 1)).map fun k ↦ (r.offset n + k - 1, r.offset n + k)

def crossing? (r : Repetitions) (e : Edge) (j : Nat) : Option (Nat × Nat) :=
  if (j + 1) * e.consumption.toNat ≤ e.delay.toNat then none
  else some (r.offset e.source.node + e.producer j, r.offset e.target.node + j)

/-- Each firing of a target waits for its last token. -/
def crossingPairs (g : Graph) (r : Repetitions) : List (Nat × Nat) :=
  g.edges.flatMap fun e ↦ (List.range (r.get e.target.node)).filterMap (crossing? r e)

def dependencies (g : Graph) (r : Repetitions) : List (Nat × Nat) := chainPairs r ++ crossingPairs g r

variable {g : Graph} {r : Repetitions}

theorem mem_chainPairs {pair : Nat × Nat} : pair ∈ chainPairs r ↔
    ∃ n k, k + 1 < r.get n ∧ pair = (r.offset n + k, r.offset n + (k + 1)) := by
  simp only [chainPairs, List.mem_flatMap, List.mem_range, List.mem_map, List.mem_range'_1]
  constructor
  · rintro ⟨n, -, k, ⟨hpos, hk⟩, rfl⟩
    obtain ⟨l, rfl⟩ := Nat.exists_eq_add_of_le' hpos
    exact ⟨n, l, by omega, rfl⟩
  · rintro ⟨n, k, hk, rfl⟩
    exact ⟨n, Repetitions.lt_of_get_pos (Nat.zero_lt_of_lt hk), k + 1, by omega, rfl⟩

theorem mem_crossingPairs {pair : Nat × Nat} : pair ∈ crossingPairs g r ↔
    ∃ (id : EdgeId) (e : Edge) (j : Nat), g.edges[id]? = some e ∧ j < r.get e.target.node ∧
      e.delay.toNat < (j + 1) * e.consumption.toNat ∧
      pair = (r.offset e.source.node + e.producer j, r.offset e.target.node + j) := by
  simp only [crossingPairs, List.mem_flatMap, List.mem_filterMap, List.mem_range, crossing?]
  constructor
  · rintro ⟨e, hmem, j, hj, hpair⟩
    obtain ⟨id, he⟩ := List.mem_iff_getElem?.mp hmem
    split at hpair
    · cases hpair
    · rename_i hlast
      exact ⟨id, e, j, he, hj, Nat.lt_of_not_le hlast, (Option.some.inj hpair).symm⟩
  · rintro ⟨id, e, j, he, hj, hlast, rfl⟩
    exact ⟨e, List.mem_of_getElem? he, j, hj, if_neg (Nat.not_le.mpr hlast)⟩

/-- A firing waits for firings of the period only. -/
theorem lt_of_mem_dependencies (hg : g.Coherent) (hv : g.Valid) (hr : r.Balances g)
    {pair : Nat × Nat} (h : pair ∈ dependencies g r) : pair.1 < r.total ∧ pair.2 < r.total := by
  rcases List.mem_append.mp h with hchain | hcrossing
  · obtain ⟨n, k, hk, rfl⟩ := mem_chainPairs.mp hchain
    exact ⟨Repetitions.offset_add_lt_total (by omega), Repetitions.offset_add_lt_total hk⟩
  · obtain ⟨id, e, j, he, hj, hlast, rfl⟩ := mem_crossingPairs.mp hcrossing
    exact ⟨Repetitions.offset_add_lt_total (hr.producer_lt hg hv he hj hlast),
      Repetitions.offset_add_lt_total hj⟩

/-- A firing comes after one firing of its own node at most. -/
theorem countP_chainPairs_le (r : Repetitions) (i : Nat) :
    (chainPairs r).countP (·.2 = i) ≤ 1 := by
  have hsub : ((chainPairs r).map (·.2)).Sublist (List.range r.total) := by
    rw [r.range_total, chainPairs, List.map_flatMap]
    refine List.Sublist.flatMap_right _ fun n hn ↦ ?_
    rw [List.map_map]
    refine List.Sublist.map (r.offset n + ·) ?_
    rw [List.range_eq_range']
    cases r.get n with
    | zero => exact List.Sublist.refl _
    | succ count =>
      rw [List.range'_succ]
      exact List.sublist_cons_self _ _
  calc (chainPairs r).countP (·.2 = i) = ((chainPairs r).map (·.2)).count i := by
        rw [List.count, List.countP_map]
        exact List.countP_congr fun pair _ ↦ by simp
    _ ≤ (List.range r.total).count i := hsub.count_le i
    _ ≤ 1 := List.nodup_iff_count_le_one.mp List.nodup_range i

/-- Over one edge a firing waits for one firing at most. -/
theorem countP_crossing?_le (r : Repetitions) (e : Edge) (i : Nat) :
    ((List.range (r.get e.target.node)).filterMap (crossing? r e)).countP (·.2 = i) ≤ 1 := by
  have hnodup : ((List.range (r.get e.target.node)).map (r.offset e.target.node + ·)).Nodup :=
    List.Nodup.map (fun _ _ h ↦ Nat.add_left_cancel h) List.nodup_range
  calc ((List.range (r.get e.target.node)).filterMap (crossing? r e)).countP (·.2 = i)
      ≤ (List.range (r.get e.target.node)).countP (fun j ↦ r.offset e.target.node + j = i) := by
        rw [List.countP_filterMap]
        refine List.countP_mono_left fun j _ hj ↦ ?_
        unfold crossing? at hj
        split at hj
        · simp at hj
        · simpa using hj
    _ = ((List.range (r.get e.target.node)).map (r.offset e.target.node + ·)).count i := by
        rw [List.count, List.countP_map]
        exact List.countP_congr fun j _ ↦ by simp
    _ ≤ 1 := List.nodup_iff_count_le_one.mp hnodup i

theorem countP_dependencies_le (g : Graph) (r : Repetitions) (i : Nat) :
    (dependencies g r).countP (·.2 = i) ≤ 1 + g.edges.length := by
  rw [dependencies, List.countP_append, crossingPairs, List.countP_flatMap]
  refine Nat.add_le_add (countP_chainPairs_le r i) ?_
  refine (List.sum_le_card_nsmul _ 1 fun count hcount ↦ ?_).trans (by simp)
  obtain ⟨e, -, rfl⟩ := List.mem_map.mp hcount
  exact countP_crossing?_le r e i

/-! ## No faults -/

/-- Where the firings of each node begin, and where the last end. -/
def starts (r : Repetitions) : List Nat := (List.range (r.counts.length + 1)).map r.offset

theorem starts_getElem? {n : NodeId} (hn : n < r.counts.length) :
    (starts r)[n]? = some (r.offset n) := by
  rw [starts, List.getElem?_map, List.getElem?_range (Nat.lt_succ_of_lt hn)]
  rfl

theorem foldlM_singleton (d : Precedence) (pair : Nat × Nat) :
    [pair].foldlM Precedence.add d = d.add pair := by
  rw [List.foldlM_cons]
  exact bind_pure _

theorem word_of_firing (htotal : r.total < Word.modulus) {n : NodeId} {k : Nat} (hk : k < r.get n) :
    word (r.offset n + k) = .ok (r.offset n + k) :=
  word_of_lt (Nat.lt_trans (Repetitions.offset_add_lt_total hk) htotal)

theorem addChain_eq (htotal : r.total < Word.modulus) {n : NodeId} {k : Nat} (hpos : 0 < k)
    (hk : k < r.get n) (d : Precedence) :
    addChain (starts r) n d k = d.add (r.offset n + k - 1, r.offset n + k) := by
  have hn := Repetitions.lt_of_get_pos (Nat.zero_lt_of_lt hk)
  rw [addChain, starts_getElem? hn, found_some, ok_bind, word_of_firing htotal hk, ok_bind,
    difference_of_le (by omega), ok_bind]

theorem addChains_eq (htotal : r.total < Word.modulus) (d : Precedence) :
    addChains r (starts r) d = (chainPairs r).foldlM Precedence.add d := by
  rw [addChains, r.zipIdx_counts, List.foldlM_map, chainPairs]
  refine foldlM_flatMap (fun n _ d ↦ ?_) d
  rw [List.map_eq_flatMap]
  refine foldlM_flatMap (fun k hk d ↦ ?_) d
  obtain ⟨hpos, hlt⟩ := List.mem_range'_1.mp hk
  rw [foldlM_singleton, addChain_eq htotal hpos (by omega)]

theorem addCrossing_eq (hg : g.Coherent) (hv : g.Valid) (hr : r.Balances g)
    (htotal : r.total < Word.modulus) {id : EdgeId} {e : Edge} (he : g.edges[id]? = some e) {j : Nat}
    (hj : j < r.get e.target.node) (d : Precedence) :
    addCrossing (starts r) e d j = (crossing? r e j).toList.foldlM Precedence.add d := by
  have hsource : e.source.node < r.counts.length := hr.length ▸ hg.node_lt he .output
  have htarget : e.target.node < r.counts.length := hr.length ▸ hg.node_lt he .input
  have hcount : r.get e.target.node ≤ 4294967295 :=
    Nat.le_of_lt_succ (hr.fits (hg.node_lt he .input))
  have hlastFits : (j + 1) * e.consumption.toNat < Word.modulus := by
    have hproduct := Nat.mul_le_mul (show j + 1 ≤ 4294967295 by omega)
      (Nat.le_of_lt_succ e.consumption.toNat_lt)
    exact Nat.lt_of_le_of_lt hproduct (by decide)
  have hnextFits : j + 1 < Word.modulus :=
    Nat.lt_of_le_of_lt (show j + 1 ≤ 4294967295 by omega) (by decide)
  rw [addCrossing, word_of_lt hnextFits, ok_bind, word_of_lt hlastFits, ok_bind, crossing?]
  split
  · rfl
  · rename_i hlast
    have hlast' := Nat.lt_of_not_le hlast
    have hproducer := hr.producer_lt hg hv he hj hlast'
    have hproduction : 0 < e.production.toNat := hv.rateAt_pos hg he .output
    rw [difference_of_le (by omega), ok_bind, difference_of_le (by omega), ok_bind,
      quotient_of_pos _ hproduction, ok_bind, starts_getElem? hsource, found_some,
      ok_bind, ← Edge.producer, word_of_firing htotal hproducer, ok_bind, starts_getElem? htarget,
      found_some, ok_bind, word_of_firing htotal hj, ok_bind, Option.toList_some, foldlM_singleton]

theorem addCrossings_eq (hg : g.Coherent) (hv : g.Valid) (hr : r.Balances g)
    (htotal : r.total < Word.modulus) (d : Precedence) :
    addCrossings g r (starts r) d = (crossingPairs g r).foldlM Precedence.add d := by
  rw [addCrossings, crossingPairs]
  refine foldlM_flatMap (fun e hmem d ↦ ?_) d
  obtain ⟨id, he⟩ := List.mem_iff_getElem?.mp hmem
  have htarget : e.target.node < r.counts.length := hr.length ▸ hg.node_lt he .input
  have hcount : r.counts[e.target.node]? = some (r.get e.target.node) := by
    simp [Repetitions.get, htarget]
  rw [hcount, found_some, ok_bind, List.filterMap_eq_flatMap_toList]
  exact foldlM_flatMap (fun j hj d ↦ addCrossing_eq hg hv hr htotal he (List.mem_range.mp hj) d) d

/-- All dependencies are written down without a fault. -/
theorem exists_dependencies (hg : g.Coherent) (hv : g.Valid) (hr : r.Balances g)
    (htotal : r.total < Word.modulus) (hedges : g.edges.length < 2147483648) :
    ∃ d, (addChains r (starts r) (.start r.total) >>= addCrossings g r (starts r)) = .ok d ∧
      d.Records (dependencies g r) r.total := by
  have hfits (i : Nat) : (dependencies g r).countP (·.2 = i) < halfModulus := by
    have hcount := countP_dependencies_le g r i
    rw [halfModulus]
    omega
  obtain ⟨d, hfold, hd⟩ :=
    Precedence.exists_records (fun pair ↦ lt_of_mem_dependencies hg hv hr) hfits
  refine ⟨d, ?_, hd⟩
  rw [dependencies, List.foldlM_append] at hfold
  rw [addChains_eq htotal, ← hfold]
  exact bind_congr fun d ↦ addCrossings_eq hg hv hr htotal d

end Machine

end Dataflow
