import Dataflow.Proofs.Machine.Dependency

/-!
# The order of a period by sorting

A firing that waits for nothing is the next firing of a node that is ready, and the least of these is
that of the lowest node. So the sort takes firings in the order in which the search for a period fires
nodes, and what waits for ever are the firings that nodes have left.
-/

namespace Dataflow.Machine

/-- Names the owner of a number that still waits for something, unless it was named last. -/
def nameOwner (owners : List NodeId) (nodes : List NodeId) (degree i : Nat) :
    Computation (List NodeId) :=
  if degree = 0 then .ok nodes
  else do
    let owner ← found owners[i]?
    return if nodes.getLast? = some owner then nodes else nodes ++ [owner]

def waitingOwners (owners : List NodeId) (degrees : List Nat) : Computation (List NodeId) :=
  degrees.zipIdx.foldlM (fun nodes (degree, i) ↦ nameOwner owners nodes degree i) []

def periodOrder (g : Graph) (r : Repetitions) (limit : Nat) : Computation (List NodeId) := do
  let activations ← total r
  if limit < activations then refuse (.periodTooLong activations limit)
  else do
    let _room ← word (g.nodes.length + 1)
    let (offsets, size) ← offsets r
    let chained ← addChains r offsets (.start size)
    let d ← addCrossings g r offsets chained
    let (s, order) ← sort d.successors (owners r) size d.front []
    if order.length < size then do
      let nodes ← waitingOwners (owners r) s.degrees.toList
      refuse (.deadlock nodes)
    else .ok order

/-! ## Ready nodes -/

variable {g : Graph} {r : Repetitions} {p : Progress} {done : List Nat}

/-- The task of one node. -/
def task (g : Graph) (r : Repetitions) (n : NodeId) : Task :=
  ⟨n, r.get n, (g.inputEdges n).filterMap g.need?⟩

theorem tasks_eq (g : Graph) (r : Repetitions) :
    g.tasks r = (List.range r.counts.length).map (task g r) := by
  rw [Graph.tasks, r.zipIdx_counts, List.map_map]
  rfl

/-- A node is ready when it has a firing left and the firings that write its last tokens are done. -/
theorem isReady_task_iff (hg : g.Coherent) (hv : g.Valid) (hr : r.Balances g) {n : NodeId} :
    (task g r n).isReady r.counts.toArray p ↔ p.firedOf n < r.get n ∧
      ∀ (id : EdgeId) (e : Edge), g.edges[id]? = some e → e.target.node = n →
        e.delay.toNat < (p.firedOf n + 1) * e.consumption.toNat →
          e.producer (p.firedOf n) < p.firedOf e.source.node := by
  rw [Task.isReady, Bool.and_eq_true, decide_eq_true_eq]
  refine and_congr_right fun hleft ↦ ?_
  rw [List.all_eq_true]
  change (∀ d ∈ (g.inputEdges n).filterMap g.need?, _) ↔ _
  rw [hg.forall_need_iff]
  refine forall₄_congr fun id e he hn ↦ ?_
  change p.firedOf n < r.get n at hleft
  have hleft' : p.firedOf n < r.get e.target.node := hn.symm ▸ hleft
  rw [Need.isMet, Bool.or_eq_true, decide_eq_true_eq, ← not_lt, ← imp_iff_not_or]
  refine imp_congr_right fun hlast ↦ ?_
  have hproducer := hr.producer_lt hg hv he hleft' hlast
  rw [Edge.producer] at hproducer ⊢
  have hsource : e.source.node < r.counts.length := hr.length ▸ hg.node_lt he .output
  rw [Progress.isDone_of_lt (by simpa using hsource)
    (by rwa [Repetitions.getD_toArray_counts]), decide_eq_true_eq]
  rfl

/-! ## The search and the sort side by side -/

/-- The firings that the search has made are those that the sort has done, in the same order. -/
structure Reached (g : Graph) (r : Repetitions) (p : Progress) (done : List Nat) : Prop where
  sound : p.Sound g r
  mem {n : NodeId} {k : Nat} (hk : k < r.get n) : r.offset n + k ∈ done ↔ k < p.firedOf n
  latest : p.latest = done.map ((owners r).getD · 0)

theorem reached_start (g : Graph) (r : Repetitions) : Reached g r (.start g.nodes.length) [] where
  sound := Progress.sound_start g r
  mem {n k} _ := by
    rw [(Progress.sound_start g r).fired n]
    simp [Progress.start]
  latest := rfl

namespace Reached

/-- What is next in line are the next firings of the ready nodes. -/
theorem waits_eq_zero_iff (h : Reached g r p done) (hg : g.Coherent) (hv : g.Valid)
    (hr : r.Balances g) {n : NodeId} {k : Nat} (hk : k < r.get n) :
    (r.offset n + k ∉ done ∧ waits (dependencies g r) done (r.offset n + k) = 0) ↔
      k = p.firedOf n ∧ (task g r n).isReady r.counts.toArray p := by
  rw [h.mem hk, Machine.waits_eq_zero_iff, isReady_task_iff hg hv hr]
  constructor
  · rintro ⟨hnew, hwaits⟩
    have hnext : k = p.firedOf n := by
      refine Nat.le_antisymm ?_ (Nat.le_of_not_lt hnew)
      cases k with
      | zero => exact Nat.zero_le _
      | succ k =>
        have hchain := hwaits _ (List.mem_append_left _ (mem_chainPairs.mpr ⟨n, k, hk, rfl⟩)) rfl
        exact (h.mem (Nat.lt_of_succ_lt hk)).mp hchain
    subst hnext
    refine ⟨rfl, hk, fun id e he hn hlast ↦ ?_⟩
    subst hn
    have hcrossing := hwaits _
      (List.mem_append_right _ (mem_crossingPairs.mpr ⟨id, e, _, he, hk, hlast, rfl⟩)) rfl
    exact (h.mem (hr.producer_lt hg hv he hk hlast)).mp hcrossing
  · rintro ⟨rfl, -, hneeds⟩
    refine ⟨Nat.lt_irrefl _, fun pair hpair heq ↦ ?_⟩
    rcases List.mem_append.mp hpair with hchain | hcrossing
    · obtain ⟨m, l, hl, rfl⟩ := mem_chainPairs.mp hchain
      obtain ⟨rfl, hfired⟩ := (Repetitions.offset_add_inj hl hk).mp heq
      exact (h.mem (Nat.lt_of_succ_lt hl)).mpr (by omega)
    · obtain ⟨id, e, j, he, hj, hlast, rfl⟩ := mem_crossingPairs.mp hcrossing
      obtain ⟨hn, rfl⟩ := (Repetitions.offset_add_inj hj hk).mp heq
      exact (h.mem (hr.producer_lt hg hv he hj hlast)).mpr (hneeds id e he hn hlast)

theorem least?_eq (h : Reached g r p done) (hg : g.Coherent) (hv : g.Valid) (hr : r.Balances g) :
    least? (dependencies g r) r.total done =
      ((List.range r.counts.length).find? fun n ↦ (task g r n).isReady r.counts.toArray p).map
        fun n ↦ r.offset n + p.firedOf n := by
  cases hfind : (List.range r.counts.length).find?
      fun n ↦ (task g r n).isReady r.counts.toArray p with
  | none =>
    refine List.find?_eq_none.mpr fun y hy hready ↦ ?_
    obtain ⟨n, k, hk, rfl⟩ := Repetitions.exists_offset (List.mem_range.mp hy)
    obtain ⟨-, hready⟩ := (h.waits_eq_zero_iff hg hv hr hk).mp (of_decide_eq_true hready)
    have hn := Repetitions.lt_of_get_pos (Nat.zero_lt_of_lt hk)
    exact List.find?_eq_none.mp hfind n (List.mem_range.mpr hn) hready
  | some n =>
    obtain ⟨hready, -, hbefore⟩ := List.find?_range_eq_some.mp hfind
    have hleft : p.firedOf n < r.get n := ((isReady_task_iff hg hv hr).mp hready).1
    rw [Option.map_some]
    refine List.find?_range_eq_some.mpr ⟨?_, ?_, fun y hy ↦ ?_⟩
    · exact decide_eq_true ((h.waits_eq_zero_iff hg hv hr hleft).mpr ⟨rfl, hready⟩)
    · exact List.mem_range.mpr (Repetitions.offset_add_lt_total hleft)
    · rw [Bool.not_eq_true', decide_eq_false_iff_not]
      intro hwaits
      obtain ⟨m, k, hk, rfl⟩ :=
        Repetitions.exists_offset (Nat.lt_trans hy (Repetitions.offset_add_lt_total hleft))
      obtain ⟨rfl, hready'⟩ := (h.waits_eq_zero_iff hg hv hr hk).mp hwaits
      -- The numbers of higher nodes are all higher.
      rcases Nat.lt_trichotomy m n with hlt | rfl | hgt
      · simpa [hready'] using hbefore m hlt
      · exact Nat.lt_irrefl _ hy
      · have hafter := Repetitions.offset_add_lt hleft hgt
        omega

theorem fire (h : Reached g r p done) (hg : g.Coherent) (hv : g.Valid) (hr : r.Balances g)
    {n : NodeId} (hready : (task g r n).isReady r.counts.toArray p) :
    Reached g r (p.fire n) ((r.offset n + p.firedOf n) :: done) := by
  have hleft : p.firedOf n < r.get n := ((isReady_task_iff hg hv hr).mp hready).1
  have hn := Repetitions.lt_of_get_pos (Nat.zero_lt_of_lt hleft)
  have hn' : n < g.nodes.length := hr.length ▸ hn
  have htask : task g r n ∈ g.tasks r := by
    rw [tasks_eq]
    exact List.mem_map_of_mem (List.mem_range.mpr hn)
  refine ⟨h.sound.fire hn' hleft ((Graph.isReady_iff hg hv hr h.sound htask).mp hready).2,
    fun {m k} hk ↦ ?_, ?_⟩
  · rw [List.mem_cons, Repetitions.offset_add_inj hk hleft, h.mem hk,
      Progress.firedOf_fire (h.sound.size ▸ hn')]
    by_cases hm : m = n
    · subst hm
      simp only [true_and, if_true]
      omega
    · simp [hm]
  · rw [List.map_cons, ← h.latest, List.getD_eq_getElem?_getD, owners_getElem? hleft]
    rfl

/-- As many rounds of the search and of the sort lead to the same firings. -/
theorem advance (h : Reached g r p done) (hg : g.Coherent) (hv : g.Valid) (hr : r.Balances g)
    (rounds : Nat) : Reached g r (Graph.advance (g.tasks r) r.counts.toArray rounds p)
      (doneAfter (dependencies g r) r.total rounds done) := by
  induction rounds generalizing p done with
  | zero => exact h
  | succ rounds ih =>
    rw [Graph.advance, doneAfter, h.least?_eq hg hv hr, tasks_eq, List.find?_map]
    simp only [Function.comp_def]
    cases hfind : (List.range r.counts.length).find?
        fun n ↦ (task g r n).isReady r.counts.toArray p with
    | none => exact h
    | some n =>
      have hready := List.find?_some hfind
      rw [← tasks_eq]
      exact ih (h.fire hg hv hr hready)

end Reached

/-! ## Deadlocks -/

/-- A node that has firings left. -/
def Unfinished (r : Repetitions) (p : Progress) (n : NodeId) : Prop := p.firedOf n < r.get n

instance (r : Repetitions) (p : Progress) : DecidablePred (Unfinished r p) :=
  fun _ ↦ Nat.decLt _ _

theorem of_concat_prefix_range {done : List Nat} {k size : Nat} (h : done ++ [k] <+: List.range size) :
    k = done.length ∧ k < size := by
  obtain ⟨hlt, heq⟩ := List.getElem?_eq_some_iff.mp (getElem?_after h)
  rw [List.getElem_range] at heq
  rw [List.length_range] at hlt
  exact ⟨heq.symm, heq ▸ hlt⟩

/-- The firings of one node that wait for ever name it once. -/
theorem nameOwner_row {owners : List NodeId} {degree : Nat → Nat} {n fired count offset : Nat}
    {nodes : List NodeId} (howner : ∀ k < count, owners[offset + k]? = some n)
    (hdegree : ∀ k < count, degree (offset + k) = 0 ↔ k < fired) (hnew : n ∉ nodes) :
    ((List.range count).map (offset + ·)).foldlM (fun nodes i ↦ nameOwner owners nodes (degree i) i)
      nodes = .ok (if fired < count then nodes ++ [n] else nodes) := by
  rw [List.foldlM_map]
  have hrow := exists_foldlM (l := List.range count)
    (f := fun nodes k ↦ nameOwner owners nodes (degree (offset + k)) (offset + k))
    (P := fun done nodes' ↦ nodes' = if fired < done.length then nodes ++ [n] else nodes)
    (s := nodes) (by simp) ?_
  · obtain ⟨nodes', hfold, hnodes'⟩ := hrow
    rw [hfold, hnodes', List.length_range]
  · rintro done k nodes' hpre rfl
    obtain ⟨rfl, hk⟩ := of_concat_prefix_range hpre
    rw [List.length_append, List.length_singleton]
    -- A firing that is done, the first one that is left, and those that find the node named.
    rcases Nat.lt_trichotomy done.length fired with hlt | heq | hgt
    · refine ⟨_, if_pos ((hdegree _ hk).mpr hlt), ?_⟩
      rw [if_neg (by omega), if_neg (by omega)]
    · refine ⟨nodes ++ [n], ?_, by rw [if_pos (by omega)]⟩
      have hlast : nodes.getLast? ≠ some n := fun hlast ↦ hnew (List.mem_of_getLast? hlast)
      rw [nameOwner, if_neg (by rw [hdegree _ hk]; omega), howner _ hk, found_some, ok_bind,
        if_neg (show ¬ fired < done.length by omega), if_neg hlast]
      rfl
    · refine ⟨nodes ++ [n], ?_, by rw [if_pos (by omega)]⟩
      rw [nameOwner, if_neg (by rw [hdegree _ hk]; omega), howner _ hk, found_some, ok_bind,
        if_pos hgt, if_pos List.getLast?_concat]
      rfl

/-- Where nothing is ready, the owners of what waits are the nodes that have firings left. -/
theorem waitingOwners_eq {s : Front} (h : Reached g r p done)
    (hs : s.Holds r.total (waits (dependencies g r) done) done) (hend : s.ready = []) :
    waitingOwners (owners r) s.degrees.toList =
      .ok ((List.range r.counts.length).filter (Unfinished r p)) := by
  have hdegrees : s.degrees.toList.zipIdx =
      (List.range r.total).map fun i ↦ (waits (dependencies g r) done i, i) := by
    apply List.ext_getElem (by simp [hs.size_degrees])
    intro i hi _
    have hlt : i < r.total := by simpa [hs.size_degrees] using hi
    have hdegree := (Array.getElem?_eq_some_iff.mp (hs.degrees hlt)).2
    simp [hdegree]
  have hrow {n k : Nat} (hk : k < r.get n) :
      waits (dependencies g r) done (r.offset n + k) = 0 ↔ k < p.firedOf n := by
    rw [← h.mem hk, ← not_iff_not, ← hs.degree_pos_iff hend (Repetitions.offset_add_lt_total hk)]
    exact Nat.pos_iff_ne_zero.symm
  rw [waitingOwners, hdegrees, List.foldlM_map, r.range_total]
  refine (foldlM_flatMap (fun n _ nodes ↦ rfl) []).symm.trans ?_
  have hrows := exists_foldlM (l := List.range r.counts.length)
    (f := fun nodes n ↦ ((List.range (r.get n)).map (r.offset n + ·)).foldlM
      (fun nodes i ↦ nameOwner (owners r) nodes (waits (dependencies g r) done i) i) nodes)
    (P := fun nodes' nodes ↦ nodes = nodes'.filter (Unfinished r p)) (s := []) rfl ?_
  · obtain ⟨nodes, hfold, hnodes⟩ := hrows
    rw [hfold, hnodes]
  · rintro nodes' n nodes hpre rfl
    have hnew : n ∉ nodes'.filter (Unfinished r p) := fun hmem ↦ by
      have hnodup := List.nodup_range.sublist hpre.sublist
      exact (List.nodup_append.mp hnodup).2.2 n (List.mem_of_mem_filter hmem) n (by simp) rfl
    refine ⟨_, nameOwner_row (fun k hk ↦ owners_getElem? hk) (fun k hk ↦ hrow hk) hnew, ?_⟩
    rw [List.filter_append, List.filter_singleton]
    by_cases hleft : p.firedOf n < r.get n <;> simp [Unfinished, hleft]

theorem stuck_eq (g : Graph) (r : Repetitions) (p : Progress) :
    ((g.tasks r).filter fun t ↦ p.firedOf t.node < t.count).map (·.node) =
      (List.range r.counts.length).filter (Unfinished r p) := by
  rw [tasks_eq, List.filter_map, List.map_map]
  exact List.map_id _

/-! ## The order -/

/-- The sort takes all firings exactly when no node has firings left. -/
theorem total_le_length_iff (h : Reached g r p done) {degree : Nat → Nat} {s : Front}
    (hs : s.Holds r.total degree done) :
    r.total ≤ done.length ↔ (List.range r.counts.length).filter (Unfinished r p) = [] := by
  rw [List.filter_eq_nil_iff]
  constructor
  · intro hall n _ hleft
    have hleft : p.firedOf n < r.get n := of_decide_eq_true hleft
    have hmem := hs.mem_of_length_eq (Nat.le_antisymm hs.length_le hall)
      (Repetitions.offset_add_lt_total hleft)
    exact Nat.lt_irrefl _ ((h.mem hleft).mp hmem)
  · intro hfinished
    have hsub : List.range r.total ⊆ done := fun y hy ↦ by
      obtain ⟨n, k, hk, rfl⟩ := Repetitions.exists_offset (List.mem_range.mp hy)
      have hn := Repetitions.lt_of_get_pos (Nat.zero_lt_of_lt hk)
      have hdone : ¬ p.firedOf n < r.get n :=
        of_decide_eq_false (eq_false_of_ne_true (hfinished n (List.mem_range.mpr hn)))
      exact (h.mem hk).mpr (by omega)
    simpa using (List.nodup_range.subperm hsub).length_le

theorem periodOrder_eq (hg : g.Coherent) (hv : g.Valid) (hr : r.Balances g)
    (htotal : r.total < Word.modulus) (hnodes : g.nodes.length < 2147483648)
    (hedges : g.edges.length < 2147483648) (limit : Nat) :
    periodOrder g r limit = of (g.periodOrder r limit) := by
  have hroom : g.nodes.length + 1 < Word.modulus := Nat.lt_of_le_of_lt hnodes (by decide)
  rw [periodOrder, Graph.periodOrder, total_eq htotal, ok_bind]
  split
  · rfl
  · obtain ⟨d, hd, hrecords⟩ := exists_dependencies hg hv hr htotal hedges
    obtain ⟨s, hsort, hend, hs⟩ := sort_eq hrecords
      (fun pair hpair ↦ lt_of_mem_dependencies hg hv hr hpair) (length_owners r)
      (Front.Holds.start hrecords) (Nat.add_zero r.total)
    have hreached := (reached_start g r).advance hg hv hr r.total
    rw [← hr.length] at hreached
    simp only [word_of_lt hroom, offsets_eq htotal, ok_bind]
    change (addChains r (starts r) (.start r.total) >>= fun chained ↦
      addCrossings g r (starts r) chained >>= fun d ↦ _) = _
    rw [← bind_assoc, hd, ok_bind]
    simp only [List.map_nil, List.reverse_nil] at hsort
    rw [hsort, ok_bind]
    simp only [List.length_reverse, List.length_map]
    generalize hp : Graph.advance (g.tasks r) r.counts.toArray r.total (.start r.counts.length) = p
      at hreached
    have hstuck := stuck_eq g r p
    cases hfilter : (g.tasks r).filter fun t ↦ p.firedOf t.node < t.count with
    | nil =>
      rw [hfilter, List.map_nil] at hstuck
      have hall := (total_le_length_iff hreached hs).mpr hstuck.symm
      rw [if_neg (Nat.not_lt.mpr hall), ← hreached.latest]
      rfl
    | cons t rest =>
      rw [hfilter] at hstuck
      have hsome := (total_le_length_iff hreached hs).not.mpr (by rw [← hstuck]; simp)
      rw [if_pos (Nat.lt_of_not_le hsome), waitingOwners_eq hreached hs hend, ok_bind, ← hstuck]
      rfl

end Dataflow.Machine
