import Dataflow.Proofs.Machine.Capacity

/-!
# The replay in machine words

At each firing of the replay no edge holds more than its capacity, for the room of every output has been
looked at before it is written. So the free places are never below zero, nothing that is added leaves
the word that the capacity is in, and nothing is taken that has not been found there.
-/

namespace Dataflow.Machine

def checkTokens (g : Graph) (n : NodeId) (level : Array Nat) (id : EdgeId) : Computation Unit := do
  let tokens ← found level[id]?
  let e ← found g.edges[id]?
  if tokens < e.consumption.toNat then refuse (.unsatisfiable id n) else .ok ()

def checkRoom (g : Graph) (n : NodeId) (capacities level : Array Nat) (id : EdgeId) :
    Computation Unit := do
  let capacity ← found capacities[id]?
  let tokens ← found level[id]?
  let free ← difference capacity tokens
  let e ← found g.edges[id]?
  if free < e.production.toNat then refuse (.unsatisfiable id n) else .ok ()

def write (g : Graph) (level : Array Nat) (id : EdgeId) : Computation (Array Nat) := do
  let e ← found g.edges[id]?
  update level id fun old ↦ word (old + e.production.toNat)

def take (g : Graph) (level : Array Nat) (id : EdgeId) : Computation (Array Nat) := do
  let e ← found g.edges[id]?
  update level id fun old ↦ difference old e.consumption.toNat

def fireWithin (g : Graph) (capacities level : Array Nat) (n : NodeId) :
    Computation (Array Nat) := do
  let node ← found g.nodes[n]?
  node.inputEdges.forM (checkTokens g n level)
  node.outputEdges.forM (checkRoom g n capacities level)
  let written ← node.outputEdges.foldlM (write g) level
  node.inputEdges.foldlM (take g) written

def checkStart (capacities : Array Nat) (e : Edge) (id : EdgeId) : Computation Unit := do
  let capacity ← found capacities[id]?
  if capacity < e.delay.toNat then refuse (.unsatisfiable id e.source.node) else .ok ()

def checkEnd (level : Array Nat) (e : Edge) (id : EdgeId) : Computation Unit := do
  let tokens ← found level[id]?
  if tokens ≠ e.delay.toNat then refuse (.unsatisfiable id e.source.node) else .ok ()

def verify (g : Graph) (order : List NodeId) (capacities : Array Nat) : Computation Unit := do
  g.edges.zipIdx.forM fun (e, id) ↦ checkStart capacities e id
  let level ← order.foldlM (fireWithin g capacities) g.delays
  g.edges.zipIdx.forM fun (e, id) ↦ checkEnd level e id

variable {g : Graph} {capacities a : Array Nat}

/-! ## Single firings -/

/-- Changing different edges one after another. -/
theorem foldlM_change {f : Nat → Nat → Nat} {rate : EdgeId → Nat}
    {step : Array Nat → EdgeId → Computation (Array Nat)} {ids : List EdgeId} (hnodup : ids.Nodup)
    {old : Array Nat} (hsame : ∀ id ∈ ids, Levels.of a id = Levels.of old id)
    (hsize : a.size = old.size)
    (hstep : ∀ id ∈ ids, ∀ b : Array Nat, b.size = old.size → Levels.of b id = Levels.of old id →
      step b id = .ok (b.modify id (f · (rate id)))) :
    ids.foldlM step a = .ok (Levels.change f (ids.map fun id ↦ ⟨id, rate id⟩) a) := by
  induction ids generalizing a with
  | nil => rfl
  | cons i ids ih =>
    obtain ⟨hi, hnodup⟩ := List.nodup_cons.mp hnodup
    rw [List.foldlM_cons, hstep i List.mem_cons_self a hsize (hsame i List.mem_cons_self), ok_bind]
    refine ih hnodup (fun id hid ↦ ?_) (by simpa using hsize)
      fun id hid ↦ hstep id (List.mem_cons_of_mem i hid)
    have hne : id ≠ i := fun heq ↦ hi (heq ▸ hid)
    rw [Levels.of_modify, if_neg fun h ↦ hne h.1]
    exact hsame id (List.mem_cons_of_mem i hid)

theorem write_eq {id : EdgeId} (hid : id < g.edges.length) (ha : a.size = g.edges.length)
    (hfits : Levels.of a id + g.rateAt .output id < Word.modulus) :
    write g a id = .ok (a.modify id (· + g.rateAt .output id)) := by
  have he := List.getElem?_eq_getElem hid
  rw [rateAt_of_getElem? he] at hfits ⊢
  rw [write, he, found_some, ok_bind]
  exact update_eq_modify (ha ▸ hid) (word_of_lt hfits)

theorem take_eq {id : EdgeId} (hid : id < g.edges.length) (ha : a.size = g.edges.length)
    (henough : g.rateAt .input id ≤ Levels.of a id) :
    take g a id = .ok (a.modify id (· - g.rateAt .input id)) := by
  have he := List.getElem?_eq_getElem hid
  rw [rateAt_of_getElem? he] at henough ⊢
  rw [take, he, found_some, ok_bind]
  exact update_eq_modify (ha ▸ hid) (difference_of_le henough)

/-- No edge holds more than its capacity, and capacities are words. -/
structure Fits (g : Graph) (capacities a : Array Nat) : Prop where
  size : a.size = g.edges.length
  size_capacities : capacities.size = g.edges.length
  le (id : EdgeId) : Levels.of a id ≤ Levels.of capacities id
  lt (id : EdgeId) : Levels.of capacities id < Word.modulus

/-- The moves of a firing whose guard is satisfied. -/
theorem Fits.foldlM_moves (hg : g.Coherent) (h : Fits g capacities a) {n : NodeId}
    (hguarded : g.Guarded (Levels.of capacities) n (Levels.of a)) :
    ((g.edgesAt .output n).foldlM (write g) a >>= fun written ↦
      (g.edgesAt .input n).foldlM (take g) written) = .ok (g.fired n a) := by
  obtain ⟨hfed, hfree⟩ := hg.guarded_iff.mp hguarded
  have hlt (d : Direction) {id : EdgeId} (hid : id ∈ g.edgesAt d n) : id < g.edges.length :=
    hg.lt_of_mem_edgesAt hid
  have hwrite : (g.edgesAt .output n).foldlM (write g) a =
      .ok (Levels.change (· + ·) (g.guard n).outputs a) := by
    refine foldlM_change (hg.nodup_edgesAt .output n) (fun _ _ ↦ rfl) rfl fun id hid b hb hsame ↦ ?_
    refine write_eq (hlt .output hid) (hb.trans h.size) ?_
    have hroom := hfree id
    rw [hg.moved_of_mem hid] at hroom
    have hle := h.le id
    have hword := h.lt id
    omega
  have hsize : (Levels.change (· + ·) (g.guard n).outputs a).size = g.edges.length := by
    rw [Levels.size_change, h.size]
  rw [hwrite, ok_bind]
  -- On a loop the tokens just written come on top of those that were found.
  refine foldlM_change (hg.nodup_edgesAt .input n) (fun _ _ ↦ rfl) rfl fun id hid b hb hsame ↦ ?_
  refine take_eq (hlt .input hid) (hb.trans hsize) ?_
  have htokens := hfed id
  rw [hg.moved_of_mem hid] at htokens
  rw [hsame, hg.of_change_outputs n h.size]
  exact Nat.le_add_right_of_le htokens

theorem Fits.checkTokens_eq (h : Fits g capacities a) {id : EdgeId} (hid : id < g.edges.length)
    (n : NodeId) : checkTokens g n a id =
      if a.getD id 0 < g.rateAt .input id then refuse (.unsatisfiable id n) else .ok () := by
  have he := List.getElem?_eq_getElem hid
  rw [checkTokens, getElem?_eq_some_of (h.size ▸ hid), found_some, ok_bind, he, found_some, ok_bind,
    rateAt_of_getElem? he]
  rfl

theorem Fits.checkRoom_eq (h : Fits g capacities a) {id : EdgeId} (hid : id < g.edges.length)
    (n : NodeId) : checkRoom g n capacities a id =
      if capacities.getD id 0 - a.getD id 0 < g.rateAt .output id then refuse (.unsatisfiable id n)
      else .ok () := by
  have he := List.getElem?_eq_getElem hid
  rw [checkRoom, getElem?_eq_some_of (h.size_capacities ▸ hid), found_some, ok_bind,
    getElem?_eq_some_of (h.size ▸ hid), found_some, ok_bind, difference_of_le (h.le id), ok_bind, he,
    found_some, ok_bind, rateAt_of_getElem? he]
  rfl

/-- What the replay looks for before a firing, edge by edge. -/
theorem fireWithin_guard (g : Graph) (capacities a : Array Nat) (n : NodeId) :
    Graph.fireWithin capacities a (g.guard n) =
      match (g.edgesAt .input n).find? fun id ↦ a.getD id 0 < g.rateAt .input id with
      | some id => .error (.unsatisfiable id n)
      | none =>
        match (g.edgesAt .output n).find? fun id ↦
            capacities.getD id 0 - a.getD id 0 < g.rateAt .output id with
        | some id => .error (.unsatisfiable id n)
        | none => .ok (g.fired n a) := by
  rw [Graph.fireWithin, Graph.inputs_guard, Graph.outputs_guard, List.find?_map, List.find?_map,
    Function.comp_def, Function.comp_def]
  cases (g.edgesAt .input n).find? fun id ↦ a.getD id 0 < g.rateAt .input id with
  | some id => rfl
  | none =>
    cases (g.edgesAt .output n).find? fun id ↦
      capacities.getD id 0 - a.getD id 0 < g.rateAt .output id <;> rfl

theorem Fits.fireWithin_eq (hg : g.Coherent) (h : Fits g capacities a) {n : NodeId}
    (hn : n < g.nodes.length) :
    fireWithin g capacities a n = of (Graph.fireWithin capacities a (g.guard n)) := by
  have hnode := List.getElem?_eq_getElem hn
  obtain ⟨hout, hin⟩ := edgesAt_eq hnode
  have htokens := forM_refuse (l := g.edgesAt .input n)
    (p := fun id ↦ a.getD id 0 < g.rateAt .input id) (e := fun id ↦ .unsatisfiable id n)
    fun id hid ↦ by simpa using h.checkTokens_eq (hg.lt_of_mem_edgesAt hid) n
  have hroom := forM_refuse (l := g.edgesAt .output n)
    (p := fun id ↦ capacities.getD id 0 - a.getD id 0 < g.rateAt .output id)
    (e := fun id ↦ .unsatisfiable id n)
    fun id hid ↦ by simpa using h.checkRoom_eq (hg.lt_of_mem_edgesAt hid) n
  have hguard := fireWithin_guard g capacities a n
  rw [fireWithin, hnode, found_some, ok_bind, ← hin, ← hout, htokens, hroom]
  cases hfindIn : (g.edgesAt .input n).find? fun id ↦ a.getD id 0 < g.rateAt .input id with
  | some id =>
    rw [hfindIn] at hguard
    rw [hguard]
    rfl
  | none =>
    rw [hfindIn] at hguard
    cases hfindOut : (g.edgesAt .output n).find? fun id ↦
        capacities.getD id 0 - a.getD id 0 < g.rateAt .output id with
    | some id =>
      rw [hfindOut] at hguard
      rw [hguard]
      rfl
    | none =>
      rw [hfindOut] at hguard
      rw [hguard]
      exact h.foldlM_moves hg (Graph.fireWithin_eq_ok_iff.mp hguard).1

/-- A firing leaves no edge above its capacity. -/
theorem Fits.of_fireWithin (hg : g.Coherent) (h : Fits g capacities a) {n : NodeId} {a' : Array Nat}
    (hfire : Graph.fireWithin capacities a (g.guard n) = .ok a') : Fits g capacities a' := by
  obtain ⟨hguarded, rfl⟩ := Graph.fireWithin_eq_ok_iff.mp hfire
  refine ⟨by rw [Graph.size_fired, h.size], h.size_capacities, fun id ↦ ?_, h.lt⟩
  rw [hg.of_fired n h.size, Graph.after]
  have hroom := (hg.guarded_iff.mp hguarded).2 id
  have hle := h.le id
  omega

/-! ## All firings -/

theorem checkAll_eq {check : Edge → EdgeId → Computation Unit} {p : EdgeId → Edge → Bool}
    (h : ∀ id e, g.edges[id]? = some e →
      check e id = if p id e then refuse (.unsatisfiable id e.source.node) else .ok ()) :
    (g.edges.zipIdx.forM fun (e, id) ↦ check e id) = of (g.rejectEdge p) := by
  have hchecks := forM_refuse (l := g.edges.zipIdx) (f := fun x ↦ check x.1 x.2)
    (p := fun x ↦ p x.2 x.1) (e := fun x ↦ .unsatisfiable x.2 x.1.source.node)
    fun x hx ↦ h x.2 x.1 (List.mem_zipIdx_iff_getElem?.mp hx)
  refine hchecks.trans ?_
  rw [Graph.rejectEdge]
  cases g.edges.zipIdx.find? fun x ↦ p x.2 x.1 <;> rfl

/-- The initial tokens fit when the first look at all edges has found room for them. -/
theorem fits_delays (hsize : capacities.size = g.edges.length)
    (hword : ∀ id, Levels.of capacities id < Word.modulus)
    (hroom : g.rejectEdge (fun id e ↦ capacities.getD id 0 < e.delay.toNat) = .ok ()) :
    Fits g capacities g.delays := by
  refine ⟨g.size_delays, hsize, fun id ↦ ?_, hword⟩
  rw [g.of_delays]
  cases he : g.edges[id]? with
  | none =>
    rw [Graph.delay_of_length_le (List.getElem?_eq_none_iff.mp he)]
    exact Nat.zero_le _
  | some e =>
    simpa [Graph.delay_of_getElem? he, Levels.of] using Graph.rejectEdge_eq_ok_iff.mp hroom id e he

theorem verify_eq (hg : g.Coherent) {order : List NodeId} (horder : ∀ n ∈ order, n < g.nodes.length)
    (hsize : capacities.size = g.edges.length)
    (hword : ∀ id, Levels.of capacities id < Word.modulus) :
    verify g order capacities = of (g.verify (g.guardsOf order) capacities) := by
  have hlt {id : EdgeId} {e : Edge} (he : g.edges[id]? = some e) : id < g.edges.length :=
    (List.getElem?_eq_some_iff.mp he).1
  refine bind_of (checkAll_eq fun id e he ↦ ?_) fun _ hroom ↦ ?_
  · rw [checkStart, getElem?_eq_some_of (hsize ▸ hlt he), found_some, ok_bind]
    simp [Levels.of]
  have hfits := fits_delays hsize hword hroom
  refine bind_of ?_ fun level hlevel ↦ checkAll_eq fun id e he ↦ ?_
  · rw [g.guardsOf_eq, List.foldlM_map]
    refine foldlM_of (P := fun _ a ↦ Fits g capacities a) hfits fun done n a hpre ha ↦ ?_
    exact ⟨ha.fireWithin_eq hg (horder n (mem_after hpre)), fun a' ↦ ha.of_fireWithin hg⟩
  · rw [g.guardsOf_eq, List.foldlM_map] at hlevel
    have hend : Fits g capacities level :=
      Fold.foldlM_ok_induction (P := fun _ a ↦ Fits g capacities a) hlevel hfits
        fun _ _ _ _ _ ha ↦ ha.of_fireWithin hg
    rw [checkEnd, getElem?_eq_some_of (hend.size ▸ hlt he), found_some, ok_bind]
    simp [Levels.of]

end Dataflow.Machine
