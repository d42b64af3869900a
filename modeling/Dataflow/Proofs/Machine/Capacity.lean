import Dataflow.Proofs.Machine.Operation
import Dataflow.Proofs.Schedule.Plan

/-!
# Capacities in machine words

Whatever the order, nothing brings an edge above what is written to it in all, and for a period this is
its supply, which is a word. So the replay that notes the peaks adds without overflow, and each capacity
in a fixed order is a word again.
-/

namespace Dataflow.Machine

/-- Writes the tokens of a firing to an edge behind the node. -/
def produce (g : Graph) (b : Backlog) (id : EdgeId) : Computation Backlog := do
  let e ← found g.edges[id]?
  let level ← update b.level id fun old ↦ word (old + e.production.toNat)
  let new ← found level[id]?
  let peak ← update b.peak id fun old ↦ .ok (max old new)
  return ⟨level, peak⟩

/-- Takes the tokens of a firing of `n` from an edge before it. -/
def consume (g : Graph) (n : NodeId) (b : Backlog) (id : EdgeId) : Computation Backlog := do
  let e ← found g.edges[id]?
  let level ← update b.level id fun old ↦
    if old < e.consumption.toNat then refuse (.unsatisfiable id n)
    else difference old e.consumption.toNat
  return { b with level }

def fire (g : Graph) (b : Backlog) (n : NodeId) : Computation Backlog := do
  let node ← found g.nodes[n]?
  let written ← node.outputEdges.foldlM (produce g) b
  node.inputEdges.foldlM (consume g n) written

def peaks (g : Graph) (order : List NodeId) : Computation (Array Nat) := do
  let b ← order.foldlM (fire g) ⟨g.delays, g.delays⟩
  return b.peak

/-- The room that an edge wants for a period in any order of firings. -/
def withBurst (r : Repetitions) (margin : UInt32) (e : Edge) (peak : Nat) : Computation Nat := do
  let produced ← word (r.get e.source.node * e.production.toNat)
  let burst ← word (e.delay.toNat + produced)
  let worst := max peak burst
  let extra ← word (worst * margin.toNat)
  word (worst + (extra + 99) / 100)

def capacity (r : Repetitions) (o : SizingOptions) (e : Edge) (peak : Nat) : Computation Nat := do
  let wanted ← if o.mode.isAsynchronous then withBurst r o.margin e peak else .ok peak
  match o.limit with
  | none => return wanted
  | some limit => return min wanted limit.toNat

/-- The capacity of every edge, before the replay against all of them. -/
def sizes (g : Graph) (r : Repetitions) (o : SizingOptions) (peaks : Array Nat) :
    Computation (List Nat) :=
  g.edges.zipIdx.foldlM
    (fun acc (e, id) ↦ do
      let peak ← found peaks[id]?
      let size ← capacity r o e peak
      store acc id size)
    (List.replicate g.edges.length 0)

variable {g : Graph} {r : Repetitions} {b : Backlog} {level : Levels}

/-! ## Single firings -/

theorem getElem?_eq_some_of {a : Array Nat} {id : EdgeId} (h : id < a.size) :
    a[id]? = some (Levels.of a id) := by
  simp [Levels.of, Array.getD_eq_getD_getElem?, h]

/-- To change what stands at an edge is one step of a change along many. -/
theorem update_eq_modify {a : Array Nat} {id : EdgeId} (h : id < a.size) {f : Nat → Nat}
    {step : Nat → Computation Nat} (hstep : step (Levels.of a id) = .ok (f (Levels.of a id))) :
    update a id step = .ok (a.modify id f) := by
  rw [update_eq (getElem?_eq_some_of h) hstep, ← Levels.setIfInBounds_eq_modify]
  rfl

theorem rateAt_of_getElem? {id : EdgeId} {e : Edge} (he : g.edges[id]? = some e) (d : Direction) :
    g.rateAt d id = e.rateAt d := by
  simp [Graph.rateAt, he]

theorem edgesAt_eq {n : NodeId} {node : Node} (h : g.nodes[n]? = some node) :
    g.edgesAt .output n = node.outputEdges ∧ g.edgesAt .input n = node.inputEdges :=
  ⟨Graph.edgesAt_of_getElem? h .output, Graph.edgesAt_of_getElem? h .input⟩

theorem produce_eq {id : EdgeId} (hid : id < g.edges.length) (hlevel : b.level.size = g.edges.length)
    (hpeak : b.peak.size = g.edges.length)
    (hfits : Levels.of b.level id + g.rateAt .output id < Word.modulus) :
    produce g b id = .ok (b.produce ⟨id, g.rateAt .output id⟩) := by
  have he := List.getElem?_eq_getElem hid
  rw [rateAt_of_getElem? he] at hfits ⊢
  have hadd : update b.level id (fun old ↦ word (old + g.edges[id].production.toNat)) =
      .ok (b.level.modify id (· + g.edges[id].production.toNat)) :=
    update_eq_modify (hlevel ▸ hid) (word_of_lt hfits)
  have hnew : (b.level.modify id (· + g.edges[id].production.toNat))[id]? =
      some (Levels.of b.level id + g.edges[id].rateAt .output) := by
    rw [getElem?_eq_some_of (by simpa [hlevel] using hid), Levels.of_modify,
      if_pos ⟨rfl, hlevel ▸ hid⟩]
    rfl
  have hmax : update b.peak id (fun old ↦ .ok (max old (Levels.of b.level id +
      g.edges[id].rateAt .output))) =
        .ok (b.peak.modify id (max · (Levels.of b.level id + g.edges[id].rateAt .output))) :=
    update_eq_modify (hpeak ▸ hid) rfl
  rw [produce, he, found_some, ok_bind, hadd, ok_bind, hnew, found_some, ok_bind, hmax, ok_bind]
  congr 1
  exact congrArg (Backlog.mk · _) (b.level_produce ⟨id, g.edges[id].rateAt .output⟩).symm

theorem consume_eq {id : EdgeId} (hid : id < g.edges.length) (hlevel : b.level.size = g.edges.length)
    (n : NodeId) : consume g n b id = of (b.consume n ⟨id, g.rateAt .input id⟩) := by
  have he := List.getElem?_eq_getElem hid
  have hold := getElem?_eq_some_of (hlevel ▸ hid : id < b.level.size)
  rw [rateAt_of_getElem? he, consume, he, found_some, ok_bind, Backlog.consume]
  change _ = of (if Levels.of b.level id < g.edges[id].consumption.toNat then _ else _)
  by_cases hlt : Levels.of b.level id < g.edges[id].consumption.toNat
  · rw [update, hold, found_some, ok_bind, if_pos hlt, if_pos hlt]
    rfl
  · rw [update, hold, found_some, ok_bind, if_neg hlt, if_neg hlt,
      difference_of_le (Nat.le_of_not_lt hlt)]
    rfl

/-- Writing to different edges, each with its own room in a word. -/
theorem foldlM_produce {ids : List EdgeId} (hnodup : ids.Nodup)
    (hids : ∀ id ∈ ids, id < g.edges.length) (hlevel : b.level.size = g.edges.length)
    (hpeak : b.peak.size = g.edges.length)
    (hfits : ∀ id ∈ ids, Levels.of b.level id + g.rateAt .output id < Word.modulus) :
    ids.foldlM (produce g) b =
      .ok ((ids.map fun id ↦ ⟨id, g.rateAt .output id⟩).foldl Backlog.produce b) := by
  induction ids generalizing b with
  | nil => rfl
  | cons i ids ih =>
    obtain ⟨hi, hnodup⟩ := List.nodup_cons.mp hnodup
    rw [List.foldlM_cons, produce_eq (hids i List.mem_cons_self) hlevel hpeak
      (hfits i List.mem_cons_self), ok_bind, List.map_cons, List.foldl_cons]
    refine ih hnodup (fun id hid ↦ hids id (List.mem_cons_of_mem i hid))
      (by simpa [Backlog.level_produce] using hlevel) (by simpa [Backlog.peak_produce] using hpeak)
      fun id hid ↦ ?_
    have hne : id ≠ i := fun heq ↦ hi (heq ▸ hid)
    rw [Backlog.level_produce, Levels.of_modify, if_neg fun h ↦ hne h.1]
    exact hfits id (List.mem_cons_of_mem i hid)

theorem foldlM_consume (n : NodeId) {ids : List EdgeId} (hids : ∀ id ∈ ids, id < g.edges.length)
    (hlevel : b.level.size = g.edges.length) : ids.foldlM (consume g n) b =
      of ((ids.map fun id ↦ ⟨id, g.rateAt .input id⟩).foldlM (Backlog.consume n) b) := by
  rw [List.foldlM_map]
  refine foldlM_of (P := fun _ b ↦ b.level.size = g.edges.length) hlevel ?_
  intro done id b hpre hb
  refine ⟨consume_eq (hids id (mem_after hpre)) hb n, fun b' hb' ↦ ?_⟩
  simp only [Backlog.consume] at hb'
  split at hb'
  · cases hb'
  · cases hb'
    simpa using hb

theorem fire_eq (hg : g.Coherent) (hlevel : b.level.size = g.edges.length)
    (hpeak : b.peak.size = g.edges.length) {n : NodeId} (hn : n < g.nodes.length)
    (hfits : ∀ id, Levels.of b.level id + g.moved .output n id < Word.modulus) :
    fire g b n = of (b.fire (g.guard n)) := by
  have hnode := List.getElem?_eq_getElem hn
  obtain ⟨hout, hin⟩ := edgesAt_eq hnode
  have hlt (d : Direction) : ∀ id ∈ g.edgesAt d n, id < g.edges.length :=
    fun id hid ↦ hg.lt_of_mem_edgesAt hid
  have hproduce := foldlM_produce (hg.nodup_edgesAt .output n) (hlt .output) hlevel hpeak
    fun id hid ↦ hg.moved_of_mem hid ▸ hfits id
  rw [fire, hnode, found_some, ok_bind, ← hout, hproduce, ok_bind, ← hin, Backlog.fire,
    Graph.outputs_guard, Graph.inputs_guard]
  refine foldlM_consume n (hlt .input) ?_
  rw [Backlog.level_foldl_produce, Levels.size_change, hlevel]

/-! ## Peaks of an order -/

section Order

variable {order : List NodeId}

/-- In every state that the replay passes through, there is room in a word for what the next firing
writes. -/
def ReplayFits (g : Graph) (order : List NodeId) : Prop :=
  ∀ done n, done ++ [n] <+: order → ∀ b, g.backlog done = .ok b →
    ∀ id, Levels.of b.level id + g.moved .output n id < Word.modulus

theorem peaks_eq (hg : g.Coherent) (horder : ∀ n ∈ order, n < g.nodes.length)
    (hfits : ReplayFits g order) :
    peaks g order = of (List.toArray <$> g.peaks (g.guardsOf order)) := by
  have hfold : order.foldlM (fire g) ⟨g.delays, g.delays⟩ = of (g.backlog order) := by
    refine foldlM_of (P := fun done b ↦ g.backlog done = .ok b) rfl fun done n b hpre hb ↦ ?_
    have hbelow := Graph.below_of_backlog hg hb
    refine ⟨fire_eq hg hbelow.size_level hbelow.size_peak (horder n (mem_after hpre))
      (hfits done n hpre b hb), fun b' hb' ↦ ?_⟩
    rw [g.backlog_concat, hb]
    exact hb'
  rw [peaks, hfold, g.peaks_eq_backlog]
  cases g.backlog order <;> rfl

/-- Whatever the order, it is enough that all that is written to an edge is a word. -/
theorem replayFits_of_written (hg : g.Coherent) (h : ∀ id, g.written order id < Word.modulus) :
    ReplayFits g order := by
  intro done n hpre b hb id
  calc
    Levels.of b.level id + g.moved .output n id ≤ g.written done id + g.moved .output n id :=
      Nat.add_le_add_right ((Graph.below_of_backlog hg hb).level_le id) _
    _ = g.written (done ++ [n]) id := (g.written_concat done n id).symm
    _ ≤ g.written order id := Graph.written_mono hpre.sublist.count_le id
    _ < Word.modulus := h id

/-- Where all firings find their tokens, it is enough that they stay within words. -/
theorem replayFits_of_within (hg : g.Coherent) (hfed : Steps.Along g.Fed g.after order g.delay)
    {bound : Levels} (hwithin : Steps.Along (g.Within bound) g.after order g.delay)
    (hbound : ∀ id, bound id < Word.modulus) : ReplayFits g order := by
  rintro done n ⟨rest, rfl⟩ b hb id
  rw [Steps.along_append, Steps.along_append] at hfed hwithin
  rw [(Graph.tracks_of_backlog hg hfed.1.1 hb).level_eq]
  exact Nat.lt_of_le_of_lt (hwithin.1.2.1 id) (hbound id)

end Order

/-! ## Capacities -/

theorem capacity_eq {o : SizingOptions} (hmode : o.mode = .static) (e : Edge) (peak : Nat) :
    capacity r o e peak = .ok (Graph.capacityOf e peak r o) := by
  have hfixed : o.mode.isAsynchronous = false := by rw [hmode]; rfl
  rw [capacity, Graph.capacityOf_static hmode, SizingOptions.cut, hfixed]
  cases o.limit <;> rfl

/-- Sizing edge by edge, where each size is a word. -/
theorem sizes_eq {o : SizingOptions} {peaks : List Nat} (hlength : peaks.length = g.edges.length)
    (hsize : ∀ x ∈ g.edges.zip peaks, capacity r o x.1 x.2 = .ok (Graph.capacityOf x.1 x.2 r o)) :
    sizes g r o peaks.toArray =
      .ok ((g.edges.zip peaks).map fun (e, peak) ↦ Graph.capacityOf e peak r o) := by
  have hsizes := exists_foldlM (l := g.edges.zipIdx)
    (f := fun acc x ↦ do
      let peak ← found peaks.toArray[x.2]?
      let size ← capacity r o x.1 peak
      store acc x.2 size)
    (P := fun done acc ↦ acc.length = g.edges.length ∧ ∀ id < done.length,
      acc[id]? = ((g.edges.zip peaks).map fun (e, peak) ↦ Graph.capacityOf e peak r o)[id]?)
    (s := List.replicate g.edges.length 0) ⟨List.length_replicate, by simp⟩ ?_
  · obtain ⟨acc, hfold, hlengthAcc, hacc⟩ := hsizes
    refine hfold.trans (congrArg Except.ok (List.ext_getElem? fun id ↦ ?_))
    rcases Nat.lt_or_ge id g.edges.length with hid | hid
    · exact hacc id (by simpa using hid)
    · rw [List.getElem?_eq_none (hlengthAcc ▸ hid), List.getElem?_eq_none (by simp; omega)]
  · rintro done ⟨e, id⟩ acc hpre ⟨hlengthAcc, hacc⟩
    have hx := getElem?_after hpre
    rw [List.getElem?_zipIdx, Option.map_eq_some_iff] at hx
    obtain ⟨e', he, heq⟩ := hx
    obtain ⟨rfl, rfl⟩ := Prod.mk.inj heq
    rw [Nat.zero_add]
    obtain ⟨hid, hedge⟩ := List.getElem?_eq_some_iff.mp he
    have hpeak : peaks.toArray[done.length]? = some peaks[done.length] := by simp [hlength, hid]
    have hzip : (g.edges.zip peaks)[done.length]? = some (e', peaks[done.length]) := by
      simp [hlength, hid, hedge]
    have hnext : ((g.edges.zip peaks).map fun (e, peak) ↦ Graph.capacityOf e peak r o)[done.length]? =
        some (Graph.capacityOf e' peaks[done.length] r o) := by
      rw [List.getElem?_map, hzip, Option.map_some]
    refine ⟨acc.set done.length (Graph.capacityOf e' peaks[done.length] r o), ?_, ?_, fun i hi ↦ ?_⟩
    · simp only [hpeak, found_some, ok_bind, hsize _ (List.mem_of_getElem? hzip)]
      exact store_of_lt (hlengthAcc ▸ hid) _
    · rw [List.length_set, hlengthAcc]
    · rw [List.length_append, List.length_singleton] at hi
      rcases Nat.lt_succ_iff_lt_or_eq.mp hi with hlt | rfl
      · rw [List.getElem?_set_ne (Nat.ne_of_gt hlt), hacc i hlt]
      · rw [List.getElem?_set_self (hlengthAcc ▸ hid), hnext]

end Dataflow.Machine
