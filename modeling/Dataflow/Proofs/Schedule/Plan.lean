import Dataflow.Proofs.Schedule.Capacity
import Dataflow.Schedule.Plan

/-!
# What a plan promises

A graph that compiles is valid, its counts balance it, and its period can be replayed within the
capacities. In a fixed order without a limit nothing is left to fail once there is a period: the
capacities are the peaks of the order, and these are machine words.
-/

namespace Dataflow

/-- The capacity of each edge. -/
def Plan.room (p : Plan) : Levels := fun id ↦ (p.capacity? id).getD 0

/-- What compiling establishes. -/
structure Plan.Sound (p : Plan) : Prop where
  coherent : p.graph.Coherent
  valid : p.graph.Valid
  balances : p.repetitions.Balances p.graph
  period : p.graph.IsPeriod p.repetitions p.order
  length : p.capacities.length = p.graph.edges.length
  delay_le (id : EdgeId) : p.graph.delay id ≤ p.room id
  carries : Steps.Along (p.graph.Ready p.room) p.graph.after p.order p.graph.delay

namespace Graph

variable {g : Graph} {r : Repetitions} {order : List NodeId}

/-- What the firings of a period add to an edge, on top of its initial tokens. -/
def supply (g : Graph) (r : Repetitions) (id : EdgeId) : Nat :=
  (g.edges[id]?.map fun e ↦ e.delay.toNat + e.rateAt .output * r.get e.source.node).getD 0

theorem delay_le_supply (g : Graph) (r : Repetitions) (id : EdgeId) : g.delay id ≤ g.supply r id := by
  cases he : g.edges[id]? with
  | none => simp [delay, he]
  | some e => simp [delay, supply, he]

/-- What firings write to an edge is no more than its supply as long as no node goes beyond the
period. -/
theorem written_le_supply {w : List NodeId} (h : ∀ n, w.count n ≤ r.get n) (id : EdgeId) :
    g.written w id ≤ g.supply r id := by
  cases he : g.edges[id]? with
  | none => simp [written, he]
  | some e =>
    simp only [written_of_getElem? he, supply, he, Option.map_some, Option.getD_some]
    exact Nat.add_le_add_left (Nat.mul_le_mul_left _ (h _)) _

theorem supply_lt_modulus (hg : g.Coherent) (hr : r.Balances g) (id : EdgeId) :
    g.supply r id < Word.modulus := by
  cases he : g.edges[id]? with
  | none => simp [supply, he, Word.modulus]
  | some e =>
    have hcount : r.get e.source.node ≤ 4294967295 :=
      Nat.le_of_lt_succ (hr.fits (hg.node_lt he .output))
    have hrate : e.rateAt .output ≤ 4294967295 := Nat.le_of_lt_succ e.production.toNat_lt
    have hdelay : e.delay.toNat ≤ 4294967295 := Nat.le_of_lt_succ e.delay.toNat_lt
    have hproduct := Nat.mul_le_mul hrate hcount
    simp only [supply, he, Option.map_some, Option.getD_some, Word.modulus]
    omega

/-- A period is carried by its peaks. -/
theorem Coherent.verify_peaks (hg : g.Coherent) {peaks : List Nat} (h : g.IsPeriod r order)
    (hr : r.Balances g)
    (hpeaks : ∀ bound : Levels, (∀ id, peaks[id]?.getD 0 ≤ bound id) ↔
      (∀ id, g.delay id ≤ bound id) ∧ Steps.Along (g.Within bound) g.after order g.delay) :
    g.verify (g.guardsOf order) peaks.toArray = .ok () := by
  have hroom : Levels.of peaks.toArray = fun id ↦ peaks[id]?.getD 0 :=
    funext (Levels.of_toArray peaks)
  obtain ⟨hdelay, hwithin⟩ := (hpeaks _).mp fun id ↦ Nat.le_refl (peaks[id]?.getD 0)
  refine hg.verify_eq_ok_iff.mpr ⟨fun id ↦ hroom ▸ hdelay id, ?_, h.run_eq hr⟩
  rw [hroom]
  refine (h.along.and hwithin).mono fun n level ⟨hfed, hin⟩ ↦ ?_
  exact hg.guarded_iff.mpr ⟨hfed, fun id ↦ Nat.le_sub_of_add_le' (hin id)⟩

theorem capacityOf_lt_modulus {e : Edge} {peak : Nat} {o : SizingOptions} (h : peak < Word.modulus) :
    capacityOf e peak r o < Word.modulus := by
  have hwanted : (if o.mode.isAsynchronous then withMargin (max peak (burst e r)) o.margin else peak) <
      Word.modulus := by
    split
    · exact Word.wrap_lt _
    · exact h
  unfold capacityOf
  cases o.limit with
  | none => exact hwanted
  | some limit => exact Nat.lt_of_le_of_lt (Nat.min_le_left _ _) hwanted

/-- However a period is sized, its capacities are machine words. -/
theorem Coherent.capacities_lt (hg : g.Coherent) (hr : r.Balances g) (h : g.IsPeriod r order)
    {o : SizingOptions} {capacities : List Nat} (hcapacities : g.capacities r order o = .ok capacities) :
    ∀ c ∈ capacities, c < Word.modulus := by
  obtain ⟨peaks, hpeaks, rfl, -⟩ := capacities_eq_ok_iff.mp hcapacities
  intro c hc
  obtain ⟨x, hx, rfl⟩ := List.mem_map.mp hc
  obtain ⟨id, hid⟩ := List.mem_iff_getElem?.mp (List.of_mem_zip hx).2
  apply capacityOf_lt_modulus
  calc
    x.2 = peaks[id]?.getD 0 := by rw [hid, Option.getD_some]
    _ ≤ g.written order id := (peaks_le_written hg hpeaks).2 id
    _ ≤ g.supply r id := written_le_supply (fun n ↦ (h.count n).le) id
    _ < Word.modulus := supply_lt_modulus hg hr id

/-- Sizing a fixed order without a limit never fails, and its capacities are machine words. -/
theorem Coherent.exists_capacities (hg : g.Coherent) (hr : r.Balances g) (h : g.IsPeriod r order)
    {o : SizingOptions} (hmode : o.mode = .static) (hlimit : o.limit = none) :
    ∃ capacities, g.capacities r order o = .ok capacities ∧
      ∀ c ∈ capacities, c < Word.modulus := by
  obtain ⟨peaks, hpeaks, hlength, hbound⟩ := exists_peaks hg h.along
  have hsizes := map_capacityOf_static (r := r) hmode hlength fun peak _ ↦
    SizingOptions.allows_of_limit_eq_none hlimit peak
  have hcapacities : g.capacities r order o = .ok peaks :=
    capacities_eq_ok_iff.mpr ⟨peaks, hpeaks, hsizes, hg.verify_peaks h hr hbound⟩
  exact ⟨peaks, hcapacities, hg.capacities_lt hr h hcapacities⟩

/-- The steps of a compilation that succeeds. -/
theorem exists_of_compile {o : CompileOptions} {p : Plan} (h : g.compile o = .ok p) :
    g.validate = .ok () ∧ g.solve = .ok p.repetitions ∧
      g.periodOrder p.repetitions o.maxPeriod.toNat = .ok p.order ∧
      g.capacities p.repetitions p.order o.sizing = .ok p.capacities ∧
      p.graph = g ∧ p.mode = o.mode := by
  obtain ⟨_, hvalidate, h⟩ := Fold.bind_eq_ok h
  obtain ⟨r, hsolve, h⟩ := Fold.bind_eq_ok h
  obtain ⟨order, horder, h⟩ := Fold.bind_eq_ok h
  obtain ⟨capacities, hcapacities, h⟩ := Fold.bind_eq_ok h
  cases h
  exact ⟨hvalidate, hsolve, horder, hcapacities, rfl, rfl⟩

theorem sound_of_compile (hg : g.Coherent) {o : CompileOptions} {p : Plan} (h : g.compile o = .ok p) :
    p.Sound ∧ p.order.length ≤ o.maxPeriod.toNat := by
  obtain ⟨hvalidate, hsolve, horder, hcapacities, rfl, -⟩ := exists_of_compile h
  have hv := validate_eq_ok_iff.mp hvalidate
  have hr := balances_of_solve hg (hv.flows hg) hsolve
  obtain ⟨hperiod, hlimit⟩ := isPeriod_of_periodOrder hg hv hr horder
  obtain ⟨peaks, hpeaks, hsizes, hverify⟩ := capacities_eq_ok_iff.mp hcapacities
  obtain ⟨hdelay, hcarries, -⟩ := hg.verify_eq_ok_iff.mp hverify
  simp only [Levels.of_toArray] at hdelay
  rw [funext (Levels.of_toArray _)] at hcarries
  refine ⟨⟨hg, hv, hr, hperiod, ?_, hdelay, ?_⟩, hlimit⟩
  · rw [← hsizes]
    simp [(peaks_le_written hg hpeaks).1]
  · exact hcarries.and_mem.mono fun n level ⟨hn, hguarded⟩ ↦ ⟨hperiod.lt_of_mem hr hn, hguarded⟩

theorem capacities_lt_of_compile (hg : g.Coherent) {o : CompileOptions} {p : Plan}
    (hmode : o.mode = .static) (hlimit : o.capacityLimit = none) (h : g.compile o = .ok p) :
    ∀ c ∈ p.capacities, c < Word.modulus := by
  obtain ⟨-, -, -, hcapacities, rfl, -⟩ := exists_of_compile h
  obtain ⟨hsound, -⟩ := sound_of_compile hg h
  obtain ⟨capacities, hcapacities', hlt⟩ :=
    hg.exists_capacities hsound.balances hsound.period (o := o.sizing) hmode hlimit
  cases Except.ok.inj (hcapacities.symm.trans hcapacities')
  exact hlt

end Graph

namespace Plan.Sound

variable {p : Plan}

/-- Every edge has room for a firing of its source. -/
theorem production_le_room (h : p.Sound) {id : EdgeId} {e : Edge}
    (he : p.graph.edges[id]? = some e) : e.rateAt .output ≤ p.room id := by
  have hmem := h.period.mem_of_lt h.balances (h.coherent.node_lt he .output)
  obtain ⟨v, u, hsplit⟩ := List.append_of_mem hmem
  have hcarries := h.carries
  rw [hsplit, Steps.along_append, Steps.along_cons] at hcarries
  have hready := (h.coherent.guarded_iff.mp hcarries.2.1.2).2 id
  rw [Graph.moved_of_getElem? he, Edge.moved, if_pos rfl] at hready
  exact hready.trans (Nat.sub_le _ _)

theorem room_pos (h : p.Sound) {id : EdgeId} (hid : id < p.graph.edges.length) : 0 < p.room id := by
  have he := List.getElem?_eq_getElem hid
  exact Nat.lt_of_lt_of_le (h.valid.rateAt_pos h.coherent he .output) (h.production_le_room he)

/-- A node with an edge to itself has its elements and its room there at the beginning, and each firing
gives back what it takes. -/
theorem loop (h : p.Sound) {id : EdgeId} {e : Edge} (he : p.graph.edges[id]? = some e)
    (hloop : e.source.node = e.target.node) :
    e.rateAt .output = e.rateAt .input ∧ e.rateAt .input ≤ p.graph.delay id ∧
      p.graph.delay id + e.rateAt .output ≤ p.room id := by
  have hn : e.source.node < p.graph.nodes.length := h.coherent.node_lt he .output
  have hsame : e.rateAt .output = e.rateAt .input :=
    Nat.eq_of_mul_eq_mul_right (h.balances.positive hn) (by
      have hbalance := h.balances.balance he
      rwa [← hloop] at hbalance)
  -- Nothing has moved over the edge when the node fires for the first time.
  obtain ⟨v, u, hsplit, hnew⟩ := List.eq_append_cons_of_mem (h.period.mem_of_lt h.balances hn)
  have hcarries := h.carries
  rw [hsplit, Steps.along_append, Steps.along_cons] at hcarries
  have hlevel : Steps.run p.graph.after v p.graph.delay id = p.graph.delay id := by
    have htokens := Graph.run_after_add (hcarries.1.mono fun _ _ hready ↦ hready.fed h.coherent) he
    have hnone : v.count e.source.node = 0 := List.count_eq_zero.mpr hnew
    rwa [← hloop, hnone, Nat.mul_zero, Nat.mul_zero] at htokens
  obtain ⟨hfed, hroom⟩ := h.coherent.guarded_iff.mp hcarries.2.1.2
  have hin := hfed id
  have hout := hroom id
  rw [Graph.moved_of_getElem? he, Edge.moved, Edge.portAt, if_pos hloop.symm, hlevel] at hin
  rw [Graph.moved_of_getElem? he, Edge.moved, Edge.portAt, if_pos rfl, hlevel] at hout
  have hdelay := h.delay_le id
  exact ⟨hsame, hin, by omega⟩

/-- A period can be run again and again. -/
theorem carries_replicate (h : p.Sound) (k : Nat) :
    Steps.Along (p.graph.Ready p.room) p.graph.after (List.replicate k p.order).flatten p.graph.delay ∧
      Steps.run p.graph.after (List.replicate k p.order).flatten p.graph.delay = p.graph.delay := by
  induction k with
  | zero => exact ⟨trivial, rfl⟩
  | succ k ih =>
    rw [List.replicate_succ, List.flatten_cons, Steps.along_append, Steps.run_append,
      h.period.run_eq h.balances]
    exact ⟨⟨h.carries, ih.1⟩, ih.2⟩

end Plan.Sound

end Dataflow
