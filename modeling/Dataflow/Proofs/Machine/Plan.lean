import Dataflow.Proofs.Engine.Periods
import Dataflow.Proofs.Machine.Balance
import Dataflow.Proofs.Machine.Period
import Dataflow.Proofs.Machine.Replay
import Dataflow.Proofs.Machine.Validity

/-!
# Plans in machine words

Compiling a graph for a fixed order needs no more than words, reads and writes only what is there and
never divides by zero. What each step relies on has been settled by the steps before it: validation
leaves no rate at zero, counts in balance keep every dependency within the firings of its source, and
the order of a period bounds what its replay adds up.
-/

namespace Dataflow.Machine

def capacities (g : Graph) (r : Repetitions) (order : List NodeId) (o : SizingOptions) :
    Computation (List Nat) := do
  let peaks ← peaks g order
  let capacities ← sizes g r o peaks
  verify g order capacities.toArray
  return capacities

def compile (g : Graph) (o : CompileOptions) : Computation Plan := do
  validate g
  let repetitions ← solve g
  let order ← periodOrder g repetitions o.maxPeriod.toNat
  let capacities ← capacities g repetitions order o.sizing
  return { mode := o.mode, graph := g, repetitions, order, capacities }

variable {g : Graph} {r : Repetitions}

/-- Sizing needs no more than words when the replay that notes the peaks does not, and each size is
one. -/
theorem capacities_eq (hg : g.Coherent) {order : List NodeId}
    (horder : ∀ n ∈ order, n < g.nodes.length) (hfits : ReplayFits g order) {o : SizingOptions}
    (hsize : ∀ peaks, g.peaks (g.guardsOf order) = .ok peaks → ∀ x ∈ g.edges.zip peaks,
      capacity r o x.1 x.2 = .ok (Graph.capacityOf x.1 x.2 r o) ∧
        Graph.capacityOf x.1 x.2 r o < Word.modulus) :
    capacities g r order o = of (g.capacities r order o) := by
  rw [capacities, Graph.capacities, peaks_eq hg horder hfits]
  cases hpeaks : g.peaks (g.guardsOf order) with
  | error e => rfl
  | ok peaks =>
    obtain ⟨hlength, -⟩ := Graph.peaks_le_written hg hpeaks
    change (sizes g r o peaks.toArray >>= fun capacities ↦ _) = _
    rw [sizes_eq hlength fun x hx ↦ (hsize peaks hpeaks x hx).1, ok_bind]
    refine bind_of (verify_eq hg horder (by simp [hlength]) fun id ↦ ?_) fun _ _ ↦ rfl
    rw [Levels.of_toArray]
    cases hid : ((g.edges.zip peaks).map fun x ↦ Graph.capacityOf x.1 x.2 r o)[id]? with
    | none => decide
    | some size =>
      obtain ⟨x, hmem, rfl⟩ := List.mem_map.mp (List.mem_of_getElem? hid)
      exact (hsize peaks hpeaks x hmem).2

/-- In a fixed order the sizes are peaks, and these are words with all that is written. -/
theorem capacities_eq_of_static (hg : g.Coherent) {order : List NodeId}
    (horder : ∀ n ∈ order, n < g.nodes.length) (hfits : ∀ id, g.written order id < Word.modulus)
    {o : SizingOptions} (hmode : o.mode = .static) :
    capacities g r order o = of (g.capacities r order o) := by
  refine capacities_eq hg horder (replayFits_of_written hg hfits) fun peaks hpeaks x hx ↦ ⟨capacity_eq hmode x.1 x.2, ?_⟩
  obtain ⟨id, hid⟩ := List.mem_iff_getElem?.mp (List.of_mem_zip hx).2
  calc
    Graph.capacityOf x.1 x.2 r o = o.cut x.2 := Graph.capacityOf_static hmode x.1 x.2
    _ ≤ x.2 := o.cut_le x.2
    _ = peaks[id]?.getD 0 := by rw [hid, Option.getD_some]
    _ ≤ g.written order id := (Graph.peaks_le_written hg hpeaks).2 id
    _ < Word.modulus := hfits id

theorem compile_eq (hg : g.Coherent) (hnodes : g.nodes.length < 2147483648)
    (hedges : g.edges.length < 2147483648) {o : CompileOptions} (hmode : o.mode = .static) :
    compile g o = of (g.compile o) := by
  refine bind_of (validate_eq hg) fun _ hvalidate ↦ ?_
  have hv := Graph.validate_eq_ok_iff.mp hvalidate
  refine bind_of (solve_eq hg (hv.flows hg)) fun r hsolve ↦ ?_
  have hr := Graph.balances_of_solve hg (hv.flows hg) hsolve
  have htotal := total_lt_modulus hr hnodes
  refine bind_of (periodOrder_eq hg hv hr htotal hnodes hedges _) fun order horder ↦ ?_
  have hperiod := (Graph.isPeriod_of_periodOrder hg hv hr horder).1
  have hfits (id : EdgeId) : g.written order id < Word.modulus :=
    Nat.lt_of_le_of_lt (Graph.written_le_supply (fun n ↦ (hperiod.count n).le) id)
      (Graph.supply_lt_modulus hg hr id)
  exact bind_of (capacities_eq_of_static hg (fun n ↦ hperiod.lt_of_mem hr) hfits hmode) fun _ _ ↦ rfl

/-- Compiling a graph that was built by adding nodes and edges comes to no fault, and says what it says
with numbers of any size. The firing that a dependency of a balanced graph goes back to is always one of
its source. -/
theorem compile_without_fault (hg : g.Built) (hnodes : g.nodes.length < 2147483648)
    (hedges : g.edges.length < 2147483648) {o : CompileOptions} (hmode : o.mode = .static) :
    compile g o = of (g.compile o) ∧ (∀ f, compile g o ≠ stop f) ∧
      ∀ r, g.validate = .ok () → g.solve = .ok r →
        ∀ (id : EdgeId) (e : Edge), g.edges[id]? = some e → ∀ j < r.get e.target.node,
          e.delay.toNat < (j + 1) * e.consumption.toNat →
            ((j + 1) * e.consumption.toNat - 1 - e.delay.toNat) / e.production.toNat <
              r.get e.source.node := by
  have hcoherent := hg.coherent
  have hcompile := compile_eq hcoherent hnodes hedges hmode
  refine ⟨hcompile, fun f hfault ↦ ?_, fun r hvalidate hsolve id e he j hj hlast ↦ ?_⟩
  · rw [hcompile] at hfault
    cases hresult : g.compile o with
    | error error =>
      rw [hresult] at hfault
      cases hfault
    | ok p =>
      rw [hresult] at hfault
      cases hfault
  · have hv := Graph.validate_eq_ok_iff.mp hvalidate
    exact (Graph.balances_of_solve hcoherent (hv.flows hcoherent) hsolve).producer_lt hcoherent hv he hj hlast

/-- A loop and two rates, with a limit that just lets the period pass. The third firing of the sink goes
back to the second one of the source. -/
theorem looped_compile :
    compile Looped.graph ⟨.static, 0, some 7, 100⟩ = .ok (Looped.plan .static [7, 2]) ∧
      ((2 + 1) * 2 - 1 - 1) / 3 < Repetitions.get ⟨[2, 3]⟩ 0 := by
  obtain ⟨hcompile, -, hproducer⟩ := compile_without_fault Looped.built_graph (by decide) (by decide)
    (o := ⟨.static, 0, some 7, 100⟩) rfl
  refine ⟨by rw [hcompile, Looped.compile_graph]; rfl, ?_⟩
  exact hproducer ⟨[2, 3]⟩ (by decide +kernel) (by decide +kernel) 0 _ rfl 2 (by decide) (by decide)

end Dataflow.Machine
