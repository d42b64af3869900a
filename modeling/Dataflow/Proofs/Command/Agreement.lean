import Dataflow.Command.Run
import Dataflow.Proofs.Schedule.Plan

/-!
# Agreement of the commands

The command that checks a description takes the first steps of the one that compiles it. In a fixed
order and without a limit the last step, sizing the queues, always succeeds, so both commands accept the
same descriptions, count the same firings, and stop at the same error otherwise.
-/

namespace Dataflow

/-! ## Graphs of descriptions -/

namespace Description

theorem built_of_addNode {d : Description} {g g' : Graph} {n : NodeDecl} (hg : g.Built)
    (h : d.addNode g n = .ok g') : g'.Built := by
  unfold addNode at h
  split at h
  · cases h
  · obtain ⟨spec, -, h⟩ := Fold.bind_eq_ok h
    cases h
    exact hg.addNode spec

theorem built_of_addEdge {g g' : Graph} {e : EdgeDecl} (hg : g.Built) (h : addEdge g e = .ok g') :
    g'.Built := by
  obtain ⟨⟨source, outSlot⟩, -, h⟩ := Fold.bind_eq_ok h
  obtain ⟨⟨target, inSlot⟩, -, h⟩ := Fold.bind_eq_ok h
  cases hconnect : g.connect (.out source outSlot) (.into target inSlot) e.delay with
  | error error => simp [hconnect, throw, throwThe, MonadExceptOf.throw] at h
  | ok joined =>
    obtain ⟨id, joined⟩ := joined
    simp only [hconnect] at h
    cases h
    exact hg.connect hconnect

/-- The graph of a description is made by `addNode` and `connect`. -/
theorem built_of_toGraph {d : Description} {g : Graph} (h : d.toGraph = .ok g) : g.Built := by
  obtain ⟨nodes, hnodes, hedges⟩ := Fold.bind_eq_ok h
  have hbuilt : nodes.Built := Fold.foldlM_ok_induction (P := fun _ g ↦ g.Built) hnodes .empty
    fun _ _ _ _ _ hg ↦ built_of_addNode hg
  exact Fold.foldlM_ok_induction (P := fun _ g ↦ g.Built) hedges hbuilt
    fun _ _ _ _ _ hg ↦ built_of_addEdge hg

end Description

/-! ## The steps of a check -/

namespace Command

/-- Where a check can end before there is an order. -/
inductive Obstacle where
  | network (error : DescriptionError)
  | validity (error : GraphError)
  | balance (error : GraphError)
  | period (error : GraphError)
  deriving DecidableEq, Repr

namespace Obstacle

/-- The error that lies under it. -/
def error : Obstacle → DescriptionError
  | network e => e
  | validity e | balance e | period e => .graph e

/-- What the command says about it. -/
def chain : Obstacle → List String
  | network e => e.chain
  | validity e => ["invalid graph", e.message]
  | balance e => ["rates are not balanced", e.message]
  | period e => ["no periodic schedule", e.message]

end Obstacle

/-- The graph of a description, its firing counts and the order of a period. -/
def check (d : Description) : Except Obstacle (Graph × Repetitions × List NodeId) := do
  let g ← d.toGraph.mapError .network
  g.validate.mapError .validity
  let r ← g.solve.mapError .balance
  let order ← (g.periodOrder r d.maxPeriod.toNat).mapError .period
  return (g, r, order)

/-- What the command prints when there is an order. -/
def approval (d : Description) (g : Graph) (order : List NodeId) : String :=
  "OK: '" ++ d.name ++ "' has " ++ Decimal.text g.nodes.length ++ " nodes, "
    ++ Decimal.text g.edges.length ++ " edges, " ++ Decimal.text order.length
    ++ " activations per period\n"

theorem validateDescription_eq (d : Description) :
    validateDescription d =
      match check d with
      | .ok (g, _, order) => .ok (approval d g order)
      | .error o => .error o.chain := by
  unfold validateDescription check
  cases d.toGraph with
  | error e => rfl
  | ok g =>
    cases hvalidate : g.validate with
    | error e => simp [cause, graphCause, hvalidate, bind, Except.bind, Except.mapError, Obstacle.chain]
    | ok _ =>
      cases hsolve : g.solve with
      | error e =>
        simp [cause, graphCause, hvalidate, hsolve, bind, Except.bind, Except.mapError, Obstacle.chain]
      | ok r =>
        cases horder : g.periodOrder r d.maxPeriod.toNat <;>
          simp [cause, graphCause, hvalidate, hsolve, horder, bind, Except.bind, Except.mapError,
            Obstacle.chain, approval, pure, Except.pure]

end Command

/-! ## Compiling without a limit -/

/-- The steps from a graph to the order of a period. -/
def Graph.period (g : Graph) (limit : Nat) : Except GraphError (Graph × Repetitions × List NodeId) := do
  g.validate
  let r ← g.solve
  let order ← g.periodOrder r limit
  return (g, r, order)

/-- In a fixed order and without a limit, a graph compiles when there is an order of a period, and
ends in the same error when there is none. -/
theorem Graph.Coherent.compile_eq {g : Graph} (hg : g.Coherent) {o : CompileOptions}
    (hmode : o.mode = .static) (hlimit : o.capacityLimit = none) :
    (g.compile o).map (fun p ↦ (p.graph, p.repetitions, p.order)) = g.period o.maxPeriod.toNat := by
  unfold compile period
  cases hvalidate : g.validate with
  | error e => rfl
  | ok _ =>
    have hv := validate_eq_ok_iff.mp hvalidate
    cases hsolve : g.solve with
    | error e => rfl
    | ok r =>
      have hr := balances_of_solve hg (hv.flows hg) hsolve
      cases horder : g.periodOrder r o.maxPeriod.toNat with
      | error e =>
        simp only [bind, Except.bind, horder]
        rfl
      | ok order =>
        have hperiod := (isPeriod_of_periodOrder hg hv hr horder).1
        obtain ⟨capacities, hcapacities, -⟩ :=
          hg.exists_capacities hr hperiod (o := o.sizing) hmode hlimit
        simp only [bind, Except.bind, horder, hcapacities]
        rfl

namespace Description

/-- The error under an obstacle is that of the step that met it. -/
theorem mapError_check (d : Description) :
    (Command.check d).mapError Command.Obstacle.error =
      d.toGraph >>= fun g ↦ (g.period d.maxPeriod.toNat).mapError .graph := by
  unfold Command.check Graph.period
  cases d.toGraph with
  | error e => rfl
  | ok g =>
    simp only [bind, Except.bind, Except.mapError]
    cases g.validate with
    | error e => rfl
    | ok _ =>
      cases g.solve with
      | error e => rfl
      | ok r =>
        dsimp only
        cases g.periodOrder r d.maxPeriod.toNat <;> rfl

/-- Compiling ends where the check ends. -/
theorem map_compile {d : Description} (hmode : d.mode = .static) (hlimit : d.capacityLimit = none) :
    d.compile.map (fun p ↦ (p.graph, p.repetitions, p.order)) =
      (Command.check d).mapError Command.Obstacle.error := by
  rw [mapError_check]
  unfold compile
  cases hgraph : d.toGraph with
  | error e => rfl
  | ok g =>
    have hcompile := (built_of_toGraph hgraph).coherent.compile_eq (o := d.options) hmode hlimit
    have hmax : d.options.maxPeriod = d.maxPeriod := rfl
    simp only [bind, Except.bind, ← hmax, ← hcompile]
    cases g.compile d.options <;> rfl

theorem exists_of_compile {d : Description} {p : Plan} (h : d.compile = .ok p) :
    ∃ g, d.toGraph = .ok g ∧ g.compile d.options = .ok p := by
  unfold compile at h
  obtain ⟨g, hgraph, h⟩ := Fold.bind_eq_ok h
  cases hcompile : g.compile d.options with
  | error e => simp [hcompile, throw, throwThe, MonadExceptOf.throw] at h
  | ok p' =>
    simp only [hcompile] at h
    cases h
    exact ⟨g, hgraph, hcompile⟩

/-- The description with a fixed order of firings. -/
def inFixedOrder (d : Description) : Description := { d with mode := .static }

end Description

/-! ## Errors of the single steps -/

/-- The error of a queue that is too small for the order. -/
def GraphError.IsUnsatisfiable : GraphError → Prop
  | .unsatisfiable .. => True
  | _ => False

theorem not_isUnsatisfiable_of_mem_faults {s : Socket} {port : PortRef} {e : GraphError}
    (h : e ∈ s.faults port) : ¬ e.IsUnsatisfiable := by
  simp only [Socket.faults, List.mem_append, List.mem_ite_nil_right, List.mem_singleton] at h
  rcases h with ⟨-, rfl⟩ | ⟨-, rfl⟩ <;> exact id

namespace Graph

variable {g : Graph} {e : GraphError}

theorem not_isUnsatisfiable_of_validate (h : g.validate = .error e) : ¬ e.IsUnsatisfiable := by
  have hmem : e ∈ g.faults := by
    unfold validate at h
    cases hfaults : g.faults with
    | nil => simp [hfaults] at h
    | cons fault rest =>
      simp only [hfaults] at h
      cases h
      exact List.mem_cons_self
  simp only [faults, Node.faults, List.mem_append, List.mem_flatMap] at hmem
  rcases hmem with (hempty | ⟨_, -, ⟨_, -, hport⟩ | ⟨_, -, hport⟩⟩) | ⟨⟨edge, id⟩, -, hedge⟩
  · simp only [List.mem_ite_nil_right, List.mem_singleton] at hempty
    exact hempty.2 ▸ id
  · exact not_isUnsatisfiable_of_mem_faults hport
  · exact not_isUnsatisfiable_of_mem_faults hport
  · simp only [edgeFaults] at hedge
    split at hedge
    · simp at hedge
    · split at hedge
      · simp at hedge
      · exact List.mem_singleton.mp hedge ▸ fun h ↦ h

theorem not_isUnsatisfiable_of_solve (h : g.solve = .error e) : ¬ e.IsUnsatisfiable := by
  rcases isOfRates_of_solve h with ⟨_, rfl⟩ | ⟨_, rfl⟩ <;> exact id

theorem not_isUnsatisfiable_of_periodOrder {r : Repetitions} {limit : Nat}
    (h : g.periodOrder r limit = .error e) : ¬ e.IsUnsatisfiable := by
  unfold periodOrder at h
  split at h
  · cases h
    exact fun h ↦ h
  · simp only at h
    split at h <;> cases h
    exact fun h ↦ h

theorem not_isUnsatisfiable_of_period {limit : Nat} (h : g.period limit = .error e) :
    ¬ e.IsUnsatisfiable := by
  rcases Fold.bind_eq_error h with hvalidate | ⟨_, -, h⟩
  · exact not_isUnsatisfiable_of_validate hvalidate
  rcases Fold.bind_eq_error h with hsolve | ⟨r, -, h⟩
  · exact not_isUnsatisfiable_of_solve hsolve
  rcases Fold.bind_eq_error h with horder | ⟨order, -, h⟩
  · exact not_isUnsatisfiable_of_periodOrder horder
  · cases h

theorem not_isUnsatisfiable_of_connect {source target : PortRef} {delay : UInt32}
    (h : g.connect source target delay = .error e) : ¬ e.IsUnsatisfiable := by
  have hsocket {p : PortRef} {e' : GraphError} (h : g.socketAt p = .error e') :
      ¬ e'.IsUnsatisfiable := by
    unfold socketAt at h
    split at h
    · cases h
      exact fun h ↦ h
    · split at h <;> cases h
      exact fun h ↦ h
  unfold connect at h
  simp only [throw, throwThe, MonadExceptOf.throw] at h
  split at h
  · cases h
    exact fun h ↦ h
  · split at h
    · cases h
      exact fun h ↦ h
    · rcases Fold.bind_eq_error h with hout | ⟨outlet, -, h⟩
      · exact hsocket hout
      rcases Fold.bind_eq_error h with hin | ⟨inlet, -, h⟩
      · exact hsocket hin
      split at h
      · cases h
        exact fun h ↦ h
      · split at h
        · cases h
          exact fun h ↦ h
        · cases h

end Graph

namespace Description

variable {d : Description} {e : DescriptionError}

theorem exists_of_port {node : String} {port : PortDecl} (h : d.port node port = .error e) :
    ∃ type, e = .unknownType node type := by
  unfold Description.port at h
  split at h <;> cases h
  exact ⟨_, rfl⟩

theorem ne_graph_of_addNode {g : Graph} {n : NodeDecl} (h : d.addNode g n = .error e)
    (error : GraphError) : e ≠ .graph error := by
  unfold addNode at h
  split at h
  · cases h
    exact nofun
  · rcases Fold.bind_eq_error h with hspec | ⟨spec, -, h⟩
    · rcases Fold.bind_eq_error hspec with hin | ⟨inputs, -, hspec⟩
      · obtain ⟨port, hport⟩ := Fold.exists_of_mapM_eq_error hin
        obtain ⟨type, rfl⟩ := exists_of_port hport
        exact nofun
      rcases Fold.bind_eq_error hspec with hout | ⟨outputs, -, hspec⟩
      · obtain ⟨port, hport⟩ := Fold.exists_of_mapM_eq_error hout
        obtain ⟨type, rfl⟩ := exists_of_port hport
        exact nofun
      · cases hspec
    · cases h

theorem ne_graph_of_resolve {g : Graph} {text : String} (h : g.resolve text = .error e)
    (error : GraphError) : e ≠ .graph error := by
  unfold Graph.resolve at h
  split at h
  · cases h
    exact nofun
  · split at h
    · cases h
      exact nofun
    · split at h <;> cases h
      exact nofun

theorem not_isUnsatisfiable_of_toGraph {error : GraphError} (h : d.toGraph = .error (.graph error)) :
    ¬ error.IsUnsatisfiable := by
  rcases Fold.bind_eq_error h with hnodes | ⟨nodes, -, hedges⟩
  · obtain ⟨g, n, hnode⟩ := Fold.exists_of_foldlM_eq_error hnodes
    exact absurd rfl (ne_graph_of_addNode hnode error)
  obtain ⟨g, edge, hedge⟩ := Fold.exists_of_foldlM_eq_error hedges
  rcases Fold.bind_eq_error hedge with hsource | ⟨⟨source, outSlot⟩, -, hedge⟩
  · exact absurd rfl (ne_graph_of_resolve hsource error)
  rcases Fold.bind_eq_error hedge with htarget | ⟨⟨target, inSlot⟩, -, hedge⟩
  · exact absurd rfl (ne_graph_of_resolve htarget error)
  cases hconnect : g.connect (.out source outSlot) (.into target inSlot) edge.delay with
  | ok joined =>
    simp only [hconnect] at hedge
    cases hedge
  | error error' =>
    simp only [hconnect, throw, throwThe, MonadExceptOf.throw] at hedge
    cases hedge
    exact Graph.not_isUnsatisfiable_of_connect hconnect

/-- No step of a check runs into a queue that is too small. -/
theorem not_isUnsatisfiable_of_check {o : Command.Obstacle} {error : GraphError}
    (h : Command.check d = .error o) (herror : o.error = .graph error) :
    ¬ error.IsUnsatisfiable := by
  have hmap := d.mapError_check
  rw [h] at hmap
  rcases Fold.bind_eq_error hmap.symm with hgraph | ⟨g, -, hperiod⟩
  · exact not_isUnsatisfiable_of_toGraph (herror ▸ hgraph)
  · cases hsteps : g.period d.maxPeriod.toNat with
    | ok result =>
      rw [hsteps] at hperiod
      cases hperiod
    | error error' =>
      rw [hsteps, herror] at hperiod
      cases hperiod
      exact Graph.not_isUnsatisfiable_of_period hsteps

/-- The report tells the number of firings of the period. -/
theorem activations_ofPlan {p : Plan} (h : d.compile = .ok p) (name : String) :
    (Report.ofPlan name p).activations.toNat = p.order.length := by
  obtain ⟨g, hgraph, hcompile⟩ := exists_of_compile h
  obtain ⟨hsound, hlength⟩ := Graph.sound_of_compile (built_of_toGraph hgraph).coherent hcompile
  have hlt : p.order.length < 2 ^ 64 := Nat.lt_of_le_of_lt hlength d.options.maxPeriod.toNat_lt
  have htotal : (Report.ofPlan name p).activations.toNat = p.repetitions.total % 2 ^ 64 :=
    UInt64.toNat_ofNat
  rw [htotal, ← hsound.period.length_eq, Nat.mod_eq_of_lt hlt]

/-- What the command that compiles says about a description without a limit in a fixed order. -/
theorem scheduleDescription_eq {d : Description} {args : Command.ScheduleArgs}
    (hmode : args.mode = some .static) (hargs : args.capacityLimit = none)
    (hlimit : d.capacityLimit = none) :
    match Command.check d with
    | .ok (g, r, order) => ∃ p : Plan, p.graph = g ∧ p.repetitions = r ∧ p.order = order ∧
        Command.scheduleDescription args d = Command.render args.format (Report.ofPlan d.name p)
    | .error o => Command.scheduleDescription args d =
        .error (("compiling '" ++ d.name ++ "'") :: o.error.chain) := by
  have hcompile : _ = (Command.check d).mapError _ := map_compile (d := Command.override args d)
    (by rw [Command.override, hmode]; rfl) (by rw [Command.override, hargs]; exact hlimit)
  unfold Command.scheduleDescription
  cases hplan : (Command.override args d).compile with
  | error e =>
    rw [hplan] at hcompile
    cases hcheck : Command.check d with
    | ok result =>
      rw [hcheck] at hcompile
      cases hcompile
    | error o =>
      rw [hcheck] at hcompile
      cases hcompile
      simp only [hplan]
      rfl
  | ok p =>
    rw [hplan] at hcompile
    cases hcheck : Command.check d with
    | ok result =>
      rw [hcheck] at hcompile
      cases hcompile
      refine ⟨p, rfl, rfl, rfl, ?_⟩
      simp only [hplan]
      rfl
    | error o =>
      rw [hcheck] at hcompile
      cases hcompile

/-- Without a limit, a description compiles for a fixed order when it passes the check, with the same
graph, counts and order, and the report tells as many firings as the check. Otherwise both commands end
in the same error, which is never that of a queue too small for the order. No capacity exceeds a
word. -/
theorem inFixedOrder_compile_agrees (d : Description) (hlimit : d.capacityLimit = none) :
    d.inFixedOrder.compile.map (fun p ↦ (p.graph, p.repetitions, p.order)) =
        (Command.check d).mapError Command.Obstacle.error ∧
      (Command.validateDescription d =
        match Command.check d with
        | .ok (g, _, order) => .ok (Command.approval d g order)
        | .error o => .error o.chain) ∧
      (∀ args : Command.ScheduleArgs, args.mode = some .static → args.capacityLimit = none →
        match Command.check d with
        | .ok (g, r, order) => ∃ p : Plan, p.graph = g ∧ p.repetitions = r ∧ p.order = order ∧
            Command.scheduleDescription args d = Command.render args.format (Report.ofPlan d.name p)
        | .error o => Command.scheduleDescription args d =
            .error (("compiling '" ++ d.name ++ "'") :: o.error.chain)) ∧
      (∀ p, d.inFixedOrder.compile = .ok p →
        (Report.ofPlan d.name p).activations.toNat = p.order.length ∧
          ∀ c ∈ p.capacities, c < Word.modulus) ∧
      ∀ id n, d.inFixedOrder.compile ≠ .error (.graph (.unsatisfiable id n)) := by
  have hcompile : _ = (Command.check d).mapError _ := map_compile (d := d.inFixedOrder) rfl hlimit
  refine ⟨hcompile, Command.validateDescription_eq d,
    fun args hmode hargs ↦ scheduleDescription_eq hmode hargs hlimit,
    fun p hp ↦ ⟨activations_ofPlan hp d.name, ?_⟩, fun id n hn ↦ ?_⟩
  · obtain ⟨g, hgraph, hplan⟩ := exists_of_compile hp
    exact Graph.capacities_lt_of_compile (built_of_toGraph hgraph).coherent rfl hlimit hplan
  · rw [hn] at hcompile
    cases hobstacle : Command.check d with
    | ok result =>
      rw [hobstacle] at hcompile
      cases hcompile
    | error o =>
      rw [hobstacle] at hcompile
      have herror : o.error = .graph (.unsatisfiable id n) := (Except.error.inj hcompile).symm
      exact not_isUnsatisfiable_of_check hobstacle herror trivial

/-- Two nodes on one edge; the second fires three times for two firings of the first. -/
def pair : Description :=
  { Description.new "pair" with
    types := .ofList [("f32", 4)]
    nodes := [⟨"a", none, [], [⟨"f32", 3⟩]⟩, ⟨"b", none, [⟨"f32", 2⟩], []⟩]
    edges := [⟨"a.0", "b.0", 1⟩] }

theorem pair_compile_agrees : pair.capacityLimit = none ∧
    Command.validateDescription pair =
      .ok "OK: 'pair' has 2 nodes, 1 edges, 5 activations per period\n" ∧
    pair.inFixedOrder.compile.map (fun p ↦ (p.graph, p.repetitions, p.order)) =
      (Command.check pair).mapError Command.Obstacle.error :=
  ⟨rfl, by decide +kernel, (inFixedOrder_compile_agrees pair rfl).1⟩

end Description

end Dataflow
