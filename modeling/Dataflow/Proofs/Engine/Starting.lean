import Dataflow.Proofs.Engine.Events
import Dataflow.Proofs.Engine.Offers
import Dataflow.Proofs.Engine.Periods

/-!
# Nodes that start

No node is started before everything is bound. Then they are started one after another, each once, until one
of them refuses. So of a host that makes an engine in whatever way it can be said which error it gets, and
which nodes have been started by then.
-/

namespace Dataflow

variable {κ : Type} [ElementKind κ] {σ ω η : Type}

namespace Binding

/-! ## Watched nodes -/

section Watched

variable (note : Event → η → η)

/-- The binding, whose nodes and observers are watched. -/
def watched (b : Binding κ σ ω) : Binding κ σ (ω × η) where
  plan := b.plan
  nodes := b.nodes.mapIdx fun n slot ↦ slot.map (Instance.watched note n)
  channels := b.channels
  hooks := b.hooks.watched note
  stop := b.stop
  fault := b.fault

/-- The events when nodes start, the first of which is number `first`. -/
def startEvents (first : NodeId) : List (Instance κ σ ω) → World ω → List Event
  | [], _ => []
  | i :: rest, w =>
    match i.behaviour.init (i.memory, w) with
    | (.error e, _, _) => [.started first (.error e)]
    | (.ok (), _, w) => .started first (.ok ()) :: startEvents (first + 1) rest w

theorem init_watched {i : Instance κ σ ω} {w w' : World ω} {answer : Except NodeError Unit} {memory : σ}
    (h : i.behaviour.init (i.memory, w) = (answer, memory, w')) (n : NodeId) (notes : η) :
    (i.watched note n).behaviour.init ((i.watched note n).memory, w.withNotes notes) =
      (answer, memory, w'.withNotes (note (.started n answer) notes)) := by
  have hnoted := congrArg (fun r : Except NodeError Unit × σ × World ω ↦
    (r.1, r.2.1, r.2.2.withNotes (note (.started n r.1) notes))) h
  exact hnoted

theorem initNodes_watched (first : NodeId) (nodes : List (Instance κ σ ω)) (w : World ω) (notes : η) :
    initNodes first (nodes.mapIdx fun n ↦ Instance.watched note (first + n)) (w.withNotes notes) =
      ((initNodes first nodes w).1.map (·.mapIdx fun n ↦ Instance.watched note (first + n)),
        (initNodes first nodes w).2.withNotes (noteAll note (startEvents first nodes w) notes)) := by
  induction nodes generalizing first w notes with
  | nil => rfl
  | cons i rest ih =>
    have hrest : (fun n ↦ Instance.watched (κ := κ) (σ := σ) (ω := ω) note (first + (n + 1))) =
        fun n ↦ Instance.watched note (first + 1 + n) := by
      funext n
      rw [Nat.add_right_comm, Nat.add_assoc]
    rcases hinit : i.behaviour.init (i.memory, w) with ⟨answer, memory, w'⟩
    have hwatched := init_watched note hinit first notes
    rw [List.mapIdx_cons, hrest, Nat.add_zero]
    unfold initNodes startEvents
    rw [hwatched, hinit]
    cases answer with
    | error e => rfl
    | ok _ =>
      dsimp only
      rw [ih]
      rcases initNodes (first + 1) rest w' with ⟨_ | started, w''⟩
      · rfl
      · dsimp only [Except.map]
        rw [List.mapIdx_cons, hrest]
        rfl

end Watched

/-- The nodes start in their order, each once and with success, until there are no more or one refuses. -/
theorem startEvents_cases (first : NodeId) (nodes : List (Instance κ σ ω)) (w : World ω) :
    match (initNodes first nodes w).1 with
    | .ok _ => startEvents first nodes w = (List.range' first nodes.length).map (.started · (.ok ()))
    | .error e => ∃ n error, n < nodes.length ∧ e = .nodeInit (first + n) error.code ∧
      startEvents first nodes w =
        (List.range' first n).map (.started · (.ok ())) ++ [.started (first + n) (.error error)] := by
  induction nodes generalizing first w with
  | nil => rfl
  | cons i rest ih =>
    unfold initNodes startEvents
    rcases i.behaviour.init (i.memory, w) with ⟨error | _, memory, w'⟩
    · exact ⟨0, error, Nat.succ_pos _, rfl, rfl⟩
    · have hrest := ih (first + 1) w'
      dsimp only
      rcases hresult : initNodes (first + 1) rest w' with ⟨e | started, w''⟩ <;> rw [hresult] at hrest
      · obtain ⟨n, error, hn, rfl, hevents⟩ := hrest
        refine ⟨n + 1, error, Nat.succ_lt_succ hn, by rw [Nat.add_right_comm, Nat.add_assoc], ?_⟩
        rw [hevents, List.range'_succ, Nat.add_right_comm, Nat.add_assoc]
        rfl
      · have hevents : startEvents (first + 1) rest w' = _ := hrest
        dsimp only
        rw [hevents, List.length_cons, List.range'_succ]
        rfl

/-! ## Engines that are made -/

variable {p : Plan} {b : Binding κ σ ω}

/-- All that the nodes and the observers see while an engine is made of a binding. -/
def buildEvents (b : Binding κ σ ω) (w : World ω) : List Event :=
  ((b.watched fun event events ↦ events ++ [event]).build (w.withNotes [])).2.host.2

theorem missing_watched (note : Event → η → η) (b : Binding κ σ ω) :
    (b.watched note).missing = b.missing := by
  have hslots : (b.watched note).nodes.map (·.isNone) = b.nodes.map (·.isNone) := by
    refine List.ext_getElem? fun n ↦ ?_
    rw [List.getElem?_map, List.getElem?_map, watched, List.getElem?_mapIdx, Option.map_map]
    congr 1
    funext slot
    cases slot <;> rfl
  have hnodes : (b.watched note).nodes.findIdx? (·.isNone) = b.nodes.findIdx? (·.isNone) := by
    have hfind := congrArg (List.findIdx? id) hslots
    rwa [List.findIdx?_map, List.findIdx?_map] at hfind
  rw [missing, hnodes]
  rfl

theorem build_of_some {e : BindError} (h : (b.fault.orElse fun _ ↦ b.missing) = some e) (w : World ω) :
    b.build w = (.error e, w) := by
  rw [build, h]

/-- A binding that is refused starts no node. -/
theorem buildEvents_of_some {e : BindError} (h : (b.fault.orElse fun _ ↦ b.missing) = some e)
    (w : World ω) : b.buildEvents w = [] := by
  have hwatched : ((b.watched fun event events ↦ events ++ [event]).fault.orElse fun _ ↦
      (b.watched fun event events ↦ events ++ [event]).missing) = some e := by
    rw [missing_watched]
    exact h
  rw [buildEvents, build_of_some hwatched]
  rfl

/-- A binding that is not refused starts its nodes, and they decide. -/
theorem exists_of_none (h : (b.fault.orElse fun _ ↦ b.missing) = none) (w : World ω) :
    ∃ nodes : List (Instance κ σ ω), nodes.length = b.nodes.length ∧
      (b.build w).1.map (fun _ ↦ ()) = (initNodes 0 nodes w).1.map (fun _ ↦ ()) ∧
      b.buildEvents w = startEvents 0 nodes w := by
  obtain ⟨hfault, hmissing⟩ : b.fault = none ∧ b.missing = none := by
    cases hfault : b.fault with
    | some e => rw [hfault] at h; cases h
    | none => exact ⟨rfl, by rwa [hfault] at h⟩
  obtain ⟨nodes, channels, hnodes, hchannels⟩ := exists_of_missing_eq_none hmissing
  refine ⟨nodes, by rw [hnodes, List.length_map], ?_, ?_⟩
  · rw [build_of_bound hfault hnodes hchannels]
    rcases initNodes 0 nodes w with ⟨e | started, w'⟩ <;> rfl
  · have hwatched : (b.watched fun event events ↦ events ++ [event]).nodes =
        (nodes.mapIdx fun n ↦ Instance.watched (fun event events ↦ events ++ [event]) (0 + n)).map some := by
      refine List.ext_getElem? fun n ↦ ?_
      rw [watched, List.getElem?_mapIdx, hnodes, List.getElem?_map, List.getElem?_map, List.getElem?_mapIdx,
        Option.map_map, Option.map_map, Nat.zero_add]
      rfl
    rw [buildEvents, build_of_bound (b := b.watched _) hfault hwatched hchannels, initNodes_watched]
    have hnotes := Session.noteAll_traced [] (startEvents 0 nodes w)
    rcases initNodes 0 nodes w with ⟨e | started, w'⟩ <;> exact hnotes

/-- All nodes have started, or those before the one that is reported. -/
theorem build_of_none (h : (b.fault.orElse fun _ ↦ b.missing) = none) (w : World ω) :
    match (b.build w).1 with
    | .ok _ => b.buildEvents w = (List.range b.nodes.length).map (.started · (.ok ()))
    | .error e => ∃ n error, n < b.nodes.length ∧ e = .nodeInit n error.code ∧
      b.buildEvents w = (List.range n).map (.started · (.ok ())) ++ [.started n (.error error)] := by
  obtain ⟨nodes, hlength, hresult, hevents⟩ := exists_of_none h w
  have hstarted := startEvents_cases 0 nodes w
  rw [← List.range_eq_range', hlength] at hstarted
  rw [hevents]
  rcases hmade : (b.build w).1 with e | e <;> rcases hinit : (initNodes 0 nodes w).1 with e' | started <;>
    rw [hmade, hinit] at hresult <;> rw [hinit] at hstarted
  · obtain ⟨n, error, hn, rfl, hupto⟩ := hstarted
    cases hresult
    rw [Nat.zero_add, ← List.range_eq_range'] at hupto
    exact ⟨n, error, hn, by rw [Nat.zero_add], hupto⟩
  · cases hresult
  · cases hresult
  · exact hstarted

/-- Whatever a host calls, it gets an engine exactly if its calls, taken one by one, are exact and every node
starts. Otherwise its first mistake is reported, or the first node that is missing, or the first edge, and no
node has been started by then. Where nothing of this is to report the nodes are started in their order, once
each, up to the first that refuses, which is reported then. -/
theorem build_ofOffers {g : Graph} (hb : g.Built) {o : CompileOptions} (hp : g.compile o = .ok p)
    (stop : StopToken) (offers : List (Offer κ σ ω)) (w : World ω) :
    let calls := p.single [] offers
    let made := (ofOffers p stop offers).build w
    let events := (ofOffers p stop offers).buildEvents w
    ((∃ e, made.1 = .ok e) ↔ Exact p calls ∧ ∀ n error, .started n (.error error) ∉ events) ∧
    match (p.firstOffence [] calls).or (p.firstMissing calls), made.1 with
    | some e, _ => made = (.error e, w) ∧ events = []
    | none, .ok _ => events = (List.range p.graph.nodes.length).map (.started · (.ok ()))
    | none, .error e => ∃ n error, n < p.graph.nodes.length ∧ e = .nodeInit n error.code ∧
      events = (List.range n).map (.started · (.ok ())) ++ [.started n (.error error)] := by
  intro calls made events
  have hsound := (Graph.sound_of_compile hb.coherent hp).1
  have htracks : Tracks p calls (ofOffers p stop offers) := by
    rw [ofOffers_eq hsound]
    exact tracks_ofCalls hsound stop calls
  have hrefusal := htracks.refusal_eq
  cases hrefused : (p.firstOffence [] calls).or (p.firstMissing calls) with
  | some e =>
    rw [hrefused] at hrefusal
    have hmade : made = (.error e, w) := build_of_some hrefusal w
    have hexact : ¬ Exact p calls := by
      rw [exact_iff, ← Option.or_eq_none_iff, hrefused]
      exact nofun
    refine ⟨?_, hmade, buildEvents_of_some hrefusal w⟩
    rw [hmade]
    constructor
    · rintro ⟨_, h⟩
      cases h
    · exact fun h ↦ absurd h.1 hexact
  | none =>
    rw [hrefused] at hrefusal
    have hexact : Exact p calls := exact_iff.mpr (Option.or_eq_none_iff.mp hrefused)
    have hspec := build_of_none hrefusal w
    rw [htracks.sane.nodes] at hspec
    rcases hmade : ((ofOffers p stop offers).build w).1 with e | e <;> rw [hmade] at hspec
    · obtain ⟨n, error, hn, he, hupto⟩ := hspec
      have hmem : .started n (.error error) ∈ events := by
        rw [show events = _ from hupto]
        exact List.mem_append_right _ (List.mem_singleton_self _)
      refine ⟨⟨?_, fun h ↦ absurd hmem (h.2 n error)⟩, n, error, hn, he, hupto⟩
      rintro ⟨_, h⟩
      cases h
    · refine ⟨⟨fun _ ↦ ⟨hexact, fun n error hmem ↦ ?_⟩, fun _ ↦ ⟨e, rfl⟩⟩, hspec⟩
      rw [show events = _ from hspec] at hmem
      obtain ⟨m, -, hm⟩ := List.mem_map.mp hmem
      cases hm

end Binding

namespace Looped

/-- Node `b`, which does not start. -/
def idler : Behaviour Scalar UInt8 Unit where
  run := taker.run
  init := fun s ↦ (.error (.recoverable .fatal), s)

/-- The loop has cells of the host, and the other edge gets those that are made for it. -/
def offers : List (Offer Scalar UInt8 Unit) :=
  [.one (.node 1 ⟨idler, 0⟩), .one (.storage 1 .u8 [(4 : UInt8), (0 : UInt8)]), .all .u8, .one (.stop 1),
    .all .u16, .one (.node 0 ⟨feeder, 0⟩)]

/-- The nodes start in another order than they were bound in. -/
theorem build_offers :
    ((Binding.ofOffers (plan .static [7, 2]) 0 offers).build world).1 = .error (.nodeInit 1 .fatal) ∧
      Binding.Exact (plan .static [7, 2]) ((plan .static [7, 2]).single [] offers) ∧
      ∃ n error, n < 2 ∧ BindError.nodeInit 1 .fatal = .nodeInit n error.code ∧
        (Binding.ofOffers (plan .static [7, 2]) 0 offers).buildEvents world =
          (List.range n).map (.started · (.ok ())) ++ [.started n (.error error)] := by
  have hnone : ((plan .static [7, 2]).firstOffence [] ((plan .static [7, 2]).single [] offers)).or
      ((plan .static [7, 2]).firstMissing ((plan .static [7, 2]).single [] offers)) = none := by
    decide +kernel
  have hmade : ((Binding.ofOffers (plan .static [7, 2]) 0 offers).build world).1 =
      .error (.nodeInit 1 .fatal) := rfl
  have hspec := (Binding.build_ofOffers built_graph compile_graph 0 offers world).2
  rw [hnone, hmade] at hspec
  exact ⟨hmade, Binding.exact_iff.mpr (Option.or_eq_none_iff.mp hnone), hspec⟩

end Looped

end Dataflow
