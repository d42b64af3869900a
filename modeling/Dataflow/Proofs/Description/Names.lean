import Dataflow.Proofs.Command.Agreement
import Dataflow.Proofs.Graph.Construction
import Dataflow.Report.Basic

/-!
# Names for indices

A description tells nodes by name, its graph by index. Both number nodes and edges alike, and a name
stands for one node, so a port is found again under its own name, whatever characters the name of its
node has. A report therefore tells exactly the ports and the firings of its plan.
-/

namespace Dataflow

/-! ## Texts of ports -/

theorem splitLastDot_append {digits : List Char} (h : '.' ∉ digits) (name : List Char) :
    splitLastDot (name ++ '.' :: digits) = some (name, digits) := by
  have hall : ∀ c ∈ digits.reverse, (c != '.') = true := by
    intro c hc
    rw [bne_iff_ne]
    rintro rfl
    exact h (List.mem_reverse.mp hc)
  have hreverse : (name ++ '.' :: digits).reverse = digits.reverse ++ '.' :: name.reverse := by simp
  rw [splitLastDot, hreverse, List.dropWhile_append_of_pos hall, List.takeWhile_append_of_pos hall]
  simp

theorem slot?_digits (n : Nat) : slot? (Decimal.digits n) = Word.checked n := by
  have hsign : ∀ rest, Decimal.digits n ≠ '+' :: rest := by
    intro rest h
    have hplus : '+' ∈ Decimal.digits n := h ▸ List.mem_cons_self
    exact absurd (Decimal.mem_digits hplus).1 (by decide)
  unfold slot?
  split
  · rename_i rest h
    exact absurd h (hsign rest)
  · exact congrArg (Option.bind · Word.checked) (Decimal.value?_digits n)

namespace Graph

variable {g : Graph}

/-! ## Nodes by name -/

/-- No two nodes have the same name. -/
def NamesDiffer (g : Graph) : Prop := (g.nodes.map Node.name).Nodup

theorem find?_name (h : g.NamesDiffer) {n : NodeId} {node : Node} (hn : g.nodes[n]? = some node) :
    g.find? node.name = some n := by
  obtain ⟨hlt, rfl⟩ := List.getElem?_eq_some_iff.mp hn
  refine List.findIdx?_eq_some_iff_getElem.mpr ⟨hlt, by simp, fun j hj ↦ ?_⟩
  have hne := List.pairwise_iff_getElem.mp h j n (by simp; omega) (by simpa using hlt) hj
  simpa using hne

theorem find?_nodeName (h : g.NamesDiffer) {n : NodeId} (hn : n < g.nodes.length) :
    g.find? (g.nodeName n) = some n := by
  rw [nodeName, List.getElem?_eq_getElem hn]
  exact find?_name h (List.getElem?_eq_getElem hn)

/-- A port is found under its own name. -/
theorem resolve_portName (h : g.NamesDiffer) {p : PortRef} (hn : p.node < g.nodes.length)
    (hslot : p.slot < Word.modulus) : g.resolve (g.portName p) = .ok (p.node, p.slot) := by
  have hnode := List.getElem?_eq_getElem hn
  have hdot : '.' ∉ Decimal.digits p.slot := fun hmem ↦
    absurd (Decimal.mem_digits hmem).1 (by decide)
  have htext : (g.portName p).toList =
      g.nodes[p.node].name.toList ++ '.' :: Decimal.digits p.slot := by
    simp [portName, hnode, Decimal.text]
  simp [resolve, htext, splitLastDot_append hdot, slot?_digits,
    Word.checked_eq_some_iff.mpr ⟨hslot, rfl⟩, find?_name h hnode]

theorem find?_eq (g : Graph) (name : String) :
    g.find? name = (g.nodes.map Node.spec).findIdx? (·.name == name) := by
  rw [List.findIdx?_map]
  rfl

/-- Which port a text names depends on the declarations of the nodes only. -/
theorem resolve_congr {g' : Graph} (h : g.nodes.map Node.spec = g'.nodes.map Node.spec)
    (text : String) : g.resolve text = g'.resolve text := by
  have hfind : g.find? = g'.find? := funext fun name ↦ by rw [find?_eq, find?_eq, h]
  unfold resolve
  rw [hfind]

theorem slot_lt_of_resolve {text : String} {n : NodeId} {slot : Nat}
    (h : g.resolve text = .ok (n, slot)) : slot < Word.modulus := by
  unfold resolve at h
  split at h
  · cases h
  · split at h
    · cases h
    · rename_i hslot
      split at h <;> cases h
      obtain ⟨value, -, hchecked⟩ := Option.bind_eq_some_iff.mp hslot
      obtain ⟨hlt, rfl⟩ := Word.checked_eq_some_iff.mp hchecked
      exact hlt

end Graph

/-! ## From a description to its graph -/

namespace Description

variable {d : Description}

/-- The port that a declaration means. -/
def Declares (d : Description) (decl : PortDecl) (port : Port) : Prop :=
  port.element.name = decl.type ∧ d.types.get? decl.type = some port.element.size ∧
    port.rate = decl.rate

theorem declares_of_port {node : String} {decl : PortDecl} {port : Port}
    (h : d.port node decl = .ok port) : d.Declares decl port := by
  unfold Description.port at h
  split at h <;> cases h
  rename_i hsize
  exact ⟨rfl, hsize, rfl⟩

theorem forall₂_of_mapM_eq_ok {ε α β : Type} {f : α → Except ε β} {l : List α} {l' : List β}
    (h : l.mapM f = .ok l') : List.Forall₂ (fun a b ↦ f a = .ok b) l l' := by
  induction l generalizing l' with
  | nil =>
    cases h
    exact .nil
  | cons a l ih =>
    rw [List.mapM_cons] at h
    obtain ⟨b, hb, h⟩ := Fold.bind_eq_ok h
    obtain ⟨bs, hbs, h⟩ := Fold.bind_eq_ok h
    cases h
    exact .cons hb (ih hbs)

theorem nodeSpec_eq_ok {decl : NodeDecl} {spec : NodeSpec} (h : d.nodeSpec decl = .ok spec) :
    spec.name = decl.name ∧ spec.code = decl.code ∧
      List.Forall₂ d.Declares decl.inputs spec.inputs ∧
      List.Forall₂ d.Declares decl.outputs spec.outputs := by
  obtain ⟨inputs, hin, h⟩ := Fold.bind_eq_ok h
  obtain ⟨outputs, hout, h⟩ := Fold.bind_eq_ok h
  cases h
  exact ⟨rfl, rfl, (forall₂_of_mapM_eq_ok hin).imp fun _ _ ↦ declares_of_port,
    (forall₂_of_mapM_eq_ok hout).imp fun _ _ ↦ declares_of_port⟩

/-- The nodes of a graph are those that are declared, in their order. -/
structure NodesOf (d : Description) (decls : List NodeDecl) (g : Graph) : Prop where
  length : g.nodes.length = decls.length
  differ : g.NamesDiffer
  node {n : NodeId} {decl : NodeDecl} (h : decls[n]? = some decl) :
    ∃ spec, d.nodeSpec decl = .ok spec ∧ g.spec? n = some (spec.numbered n)

theorem NodesOf.addNode {decls : List NodeDecl} {g g' : Graph} {decl : NodeDecl}
    (h : d.NodesOf decls g) (hstep : d.addNode g decl = .ok g') : d.NodesOf (decls ++ [decl]) g' := by
  unfold Description.addNode at hstep
  split at hstep
  · cases hstep
  rename_i hnew
  obtain ⟨spec, hspec, hstep⟩ := Fold.bind_eq_ok hstep
  cases hstep
  refine ⟨by simp [Graph.addNode, h.length], ?_, fun {n decl'} hn ↦ ?_⟩
  · have hname : (Node.ofSpec g.nodes.length spec).name = decl.name := (nodeSpec_eq_ok hspec).1
    have hfresh : decl.name ∉ g.nodes.map Node.name := by
      simpa [Graph.find?, List.findIdx?_eq_none_iff] using hnew
    simp only [Graph.NamesDiffer, Graph.addNode, List.map_append, List.map_cons, List.map_nil, hname]
    exact List.nodup_append.mpr ⟨h.differ, List.nodup_singleton _, fun a ha b hb hab ↦
      hfresh (List.mem_singleton.mp hb ▸ hab ▸ ha)⟩
  · have hspecs : (g.addNode spec).2.nodes.map Node.spec =
        g.nodes.map Node.spec ++ [spec.numbered g.nodes.length] := by simp [Graph.addNode]
    rcases Graph.of_getElem?_concat hn with hn | ⟨rfl, rfl⟩
    · obtain ⟨spec', hspec', hid⟩ := h.node hn
      refine ⟨spec', hspec', ?_⟩
      rw [Graph.spec?, hspecs]
      exact Graph.getElem?_of_prefix (List.prefix_append _ _) hid
    · refine ⟨spec, hspec, ?_⟩
      rw [Graph.spec?, hspecs, ← h.length]
      simp

/-- The edges of a graph are those that are declared, in their order. Their ports are read in the graph
that has the nodes alone. -/
structure EdgesOf (nodes : Graph) (decls : List EdgeDecl) (g : Graph) : Prop where
  specs : g.nodes.map Node.spec = nodes.nodes.map Node.spec
  length : g.edges.length = decls.length
  edge {id : EdgeId} {decl : EdgeDecl} (h : decls[id]? = some decl) :
    ∃ e, g.edges[id]? = some e ∧ e.delay = decl.delay ∧
      nodes.resolve decl.source = .ok (e.source.node, e.source.slot) ∧
      nodes.resolve decl.target = .ok (e.target.node, e.target.slot)

theorem EdgesOf.addEdge {nodes : Graph} {decls : List EdgeDecl} {g g' : Graph} {decl : EdgeDecl}
    (h : EdgesOf nodes decls g) (hstep : addEdge g decl = .ok g') :
    EdgesOf nodes (decls ++ [decl]) g' := by
  obtain ⟨⟨source, outSlot⟩, hsource, hstep⟩ := Fold.bind_eq_ok hstep
  obtain ⟨⟨target, inSlot⟩, htarget, hstep⟩ := Fold.bind_eq_ok hstep
  rw [Graph.resolve_congr h.specs] at hsource htarget
  cases hconnect : g.connect (.out source outSlot) (.into target inSlot) decl.delay with
  | error error => simp [hconnect, throw, throwThe, MonadExceptOf.throw] at hstep
  | ok joined =>
    obtain ⟨id, joined⟩ := joined
    simp only [hconnect] at hstep
    cases hstep
    obtain ⟨outlet, inlet, -, -, -, -, rfl, rfl⟩ := Graph.connect_eq_ok hconnect
    refine ⟨by simp [h.specs], by simp [h.length], fun {id decl'} hid ↦ ?_⟩
    rcases Graph.of_getElem?_concat hid with hid | ⟨rfl, rfl⟩
    · obtain ⟨e, he, hports⟩ := h.edge hid
      exact ⟨e, Graph.getElem?_of_prefix (List.prefix_append _ _) he, hports⟩
    · exact ⟨_, h.length ▸ List.getElem?_concat_length, rfl, hsource, htarget⟩

/-- Nodes and edges of the graph are those of the description, in their order. -/
structure Describes (d : Description) (g : Graph) : Prop where
  length_nodes : g.nodes.length = d.nodes.length
  node {n : NodeId} {decl : NodeDecl} (h : d.nodes[n]? = some decl) :
    ∃ node, g.nodes[n]? = some node ∧ node.name = decl.name ∧
      node.code = decl.code.getD (UInt32.ofNat n) ∧
      List.Forall₂ d.Declares decl.inputs (node.inputs.map (·.port)) ∧
      List.Forall₂ d.Declares decl.outputs (node.outputs.map (·.port))
  length_edges : g.edges.length = d.edges.length
  edge {id : EdgeId} {decl : EdgeDecl} (h : d.edges[id]? = some decl) :
    ∃ e, g.edges[id]? = some e ∧ e.delay = decl.delay ∧
      e.source.direction = .output ∧
      g.resolve decl.source = .ok (e.source.node, e.source.slot) ∧
      e.target.direction = .input ∧
      g.resolve decl.target = .ok (e.target.node, e.target.slot)

theorem describes_of_toGraph {g : Graph} (h : d.toGraph = .ok g) :
    d.Describes g ∧ g.NamesDiffer := by
  have hg : g.Coherent := (built_of_toGraph h).coherent
  obtain ⟨nodes, hnodes, hedges⟩ := Fold.bind_eq_ok h
  have hn : d.NodesOf d.nodes nodes := Fold.foldlM_ok_induction (P := d.NodesOf) hnodes
    ⟨rfl, List.nodup_nil, by simp⟩ fun _ _ _ _ _ hdone hstep ↦ hdone.addNode hstep
  have hnone : nodes.edges = [] := Fold.foldlM_ok_induction (P := fun _ g ↦ g.edges = []) hnodes rfl
    fun _ _ g g' _ hdone hstep ↦ by
      unfold Description.addNode at hstep
      split at hstep
      · cases hstep
      · obtain ⟨spec, -, hstep⟩ := Fold.bind_eq_ok hstep
        cases hstep
        exact hdone
  -- Edges leave all declarations as they are, so a text means one port from the first to the last.
  have he : EdgesOf nodes d.edges g := Fold.foldlM_ok_induction (P := EdgesOf nodes) hedges
    ⟨rfl, by simp [hnone], by simp⟩ fun _ _ _ _ _ hdone hstep ↦ hdone.addEdge hstep
  have hdiffer : g.NamesDiffer := by
    have hnames := congrArg (List.map NodeSpec.name) he.specs
    simp only [List.map_map] at hnames
    exact (congrArg List.Nodup hnames).mpr hn.differ
  refine ⟨⟨?_, fun {n decl} hdecl ↦ ?_, he.length, fun {id decl} hdecl ↦ ?_⟩, hdiffer⟩
  · rw [← hn.length]
    simpa using congrArg List.length he.specs
  · obtain ⟨spec, hspec, hid⟩ := hn.node hdecl
    obtain ⟨hname, hcode, hin, hout⟩ := nodeSpec_eq_ok hspec
    rw [Graph.spec?, ← he.specs, List.getElem?_map] at hid
    obtain ⟨node, hnode, heq⟩ := Option.map_eq_some_iff.mp hid
    simp only [Node.spec, NodeSpec.numbered, NodeSpec.mk.injEq, Option.some.injEq] at heq
    obtain ⟨hname', hcode', hin', hout'⟩ := heq
    exact ⟨node, hnode, hname'.trans hname, hcode'.trans (congrArg (Option.getD · _) hcode),
      hin' ▸ hin, hout' ▸ hout⟩
  · obtain ⟨e, hid, hdelay, hsource, htarget⟩ := he.edge hdecl
    rw [← Graph.resolve_congr he.specs] at hsource htarget
    exact ⟨e, hid, hdelay, (hg.source hid).1, hsource, (hg.target hid).1, htarget⟩

/-- An edge names its own ports. -/
theorem Describes.resolve_portName {g : Graph} (h : d.Describes g) (hg : g.Coherent)
    (hdiffer : g.NamesDiffer) {id : EdgeId} {e : Edge} (he : g.edges[id]? = some e) :
    g.resolve (g.portName e.source) = .ok (e.source.node, e.source.slot) ∧
      g.resolve (g.portName e.target) = .ok (e.target.node, e.target.slot) := by
  have hid : id < d.edges.length := h.length_edges ▸ (List.getElem?_eq_some_iff.mp he).1
  obtain ⟨e', he', -, -, hsource, -, htarget⟩ := h.edge (List.getElem?_eq_getElem hid)
  cases Option.some.inj (he.symm.trans he')
  exact ⟨Graph.resolve_portName hdiffer (hg.node_lt he .output) (Graph.slot_lt_of_resolve hsource),
    Graph.resolve_portName hdiffer (hg.node_lt he .input) (Graph.slot_lt_of_resolve htarget)⟩

end Description

/-! ## Reports -/

namespace Report

variable {p : Plan} {name : String}

/-- The report tells ports, nodes and firings of its plan by names that lead back to them. -/
structure Identifies (r : Report) (p : Plan) : Prop where
  length_nodes : r.nodes.length = p.graph.nodes.length
  node {n : NodeId} {line : NodeReport} (h : r.nodes[n]? = some line) :
    p.graph.find? line.name = some n ∧ r.order.count line.name = line.repetitions.toNat
  length_edges : r.edges.length = p.graph.edges.length
  edge {id : EdgeId} {line : EdgeReport} (h : r.edges[id]? = some line) :
    ∃ e, p.graph.edges[id]? = some e ∧
      p.graph.resolve line.source = .ok (e.source.node, e.source.slot) ∧
      p.graph.resolve line.target = .ok (e.target.node, e.target.slot)
  order : r.order.map p.graph.find? = p.order.map some
  firingOrder : r.firingOrder.map (·.map p.graph.find?) =
    match p.schedule with
    | .guarded guards => some (guards.firingOrder.map some)
    | .ordered _ => none
  activations : r.activations.toNat = r.order.length

theorem map_find?_nodeName {g : Graph} (h : g.NamesDiffer) {nodes : List NodeId}
    (hlt : ∀ n ∈ nodes, n < g.nodes.length) : (nodes.map g.nodeName).map g.find? = nodes.map some := by
  rw [List.map_map]
  exact List.map_congr_left fun n hn ↦ Graph.find?_nodeName h (hlt n hn)

/-- A name is told as often as its node fires. -/
theorem count_map_nodeName {g : Graph} (h : g.NamesDiffer) {nodes : List NodeId}
    (hlt : ∀ n ∈ nodes, n < g.nodes.length) {n : NodeId} (hn : n < g.nodes.length) :
    (nodes.map g.nodeName).count (g.nodeName n) = nodes.count n := by
  rw [List.count, List.countP_map, List.count]
  refine List.countP_congr fun m hm ↦ ?_
  simp only [Function.comp_apply, beq_iff_eq]
  constructor
  · intro hname
    have hfind := Graph.find?_nodeName h (hlt m hm)
    rw [hname, Graph.find?_nodeName h hn] at hfind
    exact (Option.some.inj hfind).symm
  · rintro rfl
    rfl

theorem identifies_ofPlan {d : Description} (h : d.compile = .ok p) (name : String) :
    Identifies (ofPlan name p) p := by
  obtain ⟨g, hgraph, hcompile⟩ := Description.exists_of_compile h
  obtain ⟨hd, hdiffer⟩ := Description.describes_of_toGraph hgraph
  have hg : g.Coherent := (Description.built_of_toGraph hgraph).coherent
  obtain ⟨hsound, -⟩ := Graph.sound_of_compile hg hcompile
  obtain ⟨-, -, -, -, rfl, -⟩ := Graph.exists_of_compile hcompile
  have hlt : ∀ n ∈ p.order, n < p.graph.nodes.length := fun n hn ↦
    hsound.period.lt_of_mem hsound.balances hn
  refine ⟨by simp [ofPlan], fun {n line} hline ↦ ?_, by simp [ofPlan], fun {id line} hline ↦ ?_,
    map_find?_nodeName hdiffer hlt, ?_, ?_⟩
  · have hn : n < p.graph.nodes.length := by
      simpa [ofPlan] using (List.getElem?_eq_some_iff.mp hline).1
    have hline' : line = node p p.graph.nodes[n] n := by
      simpa [ofPlan, List.getElem?_eq_getElem hn, eq_comm] using hline
    have hname : line.name = p.graph.nodeName n := by
      simp [hline', node, Graph.nodeName, List.getElem?_eq_getElem hn]
    have hfits : p.repetitions.get n < 2 ^ 32 := hsound.balances.fits hn
    refine ⟨hname ▸ Graph.find?_nodeName hdiffer hn, ?_⟩
    calc (ofPlan name p).order.count line.name
        = p.order.count n := hname ▸ count_map_nodeName hdiffer hlt hn
      _ = p.repetitions.get n := hsound.period.count n
      _ = line.repetitions.toNat := by
        rw [hline', node, UInt32.toNat_ofNat', Nat.mod_eq_of_lt hfits]
  · have hid : id < p.graph.edges.length := by
      simpa [ofPlan] using (List.getElem?_eq_some_iff.mp hline).1
    have he := List.getElem?_eq_getElem hid
    have hline' : line = edge p p.graph.edges[id] id := by
      simpa [ofPlan, he, eq_comm] using hline
    exact ⟨_, he, hline' ▸ hd.resolve_portName hg hdiffer he⟩
  · rcases hmode : p.schedule with order | guards
    · simp [ofPlan, hmode]
    · have hguards : guards.firingOrder = List.range p.graph.nodes.length := by
        unfold Plan.schedule at hmode
        split at hmode <;> cases hmode
        rfl
      simp only [ofPlan, hmode, Option.map_some, hguards]
      rw [map_find?_nodeName hdiffer fun n hn ↦ List.mem_range.mp hn]
  · rw [Description.activations_ofPlan h name]
    simp [ofPlan]

end Report

namespace Description

/-- Nodes and edges of a graph are those of its description in their order, every port whose slot is a
word, as each index is, is found again under its name, and the report on a plan for it identifies ports,
nodes and firings. -/
theorem names_identify {d : Description} {g : Graph} (h : d.toGraph = .ok g) :
    d.Describes g ∧
      (∀ p : PortRef, (Graph.socketIn g.nodes p).isSome → p.slot < Word.modulus →
        g.resolve (g.portName p) = .ok (p.node, p.slot)) ∧
      ∀ p : Plan, d.compile = .ok p →
        p.graph = g ∧ ∀ name, (Report.ofPlan name p).Identifies p := by
  obtain ⟨hd, hdiffer⟩ := describes_of_toGraph h
  refine ⟨hd, fun p hp hslot ↦ ?_, fun p hp ↦ ⟨?_, Report.identifies_ofPlan hp⟩⟩
  · obtain ⟨s, hs⟩ := Option.isSome_iff_exists.mp hp
    obtain ⟨node, hn, -⟩ := Graph.exists_of_socketIn_eq_some hs
    exact Graph.resolve_portName hdiffer (List.getElem?_eq_some_iff.mp hn).1 hslot
  · obtain ⟨g', hgraph, hcompile⟩ := exists_of_compile hp
    cases Except.ok.inj (h.symm.trans hgraph)
    exact (Graph.exists_of_compile hcompile).2.2.2.2.1

/-- Names with dots, digits and nothing in them; the last node fires three times for two firings of the
first. -/
def dotted : Description :=
  { Description.new "dotted" with
    mode := .fullyAsynchronous
    types := .ofList [("q15", 2)]
    nodes := [⟨"a.0", some 7, [], [⟨"q15", 3⟩]⟩, ⟨"", none, [⟨"q15", 3⟩], [⟨"q15", 3⟩]⟩,
      ⟨"0.é", none, [⟨"q15", 2⟩], []⟩]
    edges := [⟨"a.0.0", ".0", 1⟩, ⟨".0", "0.é.0", 0⟩] }

theorem dotted_names_identify : ∃ g p, dotted.toGraph = .ok g ∧ dotted.compile = .ok p ∧
    dotted.Describes g ∧ g.portName (.into 2 0) = "0.é.0" ∧ g.resolve "0.é.0" = .ok (2, 0) ∧
    (Report.ofPlan "dotted" p).order = ["a.0", "a.0", "", "", "0.é", "0.é", "0.é"] ∧
    (Report.ofPlan "dotted" p).Identifies p := by
  have hcheck : dotted.toGraph.toOption.any (fun g ↦ dotted.compile.toOption.any fun p ↦
      (Graph.socketIn g.nodes (.into 2 0)).isSome ∧ g.portName (.into 2 0) = "0.é.0" ∧
        (Report.ofPlan "dotted" p).order = ["a.0", "a.0", "", "", "0.é", "0.é", "0.é"]) := by
    decide +kernel
  cases hgraph : dotted.toGraph with
  | error e => simp [hgraph, Except.toOption] at hcheck
  | ok g =>
    cases hplan : dotted.compile with
    | error e => simp [hgraph, hplan, Except.toOption] at hcheck
    | ok p =>
      simp only [hgraph, hplan, Except.toOption, Option.any_some, decide_eq_true_eq] at hcheck
      obtain ⟨hsocket, hname, horder⟩ := hcheck
      obtain ⟨hdescribes, hports, hreports⟩ := names_identify hgraph
      exact ⟨g, p, rfl, rfl, hdescribes, hname, hname ▸ hports (.into 2 0) hsocket (by decide), horder,
        (hreports p hplan).2 "dotted"⟩

end Description

end Dataflow
