import Dataflow.Engine.Binding
import Dataflow.Proofs.Engine.Firing

/-!
# Engines that are built

Whatever a host binds, an engine that is built has the plan it was started from, a queue of the right
capacity and with the right number of initial tokens for every edge, and the nodes that were bound. If
every node and every edge is bound once, and to a queue for elements of the declared size, then only a
node that refuses to start can stand against the engine.
-/

namespace Dataflow

variable {κ : Type} [ElementKind κ] {σ ω α : Type}

open ElementKind (Carrier)

/-! ## Queues -/

namespace Fifo

/-- The queue holds its initial tokens, from the first cell on. -/
structure AtRest (f : Fifo α) : Prop where
  read : f.read = 0
  contents : f.contents = f.initial

theorem atRest_reset (f : Fifo α) : f.reset.AtRest := ⟨rfl, f.contents_reset⟩

theorem of_ofStorage_eq_ok {storage : List α} {capacity delay : Nat} {f : Fifo α}
    (h : ofStorage storage capacity delay = .ok f) :
    f.capacity = capacity ∧ f.size = delay ∧ f.AtRest := by
  have hlist := toListQueue_ofStorage h
  have hcontents : f.contents = f.initial :=
    (congrArg ListQueue.elements hlist).trans (congrArg ListQueue.initial hlist).symm
  unfold ofStorage at h
  split at h
  · cases h
  split at h
  · cases h
  rename_i hlength
  split at h
  · cases h
  cases h
  refine ⟨?_, rfl, rfl, hcontents⟩
  simp only [Fifo.capacity, List.size_toArray, List.length_take]
  omega

/-- Blank storage is never too small. -/
theorem exists_new (blank : α) {capacity delay : Nat} (hpos : 0 < capacity)
    (hdelay : delay ≤ capacity) : ∃ f, new blank capacity delay = .ok f := by
  unfold new ofStorage
  rw [dif_neg (Nat.ne_of_gt hpos), dif_neg (by simp), dif_neg (Nat.not_lt.mpr hdelay)]
  exact ⟨_, rfl⟩

end Fifo

/-! ## Calls of a host -/

/-- One call of a host that makes an engine. -/
inductive Bind (κ : Type) [ElementKind κ] (σ ω : Type) where
  | node (n : NodeId) (i : Instance κ σ ω)
  | fifo (id : EdgeId) (k : κ)
  | storage (id : EdgeId) (k : κ) (cells : List (Carrier k))
  | hooks (hooks : Hooks ω)
  | stop (stop : StopToken)

namespace Bind

def node? : Bind κ σ ω → Option NodeId
  | node n _ => some n
  | _ => none

/-- The edge that gets a queue, and the kind of its elements. -/
def queue? : Bind κ σ ω → Option (EdgeId × κ)
  | fifo id k | storage id k _ => some (id, k)
  | _ => none

end Bind

namespace Binding

def apply (b : Binding κ σ ω) : Bind κ σ ω → Binding κ σ ω
  | .node n i => b.node n i
  | .fifo id k => b.fifo id k
  | .storage id k cells => b.fifoStorage id k cells
  | .hooks hooks => b.withHooks hooks
  | .stop stop => b.withStop stop

/-- All that a host has bound. -/
def ofCalls (p : Plan) (stop : StopToken) (calls : List (Bind κ σ ω)) : Binding κ σ ω :=
  calls.foldl apply (start p stop)

/-- What is bound has been asked for in `calls`, and the queues are as the plan wants them. -/
structure Sane (p : Plan) (calls : List (Bind κ σ ω)) (b : Binding κ σ ω) : Prop where
  plan : b.plan = p
  nodes : b.nodes.length = p.graph.nodes.length
  channels : b.channels.length = p.graph.edges.length
  bound {n : NodeId} {i : Instance κ σ ω} (h : b.nodes[n]? = some (some i)) : .node n i ∈ calls
  queued {id : EdgeId} {c : Channel κ} (h : b.channels[id]? = some (some c)) :
    (id, c.kind) ∈ calls.filterMap Bind.queue? ∧ c.capacity = p.room id ∧
      c.available = p.graph.delay id ∧ c.queue.AtRest

variable {p : Plan} {calls : List (Bind κ σ ω)} {b : Binding κ σ ω} {stop : StopToken}

theorem sane_start (p : Plan) (stop : StopToken) : Sane p [] (start p stop : Binding κ σ ω) where
  plan := rfl
  nodes := by simp [start]
  channels := by simp [start]
  bound h := by simp [start, List.getElem?_replicate] at h
  queued h := by simp [start, List.getElem?_replicate] at h

theorem Sane.append (h : Sane p calls b) (x : Bind κ σ ω) : Sane p (calls ++ [x]) b where
  plan := h.plan
  nodes := h.nodes
  channels := h.channels
  bound hn := List.mem_append_left _ (h.bound hn)
  queued hc := by
    obtain ⟨hmem, hrest⟩ := h.queued hc
    rw [List.filterMap_append]
    exact ⟨List.mem_append_left _ hmem, hrest⟩

theorem Sane.fail (h : Sane p calls b) (e : BindError) : Sane p calls (b.fail e) :=
  ⟨h.plan, h.nodes, h.channels, h.bound, h.queued⟩

theorem Sane.node (h : Sane p calls b) (n : NodeId) (i : Instance κ σ ω) :
    Sane p (calls ++ [.node n i]) (b.node n i) := by
  have hsame := h.append (.node n i)
  unfold Binding.node
  split
  · exact hsame
  split
  · exact hsame.fail _
  · exact hsame.fail _
  · refine ⟨hsame.plan, ?_, hsame.channels, fun {m j} hm ↦ ?_, hsame.queued⟩
    · rw [List.length_set, hsame.nodes]
    · rw [List.getElem?_set] at hm
      split at hm
      · rename_i heq
        subst heq
        split at hm
        · cases hm
          exact List.mem_append_right _ List.mem_cons_self
        · cases hm
      · exact hsame.bound hm

theorem Sane.queue (h : Sane p calls b) {x : Bind κ σ ω} {id : EdgeId} {k : κ}
    (hx : x.queue? = some (id, k)) {make : Nat → Nat → Except FifoError (Fifo (Carrier k))}
    (hmake : ∀ capacity delay q, make capacity delay = .ok q →
      q.capacity = capacity ∧ q.size = delay ∧ q.AtRest) :
    Sane p (calls ++ [x]) (b.queue id k make) := by
  have hsame := h.append x
  unfold Binding.queue
  split
  · exact hsame
  split
  · exact hsame.fail _
  rename_i e he
  split
  · exact hsame.fail _
  split
  · exact hsame.fail _
  split
  · exact hsame.fail _
  rename_i q hq
  obtain ⟨hcapacity, hsize, hrest⟩ := hmake _ _ q hq
  refine ⟨hsame.plan, hsame.nodes, ?_, hsame.bound, fun {i c} hc ↦ ?_⟩
  · rw [List.length_set, hsame.channels]
  · rw [List.getElem?_set] at hc
    split at hc
    · rename_i heq
      subst heq
      split at hc
      · cases hc
        rw [h.plan] at he hcapacity
        refine ⟨?_, hcapacity, ?_, hrest⟩
        · simp [hx]
        · rw [Graph.delay, he]
          exact hsize
      · cases hc
    · exact hsame.queued hc

theorem Sane.apply (h : Sane p calls b) (x : Bind κ σ ω) : Sane p (calls ++ [x]) (b.apply x) := by
  cases x with
  | node n i => exact h.node n i
  | fifo id k => exact h.queue rfl fun _ _ _ hq ↦ Fifo.of_ofStorage_eq_ok hq
  | storage id k cells => exact h.queue rfl fun _ _ _ hq ↦ Fifo.of_ofStorage_eq_ok hq
  | hooks hooks =>
    have hsame := h.append (.hooks hooks)
    exact ⟨hsame.plan, hsame.nodes, hsame.channels, hsame.bound, hsame.queued⟩
  | stop stop =>
    have hsame := h.append (.stop stop)
    exact ⟨hsame.plan, hsame.nodes, hsame.channels, hsame.bound, hsame.queued⟩

theorem sane_ofCalls (p : Plan) (stop : StopToken) (calls : List (Bind κ σ ω)) :
    Sane p calls (ofCalls p stop calls) :=
  Fold.foldl_done_induction (sane_start p stop) fun _ x _ _ h ↦ h.apply x

/-! ## Nothing is missing -/

/-- Every node and every edge is bound once, and the edges to blank queues for elements of their size. -/
structure Complete (p : Plan) (calls : List (Bind κ σ ω)) : Prop where
  nodes : (calls.filterMap Bind.node?).Perm (List.range p.graph.nodes.length)
  edges : ((calls.filterMap Bind.queue?).map Prod.fst).Perm (List.range p.graph.edges.length)
  blank (id : EdgeId) (k : κ) (cells : List (Carrier k)) : .storage id k cells ∉ calls
  sizes {id : EdgeId} {k : κ} {e : Edge} (h : .fifo id k ∈ calls)
    (he : p.graph.edges[id]? = some e) : e.element.size = ElementKind.size k

theorem Complete.kind_of_mem (hc : Complete p calls) {kind : EdgeId → κ}
    (hkind : ∀ (id : EdgeId) (k : κ), .fifo id k ∈ calls → k = kind id) (id : EdgeId) (k : κ)
    (h : (id, k) ∈ calls.filterMap Bind.queue?) : k = kind id := by
  obtain ⟨x, hx, hqueue⟩ := List.mem_filterMap.mp h
  cases x with
  | fifo =>
    cases hqueue
    exact hkind id k hx
  | storage i k' cells => exact absurd hx (hc.blank i k' cells)
  | _ => cases hqueue

/-- All that is asked for in `calls` has been bound. -/
structure Filled (calls : List (Bind κ σ ω)) (b : Binding κ σ ω) : Prop where
  fault : b.fault = none
  node {n : NodeId} {i : Instance κ σ ω} (h : .node n i ∈ calls) : ∃ j, b.nodes[n]? = some (some j)
  queue {id : EdgeId} {k : κ} (h : .fifo id k ∈ calls) : ∃ c, b.channels[id]? = some (some c)

theorem mem_node? {n : NodeId} {i : Instance κ σ ω} (h : .node n i ∈ calls) :
    n ∈ calls.filterMap Bind.node? := List.mem_filterMap.mpr ⟨_, h, rfl⟩

theorem Filled.node_step (hs : Sane p calls b) (h : Filled calls b) {n : NodeId}
    (hn : n < p.graph.nodes.length) (hnew : n ∉ calls.filterMap Bind.node?) (i : Instance κ σ ω) :
    Filled (calls ++ [.node n i]) (b.node n i) := by
  have hlt : n < b.nodes.length := hs.nodes ▸ hn
  have hnone : b.nodes[n]? = some none := by
    cases hj : b.nodes[n]? with
    | none => exact absurd (List.getElem?_eq_none_iff.mp hj) (Nat.not_le.mpr hlt)
    | some slot =>
      cases slot with
      | none => rfl
      | some j => exact absurd (mem_node? (hs.bound hj)) hnew
  have hnode : b.node n i = { b with nodes := b.nodes.set n (some i) } := by
    simp only [Binding.node, h.fault, hnone]
    rfl
  rw [hnode]
  refine ⟨h.fault, fun {m j} hm ↦ ?_, fun {id k} hid ↦ ?_⟩
  · by_cases heq : n = m
    · exact ⟨i, heq ▸ List.getElem?_set_self hlt⟩
    · rcases List.mem_append.mp hm with hm | hm
      · obtain ⟨j', hj'⟩ := h.node hm
        exact ⟨j', (List.getElem?_set_ne heq).trans hj'⟩
      · cases List.mem_singleton.mp hm
        exact absurd rfl heq
  · exact h.queue (by simpa using hid)

theorem Filled.fifo_step (hp : p.Sound) (hs : Sane p calls b) (h : Filled calls b) {id : EdgeId}
    {k : κ} {e : Edge} (he : p.graph.edges[id]? = some e)
    (hsize : e.element.size = ElementKind.size k)
    (hnew : id ∉ (calls.filterMap Bind.queue?).map Prod.fst) :
    Filled (calls ++ [.fifo id k]) (b.fifo id k) := by
  have hid : id < p.graph.edges.length := (List.getElem?_eq_some_iff.mp he).1
  have hlt : id < b.channels.length := hs.channels ▸ hid
  have hnone : (b.channels[id]?.join).isSome = false := by
    cases hc : b.channels[id]? with
    | none => rfl
    | some slot =>
      cases slot with
      | none => rfl
      | some c => exact absurd (List.mem_map_of_mem (f := Prod.fst) (hs.queued hc).1) hnew
  obtain ⟨q, hq⟩ := Fifo.exists_new (ElementKind.blank k) (hp.room_pos hid) (hp.delay_le id)
  rw [Graph.delay, he] at hq
  have hfifo : b.fifo id k = { b with channels := b.channels.set id (some ⟨k, q⟩) } := by
    have hq' : Fifo.new (ElementKind.blank k) ((p.capacity? id).getD 0) e.delay.toNat = .ok q := hq
    simp only [Binding.fifo, Binding.queue, h.fault, hs.plan, he, hsize, hnone, hq',
      Option.isSome_none, Bool.false_eq_true, ne_eq, not_true_eq_false, if_false]
  rw [hfifo]
  refine ⟨h.fault, fun {m j} hm ↦ ?_, fun {i k'} hi ↦ ?_⟩
  · exact h.node (by simpa using hm)
  · by_cases heq : id = i
    · exact ⟨⟨k, q⟩, heq ▸ List.getElem?_set_self hlt⟩
    · rcases List.mem_append.mp hi with hi | hi
      · obtain ⟨c, hc⟩ := h.queue hi
        exact ⟨c, (List.getElem?_set_ne heq).trans hc⟩
      · cases List.mem_singleton.mp hi
        exact absurd rfl heq

/-- What a prefix of the calls leaves out is there for the next one. -/
theorem not_mem_of_nodup {α β : Type} {f : α → Option β} {l : List α} {a : α} {b : β}
    (h : ((l ++ [a]).filterMap f).Nodup) (ha : f a = some b) : b ∉ l.filterMap f := by
  intro hb
  rw [List.filterMap_append, List.nodup_append] at h
  exact h.2.2 b hb b (by simp [ha]) rfl

theorem filled_ofCalls (hp : p.Sound) (hc : Complete p calls) (stop : StopToken) :
    Filled calls (ofCalls p stop calls) := by
  have hnodes : (calls.filterMap Bind.node?).Nodup := hc.nodes.nodup_iff.mpr List.nodup_range
  have hedges : (calls.filterMap fun x ↦ x.queue?.map Prod.fst).Nodup := by
    rw [← List.map_filterMap]
    exact hc.edges.nodup_iff.mpr List.nodup_range
  have hboth : Sane p calls (ofCalls p stop calls) ∧ Filled calls (ofCalls p stop calls) := by
    refine Fold.foldl_done_induction (P := fun done b ↦ Sane p done b ∧ Filled done b)
      ⟨sane_start p stop, rfl, fun h ↦ by simp at h, fun h ↦ by simp at h⟩ ?_
    rintro done x b hpre ⟨hs, hf⟩
    have hx : x ∈ calls := hpre.subset (by simp)
    refine ⟨hs.apply x, ?_⟩
    cases x with
    | node n i =>
      have hnew := not_mem_of_nodup (hnodes.sublist (hpre.sublist.filterMap _)) (b := n) rfl
      exact hf.node_step hs (List.mem_range.mp (hc.nodes.subset (mem_node? hx))) hnew i
    | fifo id k =>
      have hmem : id ∈ (calls.filterMap Bind.queue?).map Prod.fst :=
        List.mem_map.mpr ⟨(id, k), List.mem_filterMap.mpr ⟨_, hx, rfl⟩, rfl⟩
      have he := List.getElem?_eq_getElem (List.mem_range.mp (hc.edges.subset hmem))
      have hnew := not_mem_of_nodup (hedges.sublist (hpre.sublist.filterMap _)) (b := id) rfl
      rw [← List.map_filterMap] at hnew
      exact hf.fifo_step hp hs he (hc.sizes hx he) hnew
    | storage id k cells => exact absurd hx (hc.blank id k cells)
    | hooks hooks => exact ⟨hf.fault, fun h ↦ hf.node (by simpa using h),
        fun h ↦ hf.queue (by simpa using h)⟩
    | stop stop => exact ⟨hf.fault, fun h ↦ hf.node (by simpa using h),
        fun h ↦ hf.queue (by simpa using h)⟩
  exact hboth.2

end Binding

/-! ## Built engines -/

/-- The engine stands at the beginning of the plan. -/
structure Engine.Fresh (e : Engine κ σ ω) (p : Plan) (kind : EdgeId → κ) : Prop where
  plan : e.plan = p
  length : e.nodes.length = p.graph.nodes.length
  fit : Channel.Fit kind p.room p.graph.edges.length e.channels
  level : Channel.level e.channels = p.graph.delay
  poisoned : e.poisoned = none

namespace Binding

variable {p : Plan} {calls : List (Bind κ σ ω)} {b : Binding κ σ ω} {stop : StopToken}
  {kind : EdgeId → κ} {w w' : World ω}

/-- Nodes keep their behaviour when they start. -/
theorem behaviours_of_initNodes {first : NodeId} {nodes started : List (Instance κ σ ω)}
    (h : initNodes first nodes w = (.ok started, w')) :
    started.map (·.behaviour) = nodes.map (·.behaviour) := by
  induction nodes generalizing first started w with
  | nil =>
    cases h
    rfl
  | cons i rest ih =>
    unfold initNodes at h
    split at h
    · cases h
    split at h
    · cases h
    rename_i hrest
    cases h
    rw [List.map_cons, List.map_cons, ih hrest]

theorem exists_of_initNodes_eq_error {first : NodeId} {nodes : List (Instance κ σ ω)} {e : BindError}
    (h : initNodes first nodes w = (.error e, w')) : ∃ n code, e = .nodeInit n code := by
  induction nodes generalizing first w with
  | nil => cases h
  | cons i rest ih =>
    unfold initNodes at h
    split at h
    · cases h
      exact ⟨_, _, rfl⟩
    split at h
    · rename_i hrest
      cases h
      exact ih hrest
    · cases h

theorem exists_of_all_isSome {α : Type} {l : List (Option α)} (h : l.findIdx? (·.isNone) = none) :
    ∃ l' : List α, l = l'.map some := by
  induction l with
  | nil => exact ⟨[], rfl⟩
  | cons a l ih =>
    rw [List.findIdx?_eq_none_iff] at h
    obtain ⟨l', rfl⟩ := ih (List.findIdx?_eq_none_iff.mpr fun x hx ↦ h x (List.mem_cons_of_mem a hx))
    cases a with
    | none => exact absurd (h none List.mem_cons_self) (by simp)
    | some a => exact ⟨a :: l', rfl⟩

theorem exists_of_missing_eq_none (h : b.missing = none) :
    ∃ (nodes : List (Instance κ σ ω)) (channels : List (Channel κ)),
      b.nodes = nodes.map some ∧ b.channels = channels.map some := by
  have hall : b.nodes.findIdx? (·.isNone) = none ∧ b.channels.findIdx? (·.isNone) = none := by
    unfold missing at h
    split at h
    · cases h
    · rename_i hnodes
      exact ⟨hnodes, Option.map_eq_none_iff.mp h⟩
  obtain ⟨nodes, hnodes⟩ := exists_of_all_isSome hall.1
  obtain ⟨channels, hchannels⟩ := exists_of_all_isSome hall.2
  exact ⟨nodes, channels, hnodes, hchannels⟩

/-- Without a fault and with nothing missing it is up to the nodes whether there is an engine. -/
theorem build_of_bound {nodes : List (Instance κ σ ω)} {channels : List (Channel κ)}
    (hfault : b.fault = none) (hnodes : b.nodes = nodes.map some)
    (hchannels : b.channels = channels.map some) :
    b.build w =
      match initNodes 0 nodes w with
      | (.error e, w) => (.error e, w)
      | (.ok nodes, w) =>
        (.ok { plan := b.plan, nodes, channels, hooks := b.hooks, stop := b.stop, poisoned := none,
               cursor := 0 }, w) := by
  have hall {α : Type} (l : List α) : (l.map some).findIdx? (·.isNone) = none :=
    List.findIdx?_eq_none_iff.mpr (by simp)
  have hmissing : b.missing = none := by
    rw [missing, hnodes, hchannels, hall, hall]
    rfl
  have hid {α : Type} (l : List α) : (l.map some).filterMap id = l := by simp
  rw [build, hfault, hmissing, hnodes, hchannels, hid, hid]
  rfl

theorem exists_of_build_eq_ok {e : Engine κ σ ω} (h : b.build w = (.ok e, w')) :
    ∃ nodes : List (Instance κ σ ω), b.nodes = nodes.map some ∧
      b.channels = e.channels.map some ∧ b.plan = e.plan ∧ e.poisoned = none ∧
      e.nodes.map (·.behaviour) = nodes.map (·.behaviour) ∧ b.hooks = e.hooks ∧ b.stop = e.stop ∧
      e.cursor = 0 := by
  have hbound : b.fault = none ∧ b.missing = none := by
    unfold build at h
    split at h
    · cases h
    · rename_i hnone
      cases hfault : b.fault with
      | none =>
        rw [hfault] at hnone
        exact ⟨rfl, hnone⟩
      | some e =>
        rw [hfault] at hnone
        cases hnone
  obtain ⟨hfault, hmissing⟩ := hbound
  obtain ⟨nodes, channels, hnodes, hchannels⟩ := exists_of_missing_eq_none hmissing
  rw [build_of_bound hfault hnodes hchannels] at h
  split at h
  · cases h
  · rename_i hinit
    cases h
    exact ⟨nodes, hnodes, hchannels, rfl, rfl, behaviours_of_initNodes hinit, rfl, rfl, rfl⟩

/-- An engine that was built is fresh, and has the nodes that were bound. -/
theorem fresh_of_build {e : Engine κ σ ω}
    (hkind : ∀ id k, (id, k) ∈ calls.filterMap Bind.queue? → k = kind id)
    (h : (ofCalls p stop calls).build w = (.ok e, w')) :
    e.Fresh p kind ∧
      ∀ n i, e.nodes[n]? = some i → ∃ j, .node n j ∈ calls ∧ j.behaviour = i.behaviour := by
  have hs := sane_ofCalls p stop calls
  obtain ⟨nodes, hnodes, hchannels, hplan, hpoisoned, hbehaviours, -⟩ := exists_of_build_eq_ok h
  have hlength : e.channels.length = p.graph.edges.length := by
    rw [← hs.channels, hchannels, List.length_map]
  have hqueue {id : EdgeId} (hid : id < p.graph.edges.length) :
      ∃ c, e.channels[id]? = some c ∧ c.kind = kind id ∧ c.capacity = p.room id ∧
        c.available = p.graph.delay id := by
    obtain ⟨c, hc⟩ : ∃ c, e.channels[id]? = some c := ⟨_, List.getElem?_eq_getElem (hlength ▸ hid)⟩
    have hbound : (ofCalls p stop calls).channels[id]? = some (some c) := by
      rw [hchannels, List.getElem?_map, hc]
      rfl
    obtain ⟨hmem, hcapacity, havailable, -⟩ := hs.queued hbound
    exact ⟨c, hc, hkind id _ hmem, hcapacity, havailable⟩
  refine ⟨⟨hplan ▸ hs.plan, ?_, ?_, ?_, hpoisoned⟩, fun n i hi ↦ ?_⟩
  · have hsame := congrArg List.length hbehaviours
    rw [List.length_map, List.length_map] at hsame
    rw [hsame, ← hs.nodes, hnodes, List.length_map]
  · apply List.ext_getElem?
    intro id
    simp only [Channel.shape, List.getElem?_map]
    by_cases hid : id < p.graph.edges.length
    · obtain ⟨c, hc, hk, hcapacity, -⟩ := hqueue hid
      rw [hc, List.getElem?_range hid, Option.map_some, Option.map_some, hk, hcapacity]
    · rw [List.getElem?_eq_none (by omega), List.getElem?_eq_none (by simpa using hid)]
      rfl
  · funext id
    by_cases hid : id < p.graph.edges.length
    · obtain ⟨c, hc, -, -, havailable⟩ := hqueue hid
      rw [Channel.level_of_getElem? hc, havailable]
    · rw [Channel.level, List.getElem?_eq_none (Nat.le_of_not_lt (hlength ▸ hid)),
        Graph.delay_of_length_le (Nat.le_of_not_lt hid)]
      rfl
  · have hget := congrArg (·[n]?) hbehaviours
    simp only [List.getElem?_map, hi, Option.map_some] at hget
    obtain ⟨j, hj, hsame⟩ := Option.map_eq_some_iff.mp hget.symm
    refine ⟨j, hs.bound ?_, hsame⟩
    rw [hnodes, List.getElem?_map, hj]
    rfl

theorem exists_nodes_of_complete (hp : p.Sound) (hc : Complete p calls) (stop : StopToken) :
    ∃ nodes : List (Instance κ σ ω), (ofCalls p stop calls).nodes = nodes.map some := by
  have hs := sane_ofCalls p stop calls
  have hf := filled_ofCalls hp hc stop
  refine exists_of_all_isSome (List.findIdx?_eq_none_iff.mpr fun slot hslot ↦ ?_)
  obtain ⟨n, hn⟩ := List.mem_iff_getElem?.mp hslot
  have hlt : n < p.graph.nodes.length := hs.nodes ▸ (List.getElem?_eq_some_iff.mp hn).1
  obtain ⟨x, hx, hxn⟩ := List.mem_filterMap.mp (hc.nodes.symm.subset (List.mem_range.mpr hlt))
  cases x with
  | node m i =>
    cases hxn
    obtain ⟨j, hj⟩ := hf.node hx
    cases Option.some.inj (hj.symm.trans hn)
    rfl
  | _ => cases hxn

theorem exists_channels_of_complete (hp : p.Sound) (hc : Complete p calls) (stop : StopToken) :
    ∃ channels : List (Channel κ), (ofCalls p stop calls).channels = channels.map some := by
  have hs := sane_ofCalls p stop calls
  have hf := filled_ofCalls hp hc stop
  refine exists_of_all_isSome (List.findIdx?_eq_none_iff.mpr fun slot hslot ↦ ?_)
  obtain ⟨id, hid⟩ := List.mem_iff_getElem?.mp hslot
  have hlt : id < p.graph.edges.length := hs.channels ▸ (List.getElem?_eq_some_iff.mp hid).1
  obtain ⟨⟨id', k⟩, hmem, rfl⟩ := List.mem_map.mp (hc.edges.symm.subset (List.mem_range.mpr hlt))
  obtain ⟨x, hx, hxid⟩ := List.mem_filterMap.mp hmem
  cases x with
  | fifo i k' =>
    cases hxid
    obtain ⟨c, hc'⟩ := hf.queue hx
    cases Option.some.inj (hc'.symm.trans hid)
    rfl
  | storage i k' cells => exact absurd hx (hc.blank i k' cells)
  | _ => cases hxid

/-- When everything is bound, only a node can refuse. -/
theorem build_of_complete (hp : p.Sound) (hc : Complete p calls) (stop : StopToken) (w : World ω) :
    (∃ e w', (ofCalls p stop calls).build w = (.ok e, w')) ∨
      ∃ n code w', (ofCalls p stop calls).build w = (.error (.nodeInit n code), w') := by
  obtain ⟨nodes, hnodes⟩ := exists_nodes_of_complete hp hc stop
  obtain ⟨channels, hchannels⟩ := exists_channels_of_complete hp hc stop
  rw [build_of_bound (filled_ofCalls hp hc stop).fault hnodes hchannels]
  rcases hinit : initNodes 0 nodes w with ⟨started, w'⟩
  cases started with
  | ok started => exact .inl ⟨_, _, rfl⟩
  | error e =>
    obtain ⟨n, code, rfl⟩ := exists_of_initNodes_eq_error hinit
    exact .inr ⟨n, code, w', rfl⟩

end Binding

end Dataflow
