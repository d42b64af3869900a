import Dataflow.Proofs.Engine.Binding

/-!
# Calls in any order

A host may call what it likes, in any order, and only the first mistake counts. Whether a call is a mistake
can be told from the calls before it. To ask for queues on all edges that have none is to ask for them one by
one, so it does nothing that single calls do not.
-/

namespace Dataflow

variable {κ : Type} [ElementKind κ] {σ ω α β : Type}

open ElementKind (Carrier)

/-- One call of a host: a single one, or a queue for every edge that has none. -/
inductive Offer (κ : Type) [ElementKind κ] (σ ω : Type) where
  | one (x : Bind κ σ ω)
  | all (k : κ)

def Bind.edge? (x : Bind κ σ ω) : Option EdgeId := x.queue?.map Prod.fst

/-! ## Mistakes -/

namespace Plan

variable (p : Plan)

/-- What is wrong with a queue for edge `id` when the edges `taken` have theirs. The storage of the host, if
there is one, has `length` cells. -/
def queueOffence (taken : List EdgeId) (id : EdgeId) (k : κ) (length : Option Nat) : Option BindError :=
  match p.graph.edges[id]? with
  | none => some (.unknownEdge id)
  | some e =>
    if e.element.size ≠ ElementKind.size k then
      some (.elementSizeMismatch id e.element.size (ElementKind.size k))
    else if id ∈ taken then some (.duplicateQueue id)
    else (length.filter (· < p.room id)).map fun length ↦ .queue id (.storageTooSmall (p.room id) length)

/-- What is wrong with a call behind the calls `earlier`. -/
def offence (earlier : List (Bind κ σ ω)) : Bind κ σ ω → Option BindError
  | .node n _ =>
    if p.graph.nodes.length ≤ n then some (.unknownNode n)
    else if n ∈ earlier.filterMap Bind.node? then some (.duplicateNode n)
    else none
  | .fifo id k => p.queueOffence (earlier.filterMap Bind.edge?) id k none
  | .storage id k cells => p.queueOffence (earlier.filterMap Bind.edge?) id k (some cells.length)
  | .hooks _ | .stop _ => none

/-- The first mistake in these calls, which come behind the calls `earlier`. -/
def firstOffence (earlier : List (Bind κ σ ω)) : List (Bind κ σ ω) → Option BindError
  | [] => none
  | x :: later => (p.offence earlier x).or (firstOffence (earlier ++ [x]) later)

/-- The first node that these calls leave out, else the first edge. -/
def firstMissing (calls : List (Bind κ σ ω)) : Option BindError :=
  (((List.range p.graph.nodes.length).find? (· ∉ calls.filterMap Bind.node?)).map .missingNode).or
    (((List.range p.graph.edges.length).find? (· ∉ calls.filterMap Bind.edge?)).map .missingQueue)

/-- The edges that these calls leave out. -/
def unbound (calls : List (Bind κ σ ω)) : List EdgeId :=
  (List.range p.graph.edges.length).filter (· ∉ calls.filterMap Bind.edge?)

/-- The calls one by one, behind the calls `earlier`. -/
def single (earlier : List (Bind κ σ ω)) : List (Offer κ σ ω) → List (Bind κ σ ω)
  | [] => []
  | .one x :: later => x :: single (earlier ++ [x]) later
  | .all k :: later =>
    let queues := (p.unbound earlier).map (.fifo · k)
    queues ++ single (earlier ++ queues) later

variable {p} {earlier calls : List (Bind κ σ ω)}

theorem firstOffence_append (earlier calls later : List (Bind κ σ ω)) :
    p.firstOffence earlier (calls ++ later) =
      (p.firstOffence earlier calls).or (p.firstOffence (earlier ++ calls) later) := by
  induction calls generalizing earlier with
  | nil => rw [List.append_nil]; rfl
  | cons x calls ih =>
    rw [List.cons_append, firstOffence, firstOffence, ih, Option.or_assoc, List.append_assoc]
    rfl

theorem firstOffence_singleton (earlier : List (Bind κ σ ω)) (x : Bind κ σ ω) :
    p.firstOffence earlier [x] = p.offence earlier x := Option.or_none

theorem firstOffence_eq_none_iff : p.firstOffence earlier calls = none ↔
    ∀ before x after, calls = before ++ x :: after → p.offence (earlier ++ before) x = none := by
  induction calls generalizing earlier with
  | nil => simp [firstOffence]
  | cons x calls ih =>
    rw [firstOffence, Option.or_eq_none_iff, ih]
    constructor
    · rintro ⟨hfirst, hrest⟩ (_ | ⟨y, before⟩) x' after heq
      · cases heq
        rwa [List.append_nil]
      · cases heq
        simpa using hrest before x' after rfl
    · intro h
      refine ⟨by simpa using h [] x calls rfl, ?_⟩
      rintro before x' after rfl
      simpa using h (x :: before) x' after rfl

end Plan

/-! ## Bindings along calls -/

namespace Binding

variable {p : Plan} {calls : List (Bind κ σ ω)} {b : Binding κ σ ω} {x : Bind κ σ ω}

/-- The binding after these calls knows their first mistake, and without one all that was asked for. -/
structure Tracks (p : Plan) (calls : List (Bind κ σ ω)) (b : Binding κ σ ω) : Prop where
  sane : Sane p calls b
  fault : b.fault = p.firstOffence [] calls
  node (h : b.fault = none) {n : NodeId} (hn : n ∈ calls.filterMap Bind.node?) :
    ∃ i, b.nodes[n]? = some (some i)
  queue (h : b.fault = none) {id : EdgeId} (hid : id ∈ calls.filterMap Bind.edge?) :
    ∃ c, b.channels[id]? = some (some c)

theorem tracks_start (p : Plan) (stop : StopToken) : Tracks p [] (start p stop : Binding κ σ ω) where
  sane := sane_start p stop
  fault := rfl
  node _ _ hn := absurd hn List.not_mem_nil
  queue _ _ hid := absurd hid List.not_mem_nil

theorem Sane.mem_node? (h : Sane p calls b) {n : NodeId} {i : Instance κ σ ω}
    (hi : b.nodes[n]? = some (some i)) : n ∈ calls.filterMap Bind.node? := Binding.mem_node? (h.bound hi)

theorem Sane.mem_edge? (h : Sane p calls b) {id : EdgeId} {c : Channel κ}
    (hc : b.channels[id]? = some (some c)) : id ∈ calls.filterMap Bind.edge? := by
  obtain ⟨x, hx, hqueue⟩ := List.mem_filterMap.mp (h.queued hc).1
  exact List.mem_filterMap.mpr ⟨x, hx, congrArg (Option.map Prod.fst) hqueue⟩

/-- A node that has not been asked for is free. -/
theorem Tracks.getElem?_nodes (h : Tracks p calls b) {n : NodeId} (hn : n < p.graph.nodes.length)
    (hnew : n ∉ calls.filterMap Bind.node?) : b.nodes[n]? = some none := by
  have hlt : n < b.nodes.length := h.sane.nodes ▸ hn
  rw [List.getElem?_eq_getElem hlt]
  cases hslot : b.nodes[n] with
  | none => rfl
  | some i => exact absurd (h.sane.mem_node? (List.getElem?_eq_some_iff.mpr ⟨hlt, hslot⟩)) hnew

theorem Tracks.isSome_channels_iff (h : Tracks p calls b) (hfault : b.fault = none) {id : EdgeId} :
    (b.channels[id]?.join).isSome ↔ id ∈ calls.filterMap Bind.edge? := by
  constructor
  · intro hsome
    obtain ⟨c, hc⟩ := Option.isSome_iff_exists.mp hsome
    exact h.sane.mem_edge? (Option.join_eq_some_iff.mp hc)
  · intro hid
    obtain ⟨c, hc⟩ := h.queue hfault hid
    rw [hc]
    rfl

theorem Tracks.node_eq (h : Tracks p calls b) (hfault : b.fault = none) (n : NodeId) (i : Instance κ σ ω) :
    b.node n i =
      match p.offence calls (.node n i) with
      | some e => b.fail e
      | none => { b with nodes := b.nodes.set n (some i) } := by
  simp only [Binding.node, hfault, Option.isSome_none, Bool.false_eq_true, if_false, Plan.offence]
  by_cases hn : p.graph.nodes.length ≤ n
  · rw [List.getElem?_eq_none (h.sane.nodes ▸ hn), if_pos hn]
  by_cases hmem : n ∈ calls.filterMap Bind.node?
  · obtain ⟨j, hj⟩ := h.node hfault hmem
    rw [hj, if_neg hn, if_pos hmem]
  · rw [h.getElem?_nodes (Nat.lt_of_not_le hn) hmem, if_neg hn, if_neg hmem]

/-- A queue that is made as long as the storage does is bound, unless something is wrong with the call. -/
theorem Tracks.queue_eq (h : Tracks p calls b) (hfault : b.fault = none) {id : EdgeId} {k : κ}
    {make : Nat → Nat → Except FifoError (Fifo (Carrier k))} {length : Option Nat}
    (hmake : ∀ e, p.graph.edges[id]? = some e →
      Fold.Ends (make (p.room id) e.delay.toNat) (fun _ ↦ length.filter (· < p.room id) = none)
        (fun error ↦ ∃ l, length.filter (· < p.room id) = some l ∧
          error = .storageTooSmall (p.room id) l)) :
    match p.queueOffence (calls.filterMap Bind.edge?) id k length with
    | some e => b.queue id k make = b.fail e
    | none => id < b.channels.length ∧
      ∃ q, b.queue id k make = { b with channels := b.channels.set id (some ⟨k, q⟩) } := by
  simp only [Binding.queue, hfault, h.sane.plan, Option.isSome_none, Bool.false_eq_true, if_false,
    Plan.queueOffence, h.isSome_channels_iff hfault]
  cases he : p.graph.edges[id]? with
  | none => rfl
  | some e =>
    have hid : id < b.channels.length := by
      rw [h.sane.channels]
      exact (List.getElem?_eq_some_iff.mp he).1
    dsimp only
    by_cases hsize : e.element.size ≠ ElementKind.size k
    · simp only [if_pos hsize]
    by_cases htaken : id ∈ calls.filterMap Bind.edge?
    · simp only [if_neg hsize, if_pos htaken]
    simp only [if_neg hsize, if_neg htaken]
    have hroom : (p.capacity? id).getD 0 = p.room id := rfl
    rw [hroom]
    have hends := hmake e he
    cases hresult : make (p.room id) e.delay.toNat with
    | error error =>
      obtain ⟨l, hl, rfl⟩ := hends.error hresult
      rw [hl]
      rfl
    | ok q =>
      rw [hresult] at hends
      have hnone : length.filter (· < p.room id) = none := hends
      rw [hnone]
      exact ⟨hid, q, rfl⟩

/-- In a plan the storage of the host is all that can be too small. -/
theorem ends_ofStorage (hp : p.Sound) {id : EdgeId} {e : Edge} (he : p.graph.edges[id]? = some e)
    (cells : List α) :
    Fold.Ends (Fifo.ofStorage cells (p.room id) e.delay.toNat) (fun _ ↦ p.room id ≤ cells.length)
      (fun error ↦ cells.length < p.room id ∧ error = .storageTooSmall (p.room id) cells.length) := by
  have hpos := hp.room_pos (List.getElem?_eq_some_iff.mp he).1
  have hdelay : e.delay.toNat ≤ p.room id := by
    have hle := hp.delay_le id
    rwa [Graph.delay, he] at hle
  unfold Fifo.ofStorage
  rw [dif_neg (Nat.ne_of_gt hpos)]
  by_cases hsmall : cells.length < p.room id
  · rw [dif_pos hsmall]
    exact ⟨hsmall, rfl⟩
  · rw [dif_neg hsmall, dif_neg (Nat.not_lt.mpr hdelay)]
    exact Nat.not_lt.mp hsmall

theorem Tracks.fifo_eq (hp : p.Sound) (h : Tracks p calls b) (hfault : b.fault = none) (id : EdgeId) (k : κ) :
    match p.offence calls (.fifo id k) with
    | some e => b.fifo id k = b.fail e
    | none => id < b.channels.length ∧
      ∃ q, b.fifo id k = { b with channels := b.channels.set id (some ⟨k, q⟩) } := by
  refine h.queue_eq hfault fun e he ↦ ?_
  have hends := ends_ofStorage hp he (List.replicate (p.room id) (ElementKind.blank k))
  rw [List.length_replicate] at hends
  refine (hends.mono fun _ _ _ ↦ rfl).mono_error fun error herror ↦ absurd herror.1 (Nat.lt_irrefl _)

theorem Tracks.fifoStorage_eq (hp : p.Sound) (h : Tracks p calls b) (hfault : b.fault = none) (id : EdgeId)
    (k : κ) (cells : List (Carrier k)) :
    match p.offence calls (.storage id k cells) with
    | some e => b.fifoStorage id k cells = b.fail e
    | none => id < b.channels.length ∧
      ∃ q, b.fifoStorage id k cells = { b with channels := b.channels.set id (some ⟨k, q⟩) } := by
  refine h.queue_eq hfault fun e he ↦ ?_
  refine ((ends_ofStorage hp he cells).mono fun _ _ hle ↦ ?_).mono_error fun error ⟨hlt, herror⟩ ↦ ?_
  · simpa using hle
  · exact ⟨cells.length, by simpa using hlt, herror⟩

/-- Behind the first mistake a call has no effect on it. -/
theorem fault_apply_of_isSome {e : BindError} (h : b.fault = some e) (x : Bind κ σ ω) :
    (b.apply x).fault = some e := by
  cases x <;> simp [apply, Binding.node, fifo, fifoStorage, queue, withHooks, withStop, h]

theorem Tracks.apply_of_offence (hp : p.Sound) (h : Tracks p calls b) (hfault : b.fault = none)
    {e : BindError} (he : p.offence calls x = some e) : b.apply x = b.fail e := by
  cases x with
  | node n i =>
    have hnode := h.node_eq hfault n i
    rwa [he] at hnode
  | fifo id k =>
    have hfifo := h.fifo_eq hp hfault id k
    rwa [he] at hfifo
  | storage id k cells =>
    have hfifo := h.fifoStorage_eq hp hfault id k cells
    rwa [he] at hfifo
  | _ => cases he

theorem of_none_or {m : Nat} {P : Prop} (h : none = some m ∨ P) : P :=
  h.resolve_left (Option.some_ne_none m).symm

theorem exists_getElem?_set {l : List (Option α)} {m n : Nat} {a : α} (hn : n < l.length)
    (h : m = n ∨ ∃ a', l[m]? = some (some a')) : ∃ a', (l.set n (some a))[m]? = some (some a') := by
  by_cases heq : n = m
  · exact ⟨a, heq ▸ List.getElem?_set_self hn⟩
  · rw [List.getElem?_set_ne heq]
    exact h.resolve_left (Ne.symm heq)

theorem Tracks.of_fault (h : Tracks p calls b) {e : BindError} (hfault : (b.apply x).fault = some e)
    (he : p.firstOffence [] (calls ++ [x]) = some e) : Tracks p (calls ++ [x]) (b.apply x) where
  sane := h.sane.apply x
  fault := hfault.trans he.symm
  node hnone := by rw [hfault] at hnone; cases hnone
  queue hnone := by rw [hfault] at hnone; cases hnone

/-- Behind a call that is no mistake, all that was bound is bound, and what the call names is too. -/
theorem Tracks.extend (h : Tracks p calls b) (hfault : b.fault = none) (hnone : p.offence calls x = none)
    {b' : Binding κ σ ω} (hsane : Sane p (calls ++ [x]) b') (hsame : b'.fault = b.fault)
    (hnodes : ∀ m, (x.node? = some m ∨ ∃ i, b.nodes[m]? = some (some i)) →
      ∃ i, b'.nodes[m]? = some (some i))
    (hchannels : ∀ m, (x.edge? = some m ∨ ∃ c, b.channels[m]? = some (some c)) →
      ∃ c, b'.channels[m]? = some (some c)) : Tracks p (calls ++ [x]) b' where
  sane := hsane
  fault := by
    rw [hsame, Plan.firstOffence_append, ← h.fault, hfault, List.nil_append, Plan.firstOffence_singleton,
      hnone]
    rfl
  node _ m hm := by
    rw [List.filterMap_append, List.mem_append] at hm
    rcases hm with hm | hm
    · exact hnodes m (.inr (h.node hfault hm))
    · exact hnodes m (.inl (by simpa using hm))
  queue _ m hm := by
    rw [List.filterMap_append, List.mem_append] at hm
    rcases hm with hm | hm
    · exact hchannels m (.inr (h.queue hfault hm))
    · exact hchannels m (.inl (by simpa using hm))

/-- A call that is no mistake binds what it is about. -/
theorem Tracks.of_offence_eq_none (hp : p.Sound) (h : Tracks p calls b) (hfault : b.fault = none)
    (hnone : p.offence calls x = none) : Tracks p (calls ++ [x]) (b.apply x) := by
  have hsane := h.sane.apply x
  cases x with
  | node n i =>
    have hnode : b.apply (.node n i) = _ := h.node_eq hfault n i
    have hn : n < b.nodes.length := by
      rw [h.sane.nodes]
      by_contra hlt
      rw [Plan.offence, if_pos (Nat.le_of_not_lt hlt)] at hnone
      cases hnone
    rw [hnone] at hnode
    rw [hnode] at hsane ⊢
    refine h.extend hfault hnone hsane rfl (fun m hm ↦ ?_) fun _ ↦ of_none_or
    exact exists_getElem?_set hn (hm.imp_left fun hx ↦ (Option.some.inj hx).symm)
  | fifo id k =>
    have hfifo := h.fifo_eq hp hfault id k
    rw [hnone] at hfifo
    obtain ⟨hid, q, heq⟩ := hfifo
    rw [Binding.apply, heq] at hsane ⊢
    refine h.extend hfault hnone hsane rfl (fun _ ↦ of_none_or) fun m hm ↦ ?_
    exact exists_getElem?_set hid (hm.imp_left fun hx ↦ (Option.some.inj hx).symm)
  | storage id k cells =>
    have hfifo := h.fifoStorage_eq hp hfault id k cells
    rw [hnone] at hfifo
    obtain ⟨hid, q, heq⟩ := hfifo
    rw [Binding.apply, heq] at hsane ⊢
    refine h.extend hfault hnone hsane rfl (fun _ ↦ of_none_or) fun m hm ↦ ?_
    exact exists_getElem?_set hid (hm.imp_left fun hx ↦ (Option.some.inj hx).symm)
  | hooks | stop =>
    exact h.extend hfault hnone hsane rfl (fun _ ↦ of_none_or) fun _ ↦ of_none_or

theorem Tracks.step (hp : p.Sound) (h : Tracks p calls b) (x : Bind κ σ ω) :
    Tracks p (calls ++ [x]) (b.apply x) := by
  have hfirst : p.firstOffence [] (calls ++ [x]) = b.fault.or (p.offence calls x) := by
    rw [Plan.firstOffence_append, ← h.fault, List.nil_append, Plan.firstOffence_singleton]
  cases hfault : b.fault with
  | some e => exact h.of_fault (fault_apply_of_isSome hfault x) (by rw [hfirst, hfault]; rfl)
  | none =>
    cases hoffence : p.offence calls x with
    | some e =>
      refine h.of_fault (e := e) ?_ (by rw [hfirst, hfault, hoffence]; rfl)
      rw [h.apply_of_offence hp hfault hoffence]
      rfl
    | none => exact h.of_offence_eq_none hp hfault hoffence

theorem Tracks.foldl (hp : p.Sound) (h : Tracks p calls b) (later : List (Bind κ σ ω)) :
    Tracks p (calls ++ later) (later.foldl apply b) := by
  induction later generalizing calls b with
  | nil => rwa [List.append_nil]
  | cons x later ih =>
    rw [List.append_cons]
    exact ih (h.step hp x)

theorem tracks_ofCalls (hp : p.Sound) (stop : StopToken) (calls : List (Bind κ σ ω)) :
    Tracks p calls (ofCalls p stop calls) := (tracks_start p stop).foldl hp calls

/-! ## Queues for all that is left -/

def accept (b : Binding κ σ ω) : Offer κ σ ω → Binding κ σ ω
  | .one x => b.apply x
  | .all k => b.fifoAll k

def ofOffers (p : Plan) (stop : StopToken) (offers : List (Offer κ σ ω)) : Binding κ σ ω :=
  offers.foldl accept (start p stop)

theorem getElem?_channels_fifo (b : Binding κ σ ω) {id id' : EdgeId} (hne : id ≠ id') (k : κ) :
    (b.fifo id k).channels[id']? = b.channels[id']? := by
  unfold fifo queue
  repeat' split
  all_goals first | rfl | exact List.getElem?_set_ne hne

/-- A queue for one edge leaves open what the others have, so it can be told beforehand which get one. -/
theorem foldl_fifo_eq (k : κ) {ids : List EdgeId} (hnodup : ids.Nodup) (b : Binding κ σ ω) :
    ids.foldl (fun b id ↦ if (b.channels[id]?.join).isNone then b.fifo id k else b) b =
      (ids.filter fun id ↦ (b.channels[id]?.join).isNone).foldl (fun b id ↦ b.fifo id k) b := by
  induction ids generalizing b with
  | nil => rfl
  | cons id ids ih =>
    obtain ⟨hnot, hnodup⟩ := List.nodup_cons.mp hnodup
    rw [List.foldl_cons, ih hnodup]
    by_cases hnone : (b.channels[id]?.join).isNone
    · rw [if_pos hnone, List.filter_cons_of_pos (by exact hnone), List.foldl_cons]
      congr 1
      refine List.filter_congr fun id' hid' ↦ ?_
      have hne : id ≠ id' := fun heq ↦ hnot (heq ▸ hid')
      rw [b.getElem?_channels_fifo hne k]
    · rw [if_neg hnone, List.filter_cons_of_neg (by exact hnone)]

theorem foldl_fifo_of_fault {e : BindError} (h : b.fault = some e) (k : κ) (ids : List EdgeId) :
    ids.foldl (fun b id ↦ b.fifo id k) b = b := by
  induction ids with
  | nil => rfl
  | cons id ids ih =>
    have hsame : b.fifo id k = b := by simp [fifo, queue, h]
    rw [List.foldl_cons, hsame, ih]

theorem Tracks.fifoAll_eq (h : Tracks p calls b) (k : κ) :
    b.fifoAll k = ((p.unbound calls).map (.fifo · k)).foldl apply b := by
  rw [fifoAll, foldl_fifo_eq k List.nodup_range, List.foldl_map]
  change _ = (p.unbound calls).foldl (fun b id ↦ b.fifo id k) b
  cases hfault : b.fault with
  | some e => rw [foldl_fifo_of_fault hfault, foldl_fifo_of_fault hfault]
  | none =>
    rw [Plan.unbound, h.sane.channels]
    congr 1
    refine List.filter_congr fun id _ ↦ ?_
    rw [Bool.eq_iff_iff, decide_eq_true_iff, ← h.isSome_channels_iff hfault]
    simp

theorem Tracks.foldl_accept (hp : p.Sound) (h : Tracks p calls b) (offers : List (Offer κ σ ω)) :
    offers.foldl accept b = (p.single calls offers).foldl apply b := by
  induction offers generalizing calls b with
  | nil => rfl
  | cons offer offers ih =>
    cases offer with
    | one x => exact ih (h.step hp x)
    | all k =>
      rw [List.foldl_cons, Plan.single, List.foldl_append, ← h.fifoAll_eq]
      refine ih ?_
      rw [accept, h.fifoAll_eq]
      exact h.foldl hp _

/-- All that a host calls can be called one by one. -/
theorem ofOffers_eq (hp : p.Sound) (stop : StopToken) (offers : List (Offer κ σ ω)) :
    ofOffers p stop offers = ofCalls p stop (p.single [] offers) :=
  (tracks_start p stop).foldl_accept hp offers

/-! ## Nothing is wrong -/

/-- Every node and every edge is bound once and nothing else is, each edge to a queue for elements of its
size, and in storage of the host only if that is large enough. -/
structure Exact (p : Plan) (calls : List (Bind κ σ ω)) : Prop where
  nodes : (calls.filterMap Bind.node?).Perm (List.range p.graph.nodes.length)
  edges : (calls.filterMap Bind.edge?).Perm (List.range p.graph.edges.length)
  sizes {id : EdgeId} {k : κ} (h : (id, k) ∈ calls.filterMap Bind.queue?) {e : Edge}
    (he : p.graph.edges[id]? = some e) : e.element.size = ElementKind.size k
  storage {id : EdgeId} {k : κ} {cells : List (Carrier k)} (h : .storage id k cells ∈ calls) :
    p.room id ≤ cells.length

theorem nodup_filterMap_iff {f : α → Option β} {l : List α} : (l.filterMap f).Nodup ↔
    ∀ before a after, l = before ++ a :: after → ∀ b, f a = some b → b ∉ before.filterMap f := by
  constructor
  · rintro h before a after rfl b hb
    have hprefix : ((before ++ [a]).filterMap f).Nodup :=
      h.sublist (List.Sublist.filterMap f (by simp))
    exact not_mem_of_nodup hprefix hb
  · intro h
    induction l using List.reverseRecOn with
    | nil => exact List.nodup_nil
    | append_singleton l a ih =>
      have hinit := ih fun before a' after heq ↦ h before a' (after ++ [a]) (by simp [heq])
      rw [List.filterMap_append, List.nodup_append]
      refine ⟨hinit, ?_, fun b hb b' hb' ↦ ?_⟩
      · cases hfa : f a <;> simp [hfa]
      · have hb' : f a = some b' := by simpa using hb'
        rintro rfl
        exact h l a [] rfl b hb' hb

theorem queueOffence_eq_none_iff {taken : List EdgeId} {id : EdgeId} {k : κ} {length : Option Nat} :
    p.queueOffence taken id k length = none ↔
      (∃ e, p.graph.edges[id]? = some e ∧ e.element.size = ElementKind.size k) ∧ id ∉ taken ∧
        ∀ l ∈ length, p.room id ≤ l := by
  unfold Plan.queueOffence
  cases p.graph.edges[id]? with
  | none => simp
  | some e =>
    by_cases hsize : e.element.size = ElementKind.size k <;> by_cases htaken : id ∈ taken <;>
      simp [hsize, htaken, Option.filter_eq_none_iff]

/-- Nothing is wrong with a call about a known node or edge that is new, with the right size and enough
storage. -/
theorem offence_eq_none_iff {earlier : List (Bind κ σ ω)} : p.offence earlier x = none ↔
    (∀ n, x.node? = some n → n < p.graph.nodes.length ∧ n ∉ earlier.filterMap Bind.node?) ∧
      (∀ id k, x.queue? = some (id, k) →
        (∃ e, p.graph.edges[id]? = some e ∧ e.element.size = ElementKind.size k) ∧
          id ∉ earlier.filterMap Bind.edge?) ∧
      ∀ id k cells, x = .storage id k cells → p.room id ≤ cells.length := by
  cases x with
  | node n i =>
    have hnode : p.offence earlier (.node n i) = none ↔
        n < p.graph.nodes.length ∧ n ∉ earlier.filterMap Bind.node? := by
      rw [Plan.offence, ← Nat.not_le]
      split
      · simp_all
      · split <;> simp_all
    rw [hnode]
    refine ⟨fun h ↦ ⟨fun m hm ↦ ?_, nofun, nofun⟩, fun h ↦ h.1 n rfl⟩
    cases hm
    exact h
  | fifo id k =>
    rw [Plan.offence, queueOffence_eq_none_iff]
    refine ⟨fun h ↦ ⟨nofun, fun id' k' hqueue ↦ ?_, nofun⟩, fun h ↦ ?_⟩
    · cases hqueue
      exact ⟨h.1, h.2.1⟩
    · obtain ⟨hedge, hnew⟩ := h.2.1 id k rfl
      exact ⟨hedge, hnew, nofun⟩
  | storage id k cells =>
    rw [Plan.offence, queueOffence_eq_none_iff]
    refine ⟨fun h ↦ ⟨nofun, fun id' k' hqueue ↦ ?_, fun id' k' cells' hx ↦ ?_⟩, fun h ↦ ?_⟩
    · cases hqueue
      exact ⟨h.1, h.2.1⟩
    · cases hx
      exact h.2.2 _ rfl
    · obtain ⟨hedge, hnew⟩ := h.2.1 id k rfl
      refine ⟨hedge, hnew, fun l hl ↦ ?_⟩
      cases hl
      exact h.2.2 id k cells rfl
  | hooks hooks => exact ⟨fun _ ↦ ⟨nofun, nofun, nofun⟩, fun _ ↦ rfl⟩
  | stop stop => exact ⟨fun _ ↦ ⟨nofun, nofun, nofun⟩, fun _ ↦ rfl⟩

theorem firstMissing_eq_none_iff : p.firstMissing calls = none ↔
    (∀ n < p.graph.nodes.length, n ∈ calls.filterMap Bind.node?) ∧
      ∀ id < p.graph.edges.length, id ∈ calls.filterMap Bind.edge? := by
  simp only [Plan.firstMissing, Option.or_eq_none_iff, Option.map_eq_none_iff, List.find?_eq_none,
    List.mem_range, decide_eq_true_eq, not_not]

theorem Exact.offence_eq_none (h : Exact p calls) {before after : List (Bind κ σ ω)}
    (heq : calls = before ++ x :: after) : p.offence before x = none := by
  have hx : x ∈ calls := by simp [heq]
  have hnodes := nodup_filterMap_iff.mp (h.nodes.nodup_iff.mpr List.nodup_range) before x after heq
  have hedges := nodup_filterMap_iff.mp (h.edges.nodup_iff.mpr List.nodup_range) before x after heq
  refine offence_eq_none_iff.mpr ⟨fun n hn ↦ ⟨?_, hnodes n hn⟩, fun id k hqueue ↦ ?_, ?_⟩
  · exact List.mem_range.mp (h.nodes.subset (List.mem_filterMap.mpr ⟨x, hx, hn⟩))
  · have hedge : x.edge? = some id := congrArg (Option.map Prod.fst) hqueue
    have hid := List.mem_range.mp (h.edges.subset (List.mem_filterMap.mpr ⟨x, hx, hedge⟩))
    have he := List.getElem?_eq_getElem hid
    exact ⟨⟨_, he, h.sizes (List.mem_filterMap.mpr ⟨x, hx, hqueue⟩) he⟩, hedges id hedge⟩
  · rintro id k cells rfl
    exact h.storage hx

theorem exact_of_forall (h : ∀ before x after, calls = before ++ x :: after → p.offence before x = none)
    (hnodes : ∀ n < p.graph.nodes.length, n ∈ calls.filterMap Bind.node?)
    (hedges : ∀ id < p.graph.edges.length, id ∈ calls.filterMap Bind.edge?) : Exact p calls := by
  simp only [offence_eq_none_iff] at h
  have hqueue {x : Bind κ σ ω} (hx : x ∈ calls) {id : EdgeId} {k : κ} (hxq : x.queue? = some (id, k)) :
      ∃ e, p.graph.edges[id]? = some e ∧ e.element.size = ElementKind.size k := by
    obtain ⟨before, after, heq⟩ := List.append_of_mem hx
    exact ((h before x after heq).2.1 id k hxq).1
  refine ⟨?_, ?_, fun {id k} hmem e he ↦ ?_, fun {id k cells} hx ↦ ?_⟩
  · refine (List.perm_ext_iff_of_nodup ?_ List.nodup_range).mpr fun n ↦ ⟨fun hn ↦ ?_, fun hn ↦ ?_⟩
    · exact nodup_filterMap_iff.mpr fun before x after heq n hn ↦ ((h before x after heq).1 n hn).2
    · obtain ⟨x, hx, hxn⟩ := List.mem_filterMap.mp hn
      obtain ⟨before, after, heq⟩ := List.append_of_mem hx
      exact List.mem_range.mpr ((h before x after heq).1 n hxn).1
    · exact hnodes n (List.mem_range.mp hn)
  · refine (List.perm_ext_iff_of_nodup ?_ List.nodup_range).mpr fun id ↦ ⟨fun hid ↦ ?_, fun hid ↦ ?_⟩
    · refine nodup_filterMap_iff.mpr fun before x after heq id hid ↦ ?_
      obtain ⟨⟨id', k⟩, hxq, rfl⟩ := Option.map_eq_some_iff.mp hid
      exact ((h before x after heq).2.1 id' k hxq).2
    · obtain ⟨x, hx, hxid⟩ := List.mem_filterMap.mp hid
      obtain ⟨⟨id', k⟩, hxq, rfl⟩ := Option.map_eq_some_iff.mp hxid
      obtain ⟨e, he, -⟩ := hqueue hx hxq
      exact List.mem_range.mpr (List.getElem?_eq_some_iff.mp he).1
    · exact hedges id (List.mem_range.mp hid)
  · obtain ⟨x, hx, hxq⟩ := List.mem_filterMap.mp hmem
    obtain ⟨e', he', hsize⟩ := hqueue hx hxq
    cases he.symm.trans he'
    exact hsize
  · obtain ⟨before, after, heq⟩ := List.append_of_mem hx
    exact (h before _ after heq).2.2 id k cells rfl

/-- Without a mistake and with nothing missing the calls are exact. -/
theorem exact_iff : Exact p calls ↔ p.firstOffence [] calls = none ∧ p.firstMissing calls = none := by
  rw [Plan.firstOffence_eq_none_iff, firstMissing_eq_none_iff]
  simp only [List.nil_append]
  constructor
  · intro h
    exact ⟨fun before x after heq ↦ h.offence_eq_none heq,
      fun n hn ↦ h.nodes.symm.subset (List.mem_range.mpr hn),
      fun id hid ↦ h.edges.symm.subset (List.mem_range.mpr hid)⟩
  · rintro ⟨h, hnodes, hedges⟩
    exact exact_of_forall h hnodes hedges

/-! ## What is missing -/

theorem findIdx?_isNone_eq {l : List (Option α)} {ids : List Nat}
    (h : ∀ n < l.length, (l[n]?.join).isSome ↔ n ∈ ids) :
    l.findIdx? (·.isNone) = (List.range l.length).find? (· ∉ ids) := by
  have hat {n : Nat} (hn : n < l.length) : l[n].isNone ↔ n ∉ ids := by
    rw [← h n hn, List.getElem?_eq_getElem hn, Option.join_some]
    cases l[n] <;> simp
  refine Option.ext fun n ↦ ?_
  rw [List.findIdx?_eq_some_iff_getElem, List.find?_range_eq_some]
  simp only [decide_eq_true_eq, List.mem_range, Bool.not_eq_true', decide_eq_false_iff_not]
  constructor
  · rintro ⟨hn, hnone, hbefore⟩
    exact ⟨(hat hn).mp hnone, hn, fun j hj hmem ↦ hbefore j hj ((hat (hj.trans hn)).mpr hmem)⟩
  · rintro ⟨hnone, hn, hbefore⟩
    exact ⟨hn, (hat hn).mpr hnone, fun j hj hmem ↦ hbefore j hj ((hat (hj.trans hn)).mp hmem)⟩

/-- What is reported is the first mistake, else what is missing. -/
theorem Tracks.refusal_eq (h : Tracks p calls b) :
    (b.fault.orElse fun _ ↦ b.missing) = (p.firstOffence [] calls).or (p.firstMissing calls) := by
  rw [← h.fault]
  cases hfault : b.fault with
  | some e => rfl
  | none =>
    have hnodes : b.nodes.findIdx? (·.isNone) =
        (List.range p.graph.nodes.length).find? (· ∉ calls.filterMap Bind.node?) := by
      rw [← h.sane.nodes]
      refine findIdx?_isNone_eq fun n hn ↦ ⟨fun hsome ↦ ?_, fun hmem ↦ ?_⟩
      · obtain ⟨i, hi⟩ := Option.isSome_iff_exists.mp hsome
        exact h.sane.mem_node? (Option.join_eq_some_iff.mp hi)
      · obtain ⟨i, hi⟩ := h.node hfault hmem
        rw [hi]
        rfl
    have hchannels : b.channels.findIdx? (·.isNone) =
        (List.range p.graph.edges.length).find? (· ∉ calls.filterMap Bind.edge?) := by
      rw [← h.sane.channels]
      exact findIdx?_isNone_eq fun id _ ↦ h.isSome_channels_iff hfault
    change b.missing = p.firstMissing calls
    rw [missing, hnodes, hchannels, Plan.firstMissing]
    cases (List.range p.graph.nodes.length).find? (· ∉ calls.filterMap Bind.node?) <;> rfl

end Binding

end Dataflow
