import Dataflow.Engine.Ports
import Dataflow.Proofs.Fifo.ListQueue
import Dataflow.Proofs.Fold
import Dataflow.Proofs.Schedule.Tokens

/-!
# Operations on ports

An operation changes the queues of the ports it names and no others, and a queue never changes its kind
or its capacity. Seen through the contents of the queues, popping takes a rate off the front and pushing
appends one; both succeed exactly when there are elements or room.
-/

namespace Dataflow

variable {κ : Type} [ElementKind κ]

open ElementKind (Carrier)

/-! ## Queues by edge -/

namespace Channel

/-- The number of elements on each edge. -/
def level (channels : List (Channel κ)) : Levels := fun id ↦ (channels[id]?.map available).getD 0

/-- The elements on an edge that holds elements of kind `k`. -/
def contents (channels : List (Channel κ)) (id : EdgeId) (k : κ) : List (Carrier k) :=
  ((channels[id]?.bind (·.queue? k)).map Fifo.contents).getD []

/-- The kinds and capacities of the queues, in order. -/
def shape (channels : List (Channel κ)) : List (κ × Nat) := channels.map fun c ↦ (c.kind, c.capacity)

/-- What is fixed about a queue: the kind of its elements, its capacity and its initial tokens. -/
def origin (c : Channel κ) : (k : κ) × Nat × List (Carrier k) := ⟨c.kind, c.queue.toListQueue.fixed⟩

theorem level_of_getElem? {channels : List (Channel κ)} {id : EdgeId} {c : Channel κ}
    (h : channels[id]? = some c) : level channels id = c.available := by
  simp [level, h]

theorem level_congr {channels channels' : List (Channel κ)} {id : EdgeId}
    (h : channels'[id]? = channels[id]?) : level channels' id = level channels id := by
  rw [level, level, h]

theorem contents_of_getElem? {channels : List (Channel κ)} {id : EdgeId} {k : κ}
    {q : Fifo (Carrier k)} (h : channels[id]? = some ⟨k, q⟩) : contents channels id k = q.contents := by
  simp [contents, h]

theorem contents_congr {channels channels' : List (Channel κ)} {id : EdgeId}
    (h : channels'[id]? = channels[id]?) (k : κ) : contents channels' id k = contents channels id k := by
  rw [contents, contents, h]

theorem length_contents {channels : List (Channel κ)} {id : EdgeId} {k : κ} {q : Fifo (Carrier k)}
    (h : channels[id]? = some ⟨k, q⟩) : (contents channels id k).length = level channels id := by
  rw [contents_of_getElem? h, level_of_getElem? h, Fifo.length_contents]
  rfl

theorem shape_of_origins {channels channels' : List (Channel κ)}
    (h : channels'.map origin = channels.map origin) : shape channels' = shape channels := by
  have hshape := congrArg (List.map fun o ↦ (o.1, o.2.1)) h
  rwa [List.map_map, List.map_map] at hshape

theorem origins_set {channels : List (Channel κ)} {id : EdgeId} {c c' : Channel κ}
    (h : channels[id]? = some c) (horigin : c'.origin = c.origin) :
    (channels.set id c').map origin = channels.map origin := by
  have hlt : id < channels.length := (List.getElem?_eq_some_iff.mp h).1
  apply List.ext_getElem?
  intro i
  simp only [List.getElem?_map, List.getElem?_set]
  by_cases hi : id = i
  · subst hi
    rw [if_pos rfl, if_pos hlt, h, Option.map_some, Option.map_some, horigin]
  · simp [hi]

theorem origins_modify (channels : List (Channel κ)) (id : EdgeId) {f : Channel κ → Channel κ}
    (horigin : ∀ c, (f c).origin = c.origin) :
    (channels.modify id f).map origin = channels.map origin := by
  apply List.ext_getElem?
  intro i
  simp only [List.getElem?_map, List.getElem?_modify]
  cases channels[i]? with
  | none => simp
  | some c => by_cases hi : id = i <;> simp [hi, horigin]

theorem origin_fill (c : Channel κ) (k : κ) (r : Lent k) (values : List (Carrier k)) :
    (c.fill k r values).origin = c.origin := by
  obtain ⟨kind, q⟩ := c
  unfold fill
  split
  · rename_i h
    cases h
    exact congrArg (Sigma.mk _) (q.fixed_fill r values)
  · rfl

/-- A queue of kind `k` on an edge is the one that stands there. -/
theorem eq_ok_of_typed {channels : List (Channel κ)} {k : κ} {id : EdgeId} {q : Fifo (Carrier k)}
    (h : typed channels k id = .ok q) : channels[id]? = some ⟨k, q⟩ := by
  unfold typed at h
  cases hc : channels[id]? with
  | none => simp [hc] at h
  | some c =>
    obtain ⟨kind, q'⟩ := c
    by_cases hk : kind = k
    · subst hk
      simp only [hc, Option.bind_some, queue?_mk, Except.ok.injEq] at h
      rw [h]
    · have hnone := (queue?_eq_none_iff (⟨kind, q'⟩ : Channel κ) k).mpr hk
      simp [hc, hnone] at h

theorem typed_of_getElem? {channels : List (Channel κ)} {k : κ} {id : EdgeId}
    {q : Fifo (Carrier k)} (h : channels[id]? = some ⟨k, q⟩) : typed channels k id = .ok q := by
  simp [typed, h]

/-- To fill the cells of a queue that has just been put on its edge is to put the filled queue there. -/
theorem apply_put (channels : List (Channel κ)) (k : κ) (id : EdgeId) (q : Fifo (Carrier k)) (r : Lent k)
    (values : List (Carrier k)) :
    (Filling.mk id k r values).apply (put channels k id q) = put channels k id (q.fill r values) := by
  apply List.ext_getElem?
  intro i
  simp only [Filling.apply, put, List.getElem?_modify, List.getElem?_set]
  by_cases hi : id = i
  · subst hi
    by_cases hlt : id < channels.length <;> simp [hlt, fill]
  · simp [hi]

end Channel

/-- Where `touched` does not hold, nothing has changed, and nowhere what is fixed about a queue. -/
structure Channel.Altered (touched : EdgeId → Prop) (before after : List (Channel κ)) : Prop where
  origins : after.map origin = before.map origin
  others (id : EdgeId) (h : ¬ touched id) : after[id]? = before[id]?

namespace Channel.Altered

variable {touched touched' : EdgeId → Prop} {channels channels' channels'' : List (Channel κ)}

theorem shape (h : Altered touched channels channels') :
    Channel.shape channels' = Channel.shape channels := shape_of_origins h.origins

theorem refl (touched : EdgeId → Prop) (channels : List (Channel κ)) :
    Altered touched channels channels := ⟨rfl, fun _ _ ↦ rfl⟩

theorem trans (h : Altered touched channels channels') (h' : Altered touched channels' channels'') :
    Altered touched channels channels'' where
  origins := h'.origins.trans h.origins
  others id hid := (h'.others id hid).trans (h.others id hid)

theorem mono (h : Altered touched channels channels') (himp : ∀ id, touched id → touched' id) :
    Altered touched' channels channels' where
  origins := h.origins
  others id hid := h.others id fun hid' ↦ hid (himp id hid')

theorem put {k : κ} {id : EdgeId} {q q' : Fifo (Carrier k)} (h : channels[id]? = some ⟨k, q⟩)
    (hfixed : q'.toListQueue.fixed = q.toListQueue.fixed) (hid : touched id) :
    Altered touched channels (Channel.put channels k id q') where
  origins := origins_set h (congrArg (Sigma.mk k) hfixed)
  others id' hid' := List.getElem?_set_ne (by rintro rfl; exact hid' hid)

theorem fill (f : Filling κ) (hid : touched f.edge) :
    Altered touched channels (f.apply channels) where
  origins := origins_modify _ _ fun c ↦ origin_fill c f.kind f.region f.values
  others id hid' := List.getElem?_modify_ne _ _ (by rintro rfl; exact hid' hid)

theorem read {k : κ} {id : EdgeId} {q q' : Fifo (Carrier k)} {length : Nat} {r : Lent k}
    (hq : typed channels k id = .ok q) (hread : q.reserveRead length = .ok (r, q'))
    (hid : touched id) : Altered touched channels (Channel.put channels k id q') :=
  .put (eq_ok_of_typed hq) (Fifo.fixed_of_reserveRead hread) hid

theorem write {k : κ} {id : EdgeId} {q q' : Fifo (Carrier k)} {length : Nat} {r : Lent k}
    (hq : typed channels k id = .ok q) (hwrite : q.reserveWrite length = .ok (r, q'))
    (values : List (Carrier k)) (hid : touched id) :
    Altered touched channels ((Filling.mk id k r values).apply (Channel.put channels k id q')) :=
  .trans (.put (eq_ok_of_typed hq) (Fifo.fixed_of_reserveWrite hwrite) hid) (.fill _ hid)

end Channel.Altered

/-! ## Ports -/

/-- The edge at a port of a node. -/
def Node.edgeAt (n : Node) (d : Direction) (slot : Nat) : Option EdgeId :=
  (n.sockets d)[slot]?.bind (·.edge)

theorem Node.inputAccess_eq_ok_iff {n : Node} {slot : Nat} {id : EdgeId} {rate : Nat} :
    n.inputAccess slot = .ok (id, rate) ↔
      ∃ port : Port, n.inputs[slot]? = some ⟨port, some id⟩ ∧ port.rate.toNat = rate := by
  unfold inputAccess
  split
  · rename_i port e hslot
    simp [hslot]
  · rename_i hslot
    refine ⟨fun h ↦ (nomatch h), fun ⟨port, h, _⟩ ↦ ?_⟩
    exact absurd h (hslot port id)

theorem Node.outputAccess_eq_ok_iff {n : Node} {slot : Nat} {id : EdgeId} {rate : Nat} :
    n.outputAccess slot = .ok (id, rate) ↔
      ∃ port : Port, n.outputs[slot]? = some ⟨port, some id⟩ ∧ port.rate.toNat = rate := by
  unfold outputAccess
  split
  · rename_i port e hslot
    simp [hslot]
  · rename_i hslot
    refine ⟨fun h ↦ (nomatch h), fun ⟨port, h, _⟩ ↦ ?_⟩
    exact absurd h (hslot port id)

theorem Node.edgeAt_of_inputAccess {n : Node} {slot : Nat} {id : EdgeId} {rate : Nat}
    (h : n.inputAccess slot = .ok (id, rate)) : n.edgeAt .input slot = some id := by
  obtain ⟨port, hport, -⟩ := inputAccess_eq_ok_iff.mp h
  simp [edgeAt, sockets, hport]

theorem Node.edgeAt_of_outputAccess {n : Node} {slot : Nat} {id : EdgeId} {rate : Nat}
    (h : n.outputAccess slot = .ok (id, rate)) : n.edgeAt .output slot = some id := by
  obtain ⟨port, hport, -⟩ := outputAccess_eq_ok_iff.mp h
  simp [edgeAt, sockets, hport]

theorem NodeError.lift_eq_ok_iff {α : Type} {x : Except FifoError α} {a : α} :
    NodeError.lift x = .ok a ↔ x = .ok a := by
  cases x <;> simp [NodeError.lift]

namespace PortOp

variable {n : Node} {channels : List (Channel κ)}

/-- The operation names this port. -/
def Names (d : Direction) (slot : Nat) : PortOp κ → Prop
  | input _ s | pop _ s _ => d = .input ∧ slot = s
  | output _ s _ | push _ s _ => d = .output ∧ slot = s
  | transform _ _ inSlot outSlot _ => d = .input ∧ slot = inSlot ∨ d = .output ∧ slot = outSlot

/-- A transformation alters the queue that it reads and the one that it writes. -/
theorem altered_of_transform {source target : κ} {inSlot outSlot : Nat}
    {fill : Lent source → Lent target → List (Carrier target)}
    {r : Reservation κ (transform source target inSlot outSlot fill).Result}
    (h : (transform source target inSlot outSlot fill).reserve n channels = .ok r) :
    Channel.Altered (fun id ↦ ∃ d slot, (transform source target inSlot outSlot fill).Names d slot ∧
      n.edgeAt d slot = some id) channels r.commit := by
  obtain ⟨⟨ein, consumed⟩, hin, h⟩ := Fold.bind_eq_ok h
  obtain ⟨⟨eout, produced⟩, hout, h⟩ := Fold.bind_eq_ok h
  simp only at h
  split at h
  · cases h
  rename_i hne
  obtain ⟨qin, hqin, h⟩ := Fold.bind_eq_ok h
  obtain ⟨qout, hqout, h⟩ := Fold.bind_eq_ok h
  split at h
  · cases h
  split at h
  · cases h
  obtain ⟨⟨r, qin'⟩, hread, h⟩ := Fold.bind_eq_ok h
  obtain ⟨⟨w, qout'⟩, hwrite, h⟩ := Fold.bind_eq_ok h
  cases h
  have hstays : Channel.typed (Channel.put channels source ein qin') target eout = .ok qout := by
    refine Channel.typed_of_getElem? ?_
    rw [Channel.put, List.getElem?_set_ne hne]
    exact Channel.eq_ok_of_typed hqout
  refine .trans (.read hqin (NodeError.lift_eq_ok_iff.mp hread) ?_)
    (.write hstays (NodeError.lift_eq_ok_iff.mp hwrite) _ ?_)
  · exact ⟨.input, inSlot, .inl ⟨rfl, rfl⟩, Node.edgeAt_of_inputAccess hin⟩
  · exact ⟨.output, outSlot, .inr ⟨rfl, rfl⟩, Node.edgeAt_of_outputAccess hout⟩

/-- An operation alters the queues at the ports it names. -/
theorem altered_of_reserve {op : PortOp κ} {r : Reservation κ op.Result}
    (h : op.reserve n channels = .ok r) :
    Channel.Altered (fun id ↦ ∃ d slot, op.Names d slot ∧ n.edgeAt d slot = some id) channels
      r.commit := by
  cases op with
  | input k slot =>
    obtain ⟨⟨id, rate⟩, hport, h⟩ := Fold.bind_eq_ok h
    obtain ⟨q, hq, h⟩ := Fold.bind_eq_ok h
    obtain ⟨⟨r, q'⟩, hread, h⟩ := Fold.bind_eq_ok h
    cases h
    exact .read hq (NodeError.lift_eq_ok_iff.mp hread)
      ⟨.input, slot, ⟨rfl, rfl⟩, Node.edgeAt_of_inputAccess hport⟩
  | output k slot fill =>
    obtain ⟨⟨id, rate⟩, hport, h⟩ := Fold.bind_eq_ok h
    obtain ⟨q, hq, h⟩ := Fold.bind_eq_ok h
    obtain ⟨⟨r, q'⟩, hwrite, h⟩ := Fold.bind_eq_ok h
    cases h
    exact .write hq (NodeError.lift_eq_ok_iff.mp hwrite) _
      ⟨.output, slot, ⟨rfl, rfl⟩, Node.edgeAt_of_outputAccess hport⟩
  | pop k slot length =>
    obtain ⟨⟨id, rate⟩, hport, h⟩ := Fold.bind_eq_ok h
    simp only at h
    split at h
    · cases h
    obtain ⟨q, hq, h⟩ := Fold.bind_eq_ok h
    obtain ⟨⟨values, q'⟩, hpop, h⟩ := Fold.bind_eq_ok h
    cases h
    obtain ⟨r, hread, -⟩ := Fifo.pop_eq_ok_iff.mp (NodeError.lift_eq_ok_iff.mp hpop)
    exact .read hq hread ⟨.input, slot, ⟨rfl, rfl⟩, Node.edgeAt_of_inputAccess hport⟩
  | push k slot values =>
    obtain ⟨⟨id, rate⟩, hport, h⟩ := Fold.bind_eq_ok h
    simp only at h
    split at h
    · cases h
    obtain ⟨q, hq, h⟩ := Fold.bind_eq_ok h
    obtain ⟨⟨r, q'⟩, hwrite, h⟩ := Fold.bind_eq_ok h
    cases h
    exact .write hq (NodeError.lift_eq_ok_iff.mp hwrite) values
      ⟨.output, slot, ⟨rfl, rfl⟩, Node.edgeAt_of_outputAccess hport⟩
  | transform source target inSlot outSlot fill => exact altered_of_transform h

/-! ## Popping and pushing -/

variable {k : κ} {slot rate : Nat} {id : EdgeId} {q : Fifo (Carrier k)}

/-- Popping takes the oldest elements when there are enough of them. -/
theorem reserve_pop (hport : n.inputAccess slot = .ok (id, rate))
    (hc : channels[id]? = some ⟨k, q⟩) (henough : rate ≤ q.size) :
    ∃ q', (PortOp.pop k slot rate).reserve n channels =
        .ok ⟨q.contents.take rate, channels.set id ⟨k, q'⟩, none⟩ ∧
      q'.contents = q.contents.drop rate := by
  obtain ⟨q', hpop, hcontents⟩ := Fifo.exists_pop henough
  refine ⟨q', ?_, hcontents⟩
  simp only [reserve, hport, Channel.typed_of_getElem? hc, hpop, bind, Except.bind, ne_eq,
    not_true_eq_false, if_false, NodeError.lift]
  rfl

theorem reserve_pop_short (hport : n.inputAccess slot = .ok (id, rate))
    (hc : channels[id]? = some ⟨k, q⟩) (hshort : q.size < rate) :
    (PortOp.pop k slot rate).reserve n channels = .error (.recoverable .bufferUnderflow) := by
  have hread : q.reserveRead rate = .error _ := if_pos hshort
  simp only [reserve, hport, Channel.typed_of_getElem? hc, Fifo.pop, hread, bind, Except.bind, ne_eq,
    not_true_eq_false, if_false, NodeError.lift]
  rfl

/-- Pushing appends when there is room. -/
theorem reserve_push {values : List (Carrier k)}
    (hport : n.outputAccess slot = .ok (id, values.length)) (hc : channels[id]? = some ⟨k, q⟩)
    (hroom : values.length ≤ q.free) :
    ∃ r q', (PortOp.push k slot values).reserve n channels = .ok r ∧ r.answer = () ∧
      r.commit = channels.set id ⟨k, q'⟩ ∧ q'.contents = q.contents ++ values := by
  obtain ⟨region, w, hwrite⟩ := Fifo.exists_reserveWrite hroom
  have hreserve : (PortOp.push k slot values).reserve n channels =
      .ok ⟨(), Channel.put channels k id w, some ⟨id, k, region, values⟩⟩ := by
    simp only [reserve, hport, Channel.typed_of_getElem? hc, hwrite, bind, Except.bind, ne_eq,
      not_true_eq_false, if_false, NodeError.lift]
    rfl
  exact ⟨_, w.fill region values, hreserve, rfl, Channel.apply_put channels k id w region values,
    Fifo.contents_fill_of_reserveWrite hwrite rfl⟩

theorem reserve_push_short {values : List (Carrier k)}
    (hport : n.outputAccess slot = .ok (id, values.length)) (hc : channels[id]? = some ⟨k, q⟩)
    (hshort : q.free < values.length) :
    (PortOp.push k slot values).reserve n channels = .error (.recoverable .bufferOverflow) := by
  have hwrite : q.reserveWrite values.length = .error _ := dif_pos hshort
  simp only [reserve, hport, Channel.typed_of_getElem? hc, hwrite, bind, Except.bind, ne_eq,
    not_true_eq_false, if_false, NodeError.lift]
  rfl

end PortOp

end Dataflow
