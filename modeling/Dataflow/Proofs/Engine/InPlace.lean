import Dataflow.Proofs.Engine.Exchange

/-!
# Operations where the queues stand

A node works on the queues of its engine where they stand: cursors move one after another, and what has
been done before a failure stays done. Followed in this way, step by step, every operation does the whole
of what it reserves or nothing. It takes the rates from the edges and not from the ports, and lends both
queues of a transformation at the same time by a cut of the list between them.
-/

namespace Dataflow

variable {κ : Type} [ElementKind κ] {α β : Type}

open ElementKind (Carrier)

/-! ## Two places of a list -/

/-- Two places lent at the same time: what is in them, and the list once other things are there. The list
is cut before the one that is further back. -/
def pair? (l : List α) (a b : Nat) : Option ((α × α) × (α → α → List α)) :=
  if a = b ∨ l.length ≤ max a b then none
  else if a < b then
    match (l.take b)[a]?, (l.drop b)[0]? with
    | some x, some y => some ((x, y), fun x y ↦ (l.take b).set a x ++ (l.drop b).set 0 y)
    | _, _ => none
  else
    match (l.drop a)[0]?, (l.take a)[b]? with
    | some x, some y => some ((x, y), fun x y ↦ (l.take a).set b y ++ (l.drop a).set 0 x)
    | _, _ => none

theorem take_set_append_drop_set {l : List α} {i j : Nat} (h : i < j) (hj : j ≤ l.length) (x y : α) :
    (l.take j).set i x ++ (l.drop j).set 0 y = (l.set i x).set j y := by
  calc
    (l.take j).set i x ++ (l.drop j).set 0 y = ((l.take j).set i x ++ l.drop j).set j y := by
      rw [List.set_append_right _ _ (by simp), List.length_set, List.length_take_of_le hj,
        Nat.sub_self]
    _ = ((l.take j ++ l.drop j).set i x).set j y := by
      rw [List.set_append_left i x (by simp; omega)]
    _ = (l.set i x).set j y := by rw [List.take_append_drop]

/-- Whichever comes first, the two places that are lent are the two that are asked for. -/
theorem pair?_of_ne {l : List α} {a b : Nat} {x y : α} (hne : a ≠ b) (hx : l[a]? = some x)
    (hy : l[b]? = some y) :
    pair? l a b = some ((x, y), fun x y ↦ (l.set a x).set b y) := by
  have ha : a < l.length := (List.getElem?_eq_some_iff.mp hx).1
  have hb : b < l.length := (List.getElem?_eq_some_iff.mp hy).1
  have hfirst : ¬ (a = b ∨ l.length ≤ max a b) := by omega
  rw [pair?, if_neg hfirst]
  rcases Nat.lt_or_gt_of_ne hne with hlt | hgt
  · have hx' : (l.take b)[a]? = some x := by rw [List.getElem?_take, if_pos hlt, hx]
    have hy' : (l.drop b)[0]? = some y := by rw [List.getElem?_drop, Nat.add_zero, hy]
    simp only [if_pos hlt, hx', hy', take_set_append_drop_set hlt hb.le]
  · have hx' : (l.drop a)[0]? = some x := by rw [List.getElem?_drop, Nat.add_zero, hx]
    have hy' : (l.take a)[b]? = some y := by rw [List.getElem?_take, if_pos hgt, hy]
    simp only [if_neg hgt.not_gt, hx', hy', take_set_append_drop_set hgt ha.le]
    simp only [List.set_comm _ _ hne]

theorem pair?_self (l : List α) (a : Nat) : pair? l a a = none := if_pos (.inl rfl)

/-! ## Steps on the queues -/

/-- The answer, and the queues as they then stand; a failure leaves them as far as it came. -/
def InPlace (κ : Type) [ElementKind κ] (α : Type) :=
  List (Channel κ) → Except NodeError α × List (Channel κ)

namespace InPlace

def bind (x : InPlace κ α) (f : α → InPlace κ β) : InPlace κ β := fun channels ↦
  match x channels with
  | (.ok a, channels) => f a channels
  | (.error e, channels) => (.error e, channels)

instance : Monad (InPlace κ) where
  pure a := fun channels ↦ (.ok a, channels)
  bind := bind

def fail (e : NodeError) : InPlace κ α := fun channels ↦ (.error e, channels)

/-- What does not depend on the queues. -/
def ofExcept : Except NodeError α → InPlace κ α
  | .ok a => pure a
  | .error e => fail e

/-- The queues as they stand. -/
def queues : InPlace κ (List (Channel κ)) := fun channels ↦ (.ok channels, channels)

def put (channels : List (Channel κ)) : InPlace κ Unit := fun _ ↦ (.ok (), channels)

/-- The queue of edge `id`, which must hold elements of kind `k`. -/
def queue (k : κ) (id : EdgeId) : InPlace κ (Fifo (Carrier k)) := fun channels ↦
  (Channel.typed channels k id, channels)

/-- Moves a cursor of edge `id`, and lends the cells it has passed. -/
def lend (k : κ) (id : EdgeId)
    (reserve : Fifo (Carrier k) → Except FifoError (Lent k × Fifo (Carrier k))) :
    InPlace κ (Lent k) := do
  let q ← queue k id
  let (r, q) ← ofExcept (NodeError.lift (reserve q))
  put (Channel.put (← queues) k id q)
  return r

/-- Fills the cells that have been lent. -/
def fill (f : Filling κ) : InPlace κ Unit := do
  put (f.apply (← queues))

end InPlace

/-! ## Operations -/

/-- The edge at a port, and the rate of the edge on this side. -/
def Graph.access (g : Graph) (n : Node) (d : Direction) (slot : Nat) :
    Except NodeError (EdgeId × Nat) :=
  match n.edgeAt d slot with
  | some id => .ok (id, g.rateAt d id)
  | none => .error .invalidPort

namespace InPlace

variable (g : Graph) (n : Node)

def input (k : κ) (slot : Nat) : InPlace κ (Lent k) := do
  let (id, rate) ← ofExcept (g.access n .input slot)
  lend k id (·.reserveRead rate)

def output (k : κ) (slot : Nat) (values : Lent k → List (Carrier k)) : InPlace κ (Lent k) := do
  let (id, rate) ← ofExcept (g.access n .output slot)
  let r ← lend k id (·.reserveWrite rate)
  fill ⟨id, k, r, values r⟩
  return r

def pop (k : κ) (slot length : Nat) : InPlace κ (List (Carrier k)) := do
  let (id, rate) ← ofExcept (g.access n .input slot)
  if length ≠ rate then fail .rateMismatch
  else
    let r ← lend k id (·.reserveRead length)
    return r.toList

def push (k : κ) (slot : Nat) (values : List (Carrier k)) : InPlace κ Unit := do
  let (id, rate) ← ofExcept (g.access n .output slot)
  if values.length ≠ rate then fail .rateMismatch
  else
    let r ← lend k id (·.reserveWrite values.length)
    fill ⟨id, k, r, values⟩

/-- Works on two queues at the same time. Both are looked at before either cursor moves. -/
def exchange (lent : Option ((Channel κ × Channel κ) × (Channel κ → Channel κ → List (Channel κ))))
    (source target : κ) (consumed produced : Nat)
    (values : Lent source → Lent target → List (Carrier target)) :
    InPlace κ (Lent source × Lent target) :=
  match lent with
  | none => fail .invalidPort
  | some ((src, dst), write) =>
    match src.queue? source, dst.queue? target with
    | some qin, some qout =>
      if qin.willUnderflow consumed then fail (.recoverable .bufferUnderflow)
      else if qout.willOverflow produced then fail (.recoverable .bufferOverflow)
      else do
        let (r, qin) ← ofExcept (NodeError.lift (qin.reserveRead consumed))
        put (write ⟨source, qin⟩ dst)
        let (w, qout) ← ofExcept (NodeError.lift (qout.reserveWrite produced))
        put (write ⟨source, qin⟩ ⟨target, qout⟩)
        put (write ⟨source, qin⟩ ⟨target, qout.fill w (values r w)⟩)
        return (r, w)
    | _, _ => fail .typeMismatch

def transform (source target : κ) (inSlot outSlot : Nat)
    (values : Lent source → Lent target → List (Carrier target)) :
    InPlace κ (Lent source × Lent target) := do
  let (ein, consumed) ← ofExcept (g.access n .input inSlot)
  let (eout, produced) ← ofExcept (g.access n .output outSlot)
  exchange (pair? (← queues) ein eout) source target consumed produced values

end InPlace

/-- An operation of node `n` where the queues stand. -/
def PortOp.carryOut (g : Graph) (n : Node) : (op : PortOp κ) → InPlace κ op.Result
  | input k slot => InPlace.input g n k slot
  | output k slot values => InPlace.output g n k slot values
  | pop k slot length => InPlace.pop g n k slot length
  | push k slot values => InPlace.push g n k slot values
  | transform source target inSlot outSlot values =>
    InPlace.transform g n source target inSlot outSlot values

/-- All that is reserved, or nothing. -/
def Reservation.settle {α : Type} (channels : List (Channel κ)) :
    Except NodeError (Reservation κ α) → Except NodeError α × List (Channel κ)
  | .ok r => (.ok r.answer, r.commit)
  | .error e => (.error e, channels)

namespace Graph

variable {g : Graph} {n : NodeId} {node : Node}

theorem access_eq_ok_iff {d : Direction} {slot rate : Nat} {id : EdgeId} :
    g.access node d slot = .ok (id, rate) ↔ node.edgeAt d slot = some id ∧ rate = g.rateAt d id := by
  unfold access
  cases node.edgeAt d slot with
  | none => simp
  | some id' =>
    simp only [Except.ok.injEq, Prod.mk.injEq, Option.some.injEq]
    constructor
    · rintro ⟨rfl, rfl⟩
      exact ⟨rfl, rfl⟩
    · rintro ⟨rfl, rfl⟩
      exact ⟨rfl, rfl⟩

theorem Coherent.access_input (hg : g.Coherent) (hnode : g.nodes[n]? = some node) (slot : Nat) :
    g.access node .input slot = node.inputAccess slot := by
  unfold access Node.edgeAt Node.inputAccess Node.sockets
  rcases hs : node.inputs[slot]? with _ | ⟨port, _ | id⟩
  · rfl
  · rfl
  · exact congrArg (fun rate ↦ Except.ok (id, rate))
      (hg.rate_of_getElem? (d := .input) hnode hs).2.symm

theorem Coherent.access_output (hg : g.Coherent) (hnode : g.nodes[n]? = some node) (slot : Nat) :
    g.access node .output slot = node.outputAccess slot := by
  unfold access Node.edgeAt Node.outputAccess Node.sockets
  rcases hs : node.outputs[slot]? with _ | ⟨port, _ | id⟩
  · rfl
  · rfl
  · exact congrArg (fun rate ↦ Except.ok (id, rate))
      (hg.rate_of_getElem? (d := .output) hnode hs).2.symm

end Graph

theorem NodeError.lift_pop (q : Fifo α) (n : Nat) :
    lift (q.pop n) =
      lift (q.reserveRead n) >>= fun lent ↦ pure (lent.1.toList, lent.2) := by
  rw [Fifo.pop_eq_map]
  cases q.reserveRead n <;> rfl

namespace InPlace

variable {channels : List (Channel κ)}

theorem bind_pure_apply (x : InPlace κ α) : (x >>= pure) channels = x channels := by
  simp only [Bind.bind, bind]
  rcases x channels with ⟨e | a, channels'⟩ <;> rfl

/-- A step that does not depend on the queues leaves them alone. -/
theorem ofExcept_settle (x : Except NodeError α) {f : α → InPlace κ β}
    {reserve : α → Except NodeError (Reservation κ β)}
    (hf : ∀ a, x = .ok a → f a channels = Reservation.settle channels (reserve a)) :
    (ofExcept x >>= f) channels = Reservation.settle channels (x >>= reserve) := by
  cases x with
  | error e => rfl
  | ok a => exact hf a rfl

/-- A cursor that cannot be moved stays, and what follows once it has moved is the rest of what was
reserved. -/
theorem lend_settle (k : κ) (id : EdgeId)
    (reserve : Fifo (Carrier k) → Except FifoError (Lent k × Fifo (Carrier k)))
    {f : Lent k → InPlace κ β} (answer : Lent k → β) (filling : Lent k → Option (Filling κ))
    (hf : ∀ r channels, f r channels =
      (.ok (answer r), Reservation.commit ⟨answer r, channels, filling r⟩)) :
    (lend k id reserve >>= f) channels =
      Reservation.settle channels (do
        let q ← Channel.typed channels k id
        let lent ← NodeError.lift (reserve q)
        return ⟨answer lent.1, Channel.put channels k id lent.2, filling lent.1⟩) := by
  simp only [lend, queue, Bind.bind, bind, Except.bind]
  rcases Channel.typed channels k id with e | q
  · rfl
  dsimp only
  rcases NodeError.lift (reserve q) with e | ⟨r, q'⟩
  · rfl
  · exact hf r _

section Operations

variable {g : Graph} {n : NodeId} {node : Node}

theorem input_eq (hg : g.Coherent) (hnode : g.nodes[n]? = some node) (k : κ) (slot : Nat) :
    input g node k slot channels =
      Reservation.settle channels ((PortOp.input k slot).reserve node channels) := by
  rw [input, PortOp.reserve, ← hg.access_input hnode]
  refine ofExcept_settle _ ?_
  rintro ⟨id, rate⟩ -
  refine (bind_pure_apply _).symm.trans ?_
  exact lend_settle k id _ (fun r ↦ r) (fun _ ↦ none) fun _ _ ↦ rfl

theorem output_eq (hg : g.Coherent) (hnode : g.nodes[n]? = some node) (k : κ) (slot : Nat)
    (values : Lent k → List (Carrier k)) :
    output g node k slot values channels =
      Reservation.settle channels ((PortOp.output k slot values).reserve node channels) := by
  rw [output, PortOp.reserve, ← hg.access_output hnode]
  refine ofExcept_settle _ ?_
  rintro ⟨id, rate⟩ -
  exact lend_settle k id _ (fun r ↦ r) (fun r ↦ some ⟨id, k, r, values r⟩) fun _ _ ↦ rfl

theorem pop_eq (hg : g.Coherent) (hnode : g.nodes[n]? = some node) (k : κ) (slot length : Nat) :
    pop g node k slot length channels =
      Reservation.settle channels ((PortOp.pop k slot length).reserve node channels) := by
  rw [pop, PortOp.reserve, ← hg.access_input hnode]
  refine ofExcept_settle _ ?_
  rintro ⟨id, rate⟩ -
  dsimp only
  split
  · rfl
  · rename_i hrate
    rw [not_not.mp hrate]
    simp only [NodeError.lift_pop, bind_assoc, pure_bind]
    exact lend_settle k id _ (·.toList) (fun _ ↦ none) fun _ _ ↦ rfl

theorem push_eq (hg : g.Coherent) (hnode : g.nodes[n]? = some node) (k : κ) (slot : Nat)
    (values : List (Carrier k)) :
    push g node k slot values channels =
      Reservation.settle channels ((PortOp.push k slot values).reserve node channels) := by
  rw [push, PortOp.reserve, ← hg.access_output hnode]
  refine ofExcept_settle _ ?_
  rintro ⟨id, rate⟩ -
  dsimp only
  split
  · rfl
  · rename_i hrate
    rw [not_not.mp hrate]
    exact lend_settle k id _ (fun _ ↦ ()) (fun r ↦ some ⟨id, k, r, values⟩) fun _ _ ↦ rfl

theorem transform_eq (hg : g.Coherent) (hnode : g.nodes[n]? = some node)
    (hlength : channels.length = g.edges.length) (source target : κ) (inSlot outSlot : Nat)
    (values : Lent source → Lent target → List (Carrier target)) :
    transform g node source target inSlot outSlot values channels =
      Reservation.settle channels
        ((PortOp.transform source target inSlot outSlot values).reserve node channels) := by
  rw [transform, PortOp.reserve, ← hg.access_input hnode, ← hg.access_output hnode]
  refine ofExcept_settle _ ?_
  rintro ⟨ein, consumed⟩ hin
  refine ofExcept_settle _ ?_
  rintro ⟨eout, produced⟩ hout
  change exchange (pair? channels ein eout) source target consumed produced values channels = _
  by_cases hne : ein = eout
  · subst hne
    rw [pair?_self]
    simp only [Bind.bind, Except.bind, if_true]
    rfl
  have hlent {d : Direction} {slot : Nat} {id : EdgeId} (h : node.edgeAt d slot = some id) :
      ∃ c, channels[id]? = some c :=
    ⟨_, List.getElem?_eq_getElem (hlength ▸ hg.lt_of_edgeAt hnode h)⟩
  obtain ⟨src, hsrc⟩ := hlent (Graph.access_eq_ok_iff.mp hin).1
  obtain ⟨dst, hdst⟩ := hlent (Graph.access_eq_ok_iff.mp hout).1
  rw [pair?_of_ne hne hsrc hdst]
  simp only [Bind.bind, Except.bind, if_neg hne, Channel.typed, hsrc, hdst, Option.bind_some, exchange]
  rcases src.queue? source with _ | qin
  · rfl
  rcases dst.queue? target with _ | qout
  · rfl
  dsimp only
  by_cases hunder : qin.willUnderflow consumed
  · simp only [hunder, if_true]
    rfl
  by_cases hover : qout.willOverflow produced
  · simp only [hunder, hover, if_true]
    rfl
  obtain ⟨r, qin', hread⟩ := Fifo.exists_reserveRead (f := qin) (n := consumed)
    (by simpa [Fifo.willUnderflow] using hunder)
  obtain ⟨w, qout', hwrite⟩ := Fifo.exists_reserveWrite (f := qout) (n := produced)
    (by simpa [Fifo.willOverflow] using hover)
  simp only [hunder, hover, hread, hwrite, NodeError.lift]
  exact congrArg (Prod.mk _) (Channel.apply_put _ target eout qout' w (values r w)).symm

end Operations

end InPlace

/-- An operation does what it reserves where the queues stand, and one that fails has done nothing. -/
theorem PortOp.carryOut_eq {g : Graph} {n : NodeId} {node : Node} {channels : List (Channel κ)}
    (hg : g.Coherent) (hnode : g.nodes[n]? = some node) (hlength : channels.length = g.edges.length)
    (op : PortOp κ) :
    op.carryOut g node channels = Reservation.settle channels (op.reserve node channels) := by
  cases op with
  | input k slot => exact InPlace.input_eq hg hnode k slot
  | output k slot values => exact InPlace.output_eq hg hnode k slot values
  | pop k slot length => exact InPlace.pop_eq hg hnode k slot length
  | push k slot values => exact InPlace.push_eq hg hnode k slot values
  | transform source target inSlot outSlot values =>
    exact InPlace.transform_eq hg hnode hlength source target inSlot outSlot values

end Dataflow
