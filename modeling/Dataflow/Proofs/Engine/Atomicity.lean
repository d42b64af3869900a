import Dataflow.Proofs.Engine.InPlace
import Dataflow.Proofs.Engine.Periods

/-!
# Operations are atomic

Whatever can stand against an operation is found before a cursor has moved. So an operation of a node
either moves one rate over each port that it names, and touches no other queue, or it fails and has
changed nothing. An activity is a chain of such calls.
-/

namespace Dataflow

variable {κ : Type} [ElementKind κ] {α β : Type}

open ElementKind (Carrier)

/-! ## What stands against an operation -/

/-- A queue has too few elements, or too few places, for `n` of them to move over its side `d`. -/
def Fifo.shortage? (q : Fifo α) (d : Direction) (n : Nat) : Option NodeError :=
  match d with
  | .input => if q.willUnderflow n then some (.recoverable .bufferUnderflow) else none
  | .output => if q.willOverflow n then some (.recoverable .bufferOverflow) else none

/-- A port that an operation names, and the kind of elements it asks for there. -/
structure PortUse (κ : Type) where
  direction : Direction
  slot : Nat
  kind : κ

namespace PortUse

variable (u : PortUse κ) (g : Graph) (n : Node) (channels : List (Channel κ))

def edge? : Option EdgeId := n.edgeAt u.direction u.slot

def rate : Nat := ((u.edge? n).map (g.rateAt u.direction)).getD 0

/-- The queue at the port, if it has the kind. -/
def queue? : Option (Fifo (Carrier u.kind)) :=
  (u.edge? n).bind fun id ↦ channels[id]?.bind (·.queue? u.kind)

end PortUse

namespace PortOp

def uses : PortOp κ → List (PortUse κ)
  | input k slot | pop k slot _ => [⟨.input, slot, k⟩]
  | output k slot _ | push k slot _ => [⟨.output, slot, k⟩]
  | transform source target inSlot outSlot _ =>
    [⟨.input, inSlot, source⟩, ⟨.output, outSlot, target⟩]

/-- The length of the buffer that comes with the operation. It must be the rate. -/
def length? : PortOp κ → Option Nat
  | pop _ _ length => some length
  | push _ _ values => some values.length
  | _ => none

/-- What stands against an operation of node `n`, in the order in which it is looked at: a slot without an
edge, one edge for both sides, a buffer of another length, another kind of elements, too few of them or
too little room. -/
def fault? (g : Graph) (n : Node) (channels : List (Channel κ)) (op : PortOp κ) : Option NodeError :=
  if op.uses.any fun u ↦ (u.edge? n).isNone then some .invalidPort
  else if ¬ (op.uses.map (·.edge? n)).Nodup then some .invalidPort
  else if op.length?.any fun length ↦ op.uses.any (length ≠ ·.rate g n) then some .rateMismatch
  else if op.uses.any fun u ↦ (u.queue? n channels).isNone then some .typeMismatch
  else op.uses.findSome? fun u ↦ (u.queue? n channels).bind (·.shortage? u.direction (u.rate g n))

variable {g : Graph} {n : NodeId} {node : Node} {channels : List (Channel κ)} {op : PortOp κ}

theorem names_iff {d : Direction} {slot : Nat} :
    op.Names d slot ↔ ∃ u ∈ op.uses, u.direction = d ∧ u.slot = slot := by
  cases op <;> simp [Names, uses, eq_comm]

theorem fault?_of_uses_eq_singleton {u : PortUse κ} (huses : op.uses = [u]) {id : EdgeId}
    (hedge : u.edge? node = some id) :
    op.fault? g node channels =
      if op.length?.any (· ≠ g.rateAt u.direction id) then some .rateMismatch
      else
        match channels[id]?.bind (·.queue? u.kind) with
        | none => some .typeMismatch
        | some q => q.shortage? u.direction (g.rateAt u.direction id) := by
  simp only [fault?, huses, List.any_cons, List.any_nil, Bool.or_false, hedge, List.map_cons,
    List.map_nil, List.nodup_singleton, PortUse.queue?, PortUse.rate, Option.bind_some,
    Option.isNone_some, Bool.false_eq_true, if_false, not_true_eq_false, Option.map_some,
    Option.getD_some, List.findSome?_singleton]
  congr 1
  cases channels[id]?.bind (·.queue? u.kind) <;> rfl

theorem fault?_transform {source target : κ} {inSlot outSlot : Nat}
    {fill : Lent source → Lent target → List (Carrier target)} {ein eout : EdgeId}
    (hin : node.edgeAt .input inSlot = some ein) (hout : node.edgeAt .output outSlot = some eout) :
    (transform source target inSlot outSlot fill).fault? g node channels =
      if ein = eout then some .invalidPort
      else
        match channels[ein]?.bind (·.queue? source), channels[eout]?.bind (·.queue? target) with
        | some qin, some qout =>
          (qin.shortage? .input (g.rateAt .input ein)).or
            (qout.shortage? .output (g.rateAt .output eout))
        | _, _ => some .typeMismatch := by
  simp only [fault?, uses, length?, List.any_cons, List.any_nil, Bool.or_false, PortUse.edge?, hin, hout,
    Option.isNone_some, List.map_cons, List.map_nil, Option.any_none, PortUse.queue?, PortUse.rate,
    Option.bind_some, Option.map_some, Option.getD_some]
  by_cases hne : ein = eout
  · simp [hne]
  · rcases hqin : channels[ein]?.bind (·.queue? source) with _ | qin
    · simp [hne]
    · rcases hqout : channels[eout]?.bind (·.queue? target) with _ | qout
      · simp [hne]
      · cases hshort : qin.shortage? .input (g.rateAt .input ein) <;>
          cases hshort' : qout.shortage? .output (g.rateAt .output eout) <;>
            simp [hne, hin, hout, hqin, hqout, hshort, hshort']

/-! ## Steps of an operation -/

/-- A port without an edge stands against the operation. -/
theorem ends_access {u : PortUse κ} (hu : u ∈ op.uses) {f : EdgeId × Nat → Except NodeError β}
    {P : β → Prop} (hf : ∀ id, u.edge? node = some id →
      Fold.Ends (f (id, g.rateAt u.direction id)) P (fun e ↦ op.fault? g node channels = some e)) :
    Fold.Ends (g.access node u.direction u.slot >>= f) P
      (fun e ↦ op.fault? g node channels = some e) := by
  unfold Graph.access
  rcases hedge : node.edgeAt u.direction u.slot with _ | id
  · have hnone : op.uses.any fun u ↦ (u.edge? node).isNone :=
      List.any_eq_true.mpr ⟨u, hu, by simp [PortUse.edge?, hedge]⟩
    exact if_pos hnone
  · exact hf id hedge

theorem ends_typed (channels : List (Channel κ)) (k : κ) (id : EdgeId) :
    Fold.Ends (Channel.typed channels k id) (fun q ↦ channels[id]? = some ⟨k, q⟩)
      (fun e ↦ channels[id]?.bind (·.queue? k) = none ∧ e = .typeMismatch) := by
  cases htyped : Channel.typed channels k id with
  | ok q => exact Channel.eq_ok_of_typed htyped
  | error e =>
    unfold Channel.typed at htyped
    split at htyped
    · cases htyped
    · rename_i hnone
      cases htyped
      exact ⟨hnone, rfl⟩

theorem ends_reserveRead (q : Fifo α) (n : Nat) :
    Fold.Ends (NodeError.lift (q.reserveRead n))
      (fun lent ↦ q.shortage? .input n = none ∧ q.reserveRead n = .ok lent)
      (fun e ↦ q.shortage? .input n = some e) := by
  by_cases h : q.size < n
  · have hread : q.reserveRead n = .error _ := if_pos h
    rw [hread]
    exact if_pos (decide_eq_true h)
  · obtain ⟨r, q', hread⟩ := Fifo.exists_reserveRead (Nat.not_lt.mp h)
    rw [hread]
    exact ⟨if_neg (by simpa [Fifo.willUnderflow] using h), rfl⟩

theorem ends_reserveWrite (q : Fifo α) (n : Nat) :
    Fold.Ends (NodeError.lift (q.reserveWrite n))
      (fun lent ↦ q.shortage? .output n = none ∧ q.reserveWrite n = .ok lent)
      (fun e ↦ q.shortage? .output n = some e) := by
  by_cases h : q.free < n
  · have hwrite : q.reserveWrite n = .error _ := dif_pos h
    rw [hwrite]
    exact if_pos (decide_eq_true h)
  · obtain ⟨r, q', hwrite⟩ := Fifo.exists_reserveWrite (Nat.not_lt.mp h)
    rw [hwrite]
    exact ⟨if_neg (by simpa [Fifo.willOverflow] using h), rfl⟩

/-- Where an operation names one port only, nothing stands against it once its cursor has moved. -/
theorem ends_single {u : PortUse κ} (huses : op.uses = [u]) {id : EdgeId}
    (hedge : u.edge? node = some id) (hlength : ∀ l ∈ op.length?, l = g.rateAt u.direction id)
    {x : Fifo (Carrier u.kind) → Except NodeError β} {P : Fifo (Carrier u.kind) → β → Prop}
    (hx : ∀ q, Fold.Ends (x q)
      (fun b ↦ q.shortage? u.direction (g.rateAt u.direction id) = none ∧ P q b)
      (fun e ↦ q.shortage? u.direction (g.rateAt u.direction id) = some e)) :
    Fold.Ends (Channel.typed channels u.kind id >>= x)
      (fun b ↦ op.fault? g node channels = none ∧ ∃ q, channels[id]? = some ⟨u.kind, q⟩ ∧ P q b)
      (fun e ↦ op.fault? g node channels = some e) := by
  have hfault : op.fault? g node channels = _ := fault?_of_uses_eq_singleton huses hedge
  have hfits : ¬ op.length?.any (· ≠ g.rateAt u.direction id) := by
    cases h : op.length? with
    | none => simp
    | some l => simp [hlength l h]
  rw [if_neg hfits] at hfault
  have htyped : Fold.Ends (Channel.typed channels u.kind id)
      (fun q ↦ channels[id]? = some ⟨u.kind, q⟩) (fun e ↦ op.fault? g node channels = some e) := by
    refine (ends_typed channels u.kind id).mono_error ?_
    rintro e ⟨hnone, rfl⟩
    rw [hfault, hnone]
  refine htyped.bind fun q _ hc ↦ ?_
  have hqueue : op.fault? g node channels =
      q.shortage? u.direction (g.rateAt u.direction id) := by
    rw [hfault, hc, Option.bind_some, Channel.queue?_mk]
  rw [hqueue]
  exact (hx q).mono fun b _ ⟨hnone, hP⟩ ↦ ⟨hnone, q, hc, hP⟩

/-! ## What an operation moves -/

end PortOp

/-- One rate has moved over side `d` of an edge. -/
def Channel.Moved (g : Graph) (before after : List (Channel κ)) (d : Direction) (id : EdgeId) : Prop :=
  ∃ (k : κ) (q q' : Fifo (Carrier k)), before[id]? = some ⟨k, q⟩ ∧ after[id]? = some ⟨k, q'⟩ ∧
    match d with
    | .input => g.consumption id ≤ q.size ∧ q'.contents = q.contents.drop (g.consumption id)
    | .output => g.production id ≤ q.free ∧
      ∃ values, values.length = g.production id ∧ q'.contents = q.contents ++ values

theorem Channel.getElem?_put {channels : List (Channel κ)} {id : EdgeId} {c : Channel κ}
    (h : channels[id]? = some c) (k : κ) (q : Fifo (Carrier k)) :
    (Channel.put channels k id q)[id]? = some ⟨k, q⟩ :=
  List.getElem?_set_self (List.getElem?_eq_some_iff.mp h).1

theorem Channel.moved_of_reserveRead {g : Graph} {before after : List (Channel κ)} {id : EdgeId} {k : κ}
    {q q' : Fifo (Carrier k)} {r : Lent k} (hbefore : before[id]? = some ⟨k, q⟩)
    (hafter : after[id]? = some ⟨k, q'⟩)
    (hread : q.reserveRead (g.rateAt .input id) = .ok (r, q')) :
    Channel.Moved g before after .input id := by
  obtain ⟨-, hcontents⟩ := Fifo.toList_of_reserveRead hread
  have henough : g.rateAt .input id ≤ q.size := by
    by_contra hshort
    rw [Fifo.reserveRead, if_pos (Nat.not_le.mp hshort)] at hread
    cases hread
  exact ⟨k, q, q', hbefore, hafter, henough, hcontents⟩

theorem Channel.moved_of_reserveWrite {g : Graph} {before after : List (Channel κ)} {id : EdgeId} {k : κ}
    {q q' : Fifo (Carrier k)} {r : Lent k} {values : List (Carrier k)}
    (hbefore : before[id]? = some ⟨k, q⟩) (hafter : after[id]? = some ⟨k, q'.fill r values⟩)
    (hwrite : q.reserveWrite (g.rateAt .output id) = .ok (r, q')) :
    Channel.Moved g before after .output id := by
  have hroom : g.rateAt .output id ≤ q.free := by
    by_contra hshort
    rw [Fifo.reserveWrite, dif_pos (Nat.not_le.mp hshort)] at hwrite
    cases hwrite
  refine ⟨k, q, q'.fill r values, hbefore, hafter, hroom, _, ?_, Fifo.contents_fill hwrite values⟩
  have hlength := Fifo.length_of_reserveWrite hwrite
  rw [List.length_append, List.length_take, List.length_drop, Fifo.Region.length_toList, hlength]
  exact (by omega : min (g.rateAt .output id) values.length +
    (g.rateAt .output id - values.length) = g.rateAt .output id)

/-- An operation of node `n` has moved one rate over each port that it names, and nothing else. -/
structure PortOp.Moves (g : Graph) (n : Node) (op : PortOp κ) (before after : List (Channel κ)) :
    Prop where
  altered : Channel.Altered (fun id ↦ ∃ d slot, op.Names d slot ∧ n.edgeAt d slot = some id) before
    after
  moved {d : Direction} {slot : Nat} {id : EdgeId} (names : op.Names d slot)
    (edge : n.edgeAt d slot = some id) : Channel.Moved g before after d id

namespace PortOp

variable {g : Graph} {n : NodeId} {node : Node} {channels : List (Channel κ)} {op : PortOp κ}

/-- Reading at the only port of an operation. -/
theorem ends_taking (op : PortOp κ) {slot : Nat} {k : κ} (huses : op.uses = [⟨.input, slot, k⟩]) {id : EdgeId}
    (hedge : node.edgeAt .input slot = some id) (hlength : ∀ l ∈ op.length?, l = g.rateAt .input id) :
    Fold.Ends
      (Channel.typed channels k id >>= fun q ↦ NodeError.lift (q.reserveRead (g.rateAt .input id)))
      (fun lent ↦ op.fault? g node channels = none ∧
        Channel.Moved g channels (Channel.put channels k id lent.2) .input id)
      (fun e ↦ op.fault? g node channels = some e) := by
  refine (ends_single (u := ⟨.input, slot, k⟩) huses hedge hlength
    fun q ↦ ends_reserveRead q _).mono ?_
  rintro ⟨r, q'⟩ - ⟨hnone, q, hc, hread⟩
  exact ⟨hnone, Channel.moved_of_reserveRead hc (Channel.getElem?_put hc k q') hread⟩

/-- Writing at the only port of an operation. -/
theorem ends_adding (op : PortOp κ) {slot : Nat} {k : κ} (huses : op.uses = [⟨.output, slot, k⟩]) {id : EdgeId}
    (hedge : node.edgeAt .output slot = some id)
    (hlength : ∀ l ∈ op.length?, l = g.rateAt .output id) :
    Fold.Ends
      (Channel.typed channels k id >>= fun q ↦ NodeError.lift (q.reserveWrite (g.rateAt .output id)))
      (fun lent ↦ op.fault? g node channels = none ∧ ∀ values, Channel.Moved g channels
        ((Filling.mk id k lent.1 values).apply (Channel.put channels k id lent.2)) .output id)
      (fun e ↦ op.fault? g node channels = some e) := by
  refine (ends_single (u := ⟨.output, slot, k⟩) huses hedge hlength
    fun q ↦ ends_reserveWrite q _).mono ?_
  rintro ⟨r, q'⟩ - ⟨hnone, q, hc, hwrite⟩
  refine ⟨hnone, fun values ↦ ?_⟩
  rw [Channel.apply_put]
  exact Channel.moved_of_reserveWrite hc (Channel.getElem?_put hc k _) hwrite

theorem fault?_of_length_ne {u : PortUse κ} (huses : op.uses = [u]) {id : EdgeId}
    (hedge : u.edge? node = some id) {l : Nat} (hlength : op.length? = some l)
    (hne : l ≠ g.rateAt u.direction id) : op.fault? g node channels = some .rateMismatch := by
  rw [fault?_of_uses_eq_singleton huses hedge, if_pos (by simpa [hlength] using hne)]

/-- Reading on one edge and writing on another moves a rate over each. -/
theorem moved_transform {source target : κ} {ein eout : EdgeId} {qin qin' : Fifo (Carrier source)}
    {qout qout' : Fifo (Carrier target)} {r : Lent source} {w : Lent target} (hne : ein ≠ eout)
    (hsrc : channels[ein]? = some ⟨source, qin⟩) (hdst : channels[eout]? = some ⟨target, qout⟩)
    (hread : qin.reserveRead (g.rateAt .input ein) = .ok (r, qin'))
    (hwrite : qout.reserveWrite (g.rateAt .output eout) = .ok (w, qout'))
    (values : List (Carrier target)) {after : List (Channel κ)}
    (hafter : after = (Filling.mk eout target w values).apply
      (Channel.put (Channel.put channels source ein qin') target eout qout')) :
    Channel.Moved g channels after .input ein ∧ Channel.Moved g channels after .output eout := by
  rw [Channel.apply_put] at hafter
  have hstays : (Channel.put channels source ein qin')[eout]? = some ⟨target, qout⟩ :=
    (List.getElem?_set_ne hne).trans hdst
  have hin : after[ein]? = some ⟨source, qin'⟩ := by
    rw [hafter, Channel.put, List.getElem?_set_ne hne.symm]
    exact Channel.getElem?_put hsrc source qin'
  have hout : after[eout]? = some ⟨target, qout'.fill w values⟩ := by
    rw [hafter]
    exact Channel.getElem?_put hstays target _
  exact ⟨Channel.moved_of_reserveRead hsrc hin hread, Channel.moved_of_reserveWrite hdst hout hwrite⟩

theorem ends_transform (hg : g.Coherent) (hnode : g.nodes[n]? = some node) {source target : κ}
    {inSlot outSlot : Nat} (values : Lent source → Lent target → List (Carrier target)) :
    Fold.Ends ((transform source target inSlot outSlot values).reserve node channels)
      (fun r ↦ (transform source target inSlot outSlot values).fault? g node channels = none ∧
        ∀ u ∈ (transform source target inSlot outSlot values).uses, ∃ id, u.edge? node = some id ∧
          Channel.Moved g channels r.commit u.direction id)
      (fun e ↦ (transform source target inSlot outSlot values).fault? g node channels = some e) := by
  rw [reserve, ← hg.access_input hnode, ← hg.access_output hnode]
  refine ends_access (u := ⟨.input, inSlot, source⟩) List.mem_cons_self fun ein hin ↦ ?_
  refine ends_access (u := ⟨.output, outSlot, target⟩)
    (List.mem_cons_of_mem _ (List.mem_singleton_self _)) fun eout hout ↦ ?_
  dsimp only
  have hfault : (transform source target inSlot outSlot values).fault? g node channels = _ :=
    fault?_transform hin hout
  by_cases hne : ein = eout
  · rw [if_pos hne]
    exact hfault.trans (if_pos hne)
  rw [if_neg hne] at hfault ⊢
  refine ((ends_typed channels source ein).mono_error ?_).bind fun qin _ hsrc ↦ ?_
  · rintro e ⟨hnone, rfl⟩
    rw [hfault, hnone]
  rw [hsrc, Option.bind_some, Channel.queue?_mk] at hfault
  refine ((ends_typed channels target eout).mono_error ?_).bind fun qout _ hdst ↦ ?_
  · rintro e ⟨hnone, rfl⟩
    rw [hfault, hnone]
  rw [hdst, Option.bind_some, Channel.queue?_mk] at hfault
  dsimp only [Fifo.shortage?] at hfault
  -- Nothing has moved yet when either side is found short.
  by_cases hunder : qin.willUnderflow (g.rateAt .input ein)
  · rw [if_pos hunder] at hfault ⊢
    exact hfault
  rw [if_neg hunder] at hfault ⊢
  by_cases hover : qout.willOverflow (g.rateAt .output eout)
  · rw [if_pos hover] at hfault ⊢
    exact hfault
  rw [if_neg hover] at hfault ⊢
  obtain ⟨r, qin', hread⟩ := Fifo.exists_reserveRead (f := qin) (n := g.rateAt .input ein)
    (by simpa [Fifo.willUnderflow] using hunder)
  obtain ⟨w, qout', hwrite⟩ := Fifo.exists_reserveWrite (f := qout) (n := g.rateAt .output eout)
    (by simpa [Fifo.willOverflow] using hover)
  obtain ⟨htaken, hadded⟩ := moved_transform hne hsrc hdst hread hwrite (values r w) rfl
  rw [hread, hwrite]
  exact ⟨hfault, List.forall_mem_cons.mpr
    ⟨⟨ein, hin, htaken⟩, List.forall_mem_singleton.mpr ⟨eout, hout, hadded⟩⟩⟩

theorem ends_reserve (hg : g.Coherent) (hnode : g.nodes[n]? = some node) (op : PortOp κ) :
    Fold.Ends (op.reserve node channels)
      (fun r ↦ op.fault? g node channels = none ∧ ∀ u ∈ op.uses, ∃ id, u.edge? node = some id ∧
        Channel.Moved g channels r.commit u.direction id)
      (fun e ↦ op.fault? g node channels = some e) := by
  cases op with
  | input k slot =>
    rw [reserve, ← hg.access_input hnode]
    refine ends_access (u := ⟨.input, slot, k⟩) (List.mem_singleton_self _) fun id hedge ↦ ?_
    dsimp only
    rw [← bind_assoc]
    refine (ends_taking (.input k slot) rfl hedge (by simp [length?])).bind ?_
    rintro lent - ⟨hnone, hmoved⟩
    exact ⟨hnone, List.forall_mem_singleton.mpr ⟨id, hedge, hmoved⟩⟩
  | output k slot values =>
    rw [reserve, ← hg.access_output hnode]
    refine ends_access (u := ⟨.output, slot, k⟩) (List.mem_singleton_self _) fun id hedge ↦ ?_
    dsimp only
    rw [← bind_assoc]
    refine (ends_adding (.output k slot values) rfl hedge (by simp [length?])).bind ?_
    rintro lent - ⟨hnone, hmoved⟩
    exact ⟨hnone, List.forall_mem_singleton.mpr ⟨id, hedge, hmoved _⟩⟩
  | pop k slot length =>
    rw [reserve, ← hg.access_input hnode]
    refine ends_access (u := ⟨.input, slot, k⟩) (List.mem_singleton_self _) fun id hedge ↦ ?_
    dsimp only
    by_cases hne : length ≠ g.rateAt .input id
    · rw [if_pos hne]
      exact fault?_of_length_ne (u := ⟨.input, slot, k⟩) rfl hedge rfl hne
    rw [if_neg hne]
    simp only [NodeError.lift_pop, bind_assoc, pure_bind]
    rw [← bind_assoc]
    refine (ends_taking (.pop k slot length) rfl hedge ?_).bind ?_
    · intro l hl
      cases hl
      exact not_not.mp hne
    · rintro lent - ⟨hnone, hmoved⟩
      exact ⟨hnone, List.forall_mem_singleton.mpr ⟨id, hedge, hmoved⟩⟩
  | push k slot values =>
    rw [reserve, ← hg.access_output hnode]
    refine ends_access (u := ⟨.output, slot, k⟩) (List.mem_singleton_self _) fun id hedge ↦ ?_
    dsimp only
    by_cases hne : values.length ≠ g.rateAt .output id
    · rw [if_pos hne]
      exact fault?_of_length_ne (u := ⟨.output, slot, k⟩) rfl hedge rfl hne
    rw [if_neg hne, ← bind_assoc]
    refine (ends_adding (.push k slot values) rfl hedge ?_).bind ?_
    · intro l hl
      cases hl
      exact not_not.mp hne
    · rintro lent - ⟨hnone, hmoved⟩
      exact ⟨hnone, List.forall_mem_singleton.mpr ⟨id, hedge, hmoved _⟩⟩
  | transform source target inSlot outSlot values => exact ends_transform hg hnode values

theorem fault?_of_edgeAt_eq_none {d : Direction} {slot : Nat} (hnames : op.Names d slot)
    (hnone : node.edgeAt d slot = none) : op.fault? g node channels = some .invalidPort := by
  obtain ⟨u, hu, rfl, rfl⟩ := names_iff.mp hnames
  exact if_pos (List.any_eq_true.mpr ⟨u, hu, by simp [PortUse.edge?, hnone]⟩)

end PortOp

section CarryOut

variable {g : Graph} {n : NodeId} {node : Node} {channels : List (Channel κ)}

/-- An operation does all that it reserves, or fails for what stands against it and does nothing. -/
theorem PortOp.carryOut_cases (hg : g.Coherent) (hnode : g.nodes[n]? = some node)
    (hlength : channels.length = g.edges.length) (op : PortOp κ) :
    (∃ r : Reservation κ op.Result, op.reserve node channels = .ok r ∧
      op.carryOut g node channels = (.ok r.answer, r.commit) ∧
      op.fault? g node channels = none ∧ op.Moves g node channels r.commit) ∨
    ∃ e, op.reserve node channels = .error e ∧ op.carryOut g node channels = (.error e, channels) ∧
      op.fault? g node channels = some e := by
  have hends : Fold.Ends (op.reserve node channels) _ _ := ends_reserve hg hnode op
  rw [carryOut_eq hg hnode hlength]
  cases hreserve : op.reserve node channels with
  | error e =>
    rw [hreserve] at hends
    exact .inr ⟨e, rfl, rfl, hends⟩
  | ok r =>
    rw [hreserve] at hends
    obtain ⟨hnone, hmoved⟩ := hends
    refine .inl ⟨r, rfl, rfl, hnone, altered_of_reserve hreserve, fun {d slot id} hnames hedge ↦ ?_⟩
    obtain ⟨u, hu, rfl, rfl⟩ := names_iff.mp hnames
    obtain ⟨id', hid', hmoved⟩ := hmoved u hu
    cases hid'.symm.trans hedge
    exact hmoved

end CarryOut

/-! ## Calls -/

/-- A call of an operation: what it was answered, and the queues before and after it. -/
structure PortCall (κ : Type) [ElementKind κ] where
  op : PortOp κ
  answer : Except NodeError op.Result
  before : List (Channel κ)
  after : List (Channel κ)

namespace PortCall

def of (g : Graph) (n : Node) (channels : List (Channel κ)) (op : PortOp κ) : PortCall κ where
  op := op
  answer := (op.carryOut g n channels).1
  before := channels
  after := (op.carryOut g n channels).2

/-- Each call finds the queues as the one before left them. -/
def Chain (before : List (Channel κ)) : List (PortCall κ) → List (Channel κ) → Prop
  | [], after => after = before
  | c :: calls, after => c.before = before ∧ Chain c.after calls after

/-- A call in node `n` fails exactly when something stands against its operation, and then nothing has
changed. Otherwise one rate has moved over each port that is named, and nothing else. -/
structure Atomic (g : Graph) (n : Node) (c : PortCall κ) : Prop where
  error_iff (e : NodeError) : c.answer = .error e ↔ c.op.fault? g n c.before = some e
  unchanged {e : NodeError} (h : c.answer = .error e) : c.after = c.before
  moves {answer : c.op.Result} (h : c.answer = .ok answer) : c.op.Moves g n c.before c.after
  /-- A slot without an edge is refused. -/
  unbound {d : Direction} {slot : Nat} (names : c.op.Names d slot) (h : n.edgeAt d slot = none) :
    c.answer = .error .invalidPort
  /-- A transformation on one edge is refused. -/
  looped {source target : κ} {inSlot outSlot : Nat}
    {fill : Lent source → Lent target → List (Carrier target)} {id : EdgeId}
    (op : c.op = .transform source target inSlot outSlot fill)
    (input : n.edgeAt .input inSlot = some id) (output : n.edgeAt .output outSlot = some id) :
    c.answer = .error .invalidPort

variable {g : Graph} {n : NodeId} {node : Node} {channels : List (Channel κ)}

theorem atomic_of (hg : g.Coherent) (hnode : g.nodes[n]? = some node)
    (hlength : channels.length = g.edges.length) (op : PortOp κ) :
    (of g node channels op).Atomic g node := by
  have hcases := op.carryOut_cases hg hnode hlength
  have herror (e : NodeError) :
      (op.carryOut g node channels).1 = .error e ↔ op.fault? g node channels = some e := by
    rcases hcases with ⟨r, -, hcarry, hnone, -⟩ | ⟨e', -, hcarry, hfault⟩
    · simp [hcarry, hnone]
    · simp [hcarry, hfault]
  refine ⟨herror, fun {e} h ↦ ?_, fun {answer} h ↦ ?_, fun hnames hnone ↦ ?_,
    fun {source target inSlot outSlot fill id} hop hin hout ↦ ?_⟩
  · change (op.carryOut g node channels).1 = .error e at h
    change (op.carryOut g node channels).2 = channels
    rcases hcases with ⟨r, -, hcarry, -⟩ | ⟨e', -, hcarry, -⟩
    · rw [hcarry] at h
      cases h
    · rw [hcarry]
  · change (op.carryOut g node channels).1 = .ok answer at h
    change op.Moves g node channels (op.carryOut g node channels).2
    rcases hcases with ⟨r, -, hcarry, -, hmoves⟩ | ⟨e', -, hcarry, -⟩
    · rw [hcarry]
      exact hmoves
    · rw [hcarry] at h
      cases h
  · exact (herror _).mpr (PortOp.fault?_of_edgeAt_eq_none hnames hnone)
  · cases hop
    refine (herror _).mpr ?_
    rw [PortOp.fault?_transform hin hout, if_pos rfl]

end PortCall

/-- The calls of an activity of node `n` on the queues `channels`, each carried out where they stand. -/
def Activity.portCalls (g : Graph) (n : Node) (id : NodeId) :
    Activity κ α → List (Channel κ) → List (PortCall κ)
  | done _, _ => []
  | look next, channels => (next (n.view id channels)).portCalls g n id channels
  | call op next, channels =>
    PortCall.of g n channels op ::
      (next (op.carryOut g n channels).1).portCalls g n id (op.carryOut g n channels).2

section Calls

variable {g : Graph} {n : NodeId} {node : Node} {channels : List (Channel κ)}

theorem PortCall.Atomic.length_after {c : PortCall κ} (h : c.Atomic g node) :
    c.after.length = c.before.length := by
  cases hanswer : c.answer with
  | error e => rw [h.unchanged hanswer]
  | ok answer =>
    have horigins := congrArg List.length (h.moves hanswer).altered.origins
    rwa [List.length_map, List.length_map] at horigins

theorem Activity.exec_call (hg : g.Coherent) (hnode : g.nodes[n]? = some node)
    (hlength : channels.length = g.edges.length) (op : PortOp κ)
    (next : Except NodeError op.Result → Activity κ α) :
    (call op next).exec node n channels =
      (next (op.carryOut g node channels).1).exec node n (op.carryOut g node channels).2 := by
  rcases op.carryOut_cases hg hnode hlength with ⟨r, hreserve, hcarry, -⟩ | ⟨e, hreserve, hcarry, -⟩
  · rw [exec_call_of_ok hreserve, hcarry]
  · rw [exec_call_of_error hreserve, hcarry]

/-- The calls lead from the queues before an activity to those after it. -/
theorem Activity.chain_portCalls (hg : g.Coherent) (hnode : g.nodes[n]? = some node)
    (act : Activity κ α) (hlength : channels.length = g.edges.length) :
    PortCall.Chain channels (act.portCalls g node n channels) (act.exec node n channels).2 ∧
      ∀ c ∈ act.portCalls g node n channels, c.Atomic g node := by
  induction act generalizing channels with
  | done result => exact ⟨rfl, by simp [portCalls]⟩
  | look next ih => exact ih _ hlength
  | call op next ih =>
    have hatomic := PortCall.atomic_of hg hnode hlength op
    obtain ⟨hchain, hcalls⟩ := ih (op.carryOut g node channels).1
      (hatomic.length_after.trans hlength)
    rw [exec_call hg hnode hlength]
    exact ⟨⟨rfl, hchain⟩, List.forall_mem_cons.mpr ⟨hatomic, hcalls⟩⟩

/-- Each call is answered, and leaves the queues, as the activity has it that reserves. -/
theorem Activity.settle_of_mem_portCalls (hg : g.Coherent) (hnode : g.nodes[n]? = some node)
    (act : Activity κ α) (hlength : channels.length = g.edges.length) :
    ∀ c ∈ act.portCalls g node n channels,
      Reservation.settle c.before (c.op.reserve node c.before) = (c.answer, c.after) := by
  induction act generalizing channels with
  | done result => exact fun c hc ↦ absurd hc List.not_mem_nil
  | look next ih => exact ih _ hlength
  | call op next ih =>
    have hlength' := (PortCall.atomic_of hg hnode hlength op).length_after.trans hlength
    exact List.forall_mem_cons.mpr ⟨(op.carryOut_eq hg hnode hlength).symm, ih _ hlength'⟩

/-- Whatever operations a node of a compiled graph calls, each of them is atomic and keeps to the queues of
the ports that it names. -/
theorem Graph.portCalls_atomic (hb : g.Built) {o : CompileOptions} {p : Plan} (hp : g.compile o = .ok p)
    (hnode : p.graph.nodes[n]? = some node) (hlength : channels.length = p.graph.edges.length)
    (act : Activity κ α) :
    PortCall.Chain channels (act.portCalls p.graph node n channels) (act.exec node n channels).2 ∧
      ∀ c ∈ act.portCalls p.graph node n channels, c.Atomic p.graph node :=
  act.chain_portCalls (sound_of_compile hb.coherent hp).1.coherent hnode hlength

end Calls

namespace Looped

/-- What node `a` may try: to hand its token over within its loop, a slot that it does not have, too many
elements and others than there are, then to pass its token on, and to take it again. -/
def probing : Activity Scalar Unit :=
  .call (.transform .u8 .u8 0 1 fun lent _ ↦ lent.toList) fun _ ↦
    .call (.input .u8 1) fun _ ↦
      .call (.push .u8 0 [(1 : UInt8), (2 : UInt8)]) fun _ ↦
        .call (.pop .u16 0 1) fun _ ↦
          .call (.transform .u8 .u8 0 0 fun lent _ ↦ lent.toList) fun _ ↦
            .call (.pop .u8 0 1) fun _ ↦ .done ()

theorem portCalls_probing : ∃ e w,
    (Binding.ofCalls (plan .static [7, 2]) 0 calls).build world = (.ok e, w) ∧
      (∀ c ∈ probing.portCalls graph source 0 e.channels, c.Atomic graph source) ∧
      ((probing.portCalls graph source 0 e.channels).map fun c ↦ c.op.fault? graph source c.before) =
        [some .invalidPort, some .invalidPort, some .rateMismatch, some .typeMismatch, none,
          some (.recoverable .bufferUnderflow)] ∧
      (probing.exec source 0 e.channels).2.map Channel.available = [4, 0] := by
  obtain ⟨e, w, hbuild⟩ : ∃ e w,
      (Binding.ofCalls (plan .static [7, 2]) 0 calls).build world = (.ok e, w) := ⟨_, _, rfl⟩
  have hlength : e.channels.length = graph.edges.length := by
    cases hbuild
    rfl
  obtain ⟨-, hatomic⟩ := Graph.portCalls_atomic built_graph compile_graph
    (rfl : graph.nodes[0]? = some source) hlength probing
  refine ⟨e, w, hbuild, hatomic, ?_, ?_⟩
  · cases hbuild
    decide +kernel
  · cases hbuild
    decide +kernel

end Looped

end Dataflow
