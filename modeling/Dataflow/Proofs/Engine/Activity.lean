import Dataflow.Proofs.Engine.Operations
import Mathlib.Logic.Function.Basic

/-!
# Activities that use each port once

Such an activity takes what is given at its inputs, offers values at its outputs, in any order and with
any looks at the queues in between, and then ends. If there are elements and room for it, every
operation succeeds, and the order of the operations does not show. If not, an operation is refused; an
activity that then leaves the port alone moves nothing over its edge.
-/

namespace Dataflow

variable {κ : Type} [ElementKind κ] {α : Type}

open ElementKind (Carrier)

/-! ## Queues of a plan -/

/-- The queues have these kinds and capacities. -/
def Channel.Fit (kind : EdgeId → κ) (room : Levels) (size : Nat) (channels : List (Channel κ)) : Prop :=
  Channel.shape channels = (List.range size).map fun id ↦ (kind id, room id)

namespace Channel

variable {kind : EdgeId → κ} {room : Levels} {size : Nat} {channels : List (Channel κ)} {id : EdgeId}

theorem Fit.exists_queue (h : Fit kind room size channels) (hid : id < size) :
    ∃ q, channels[id]? = some ⟨kind id, q⟩ ∧ q.capacity = room id := by
  have hget := congrArg (·[id]?) h
  simp only [shape, List.getElem?_map, List.getElem?_range hid, Option.map_some,
    Option.map_eq_some_iff, Prod.mk.injEq] at hget
  obtain ⟨⟨k, q⟩, hc, hkind, hcapacity⟩ := hget
  cases hkind
  exact ⟨q, hc, hcapacity⟩

theorem Fit.length_eq (h : Fit kind room size channels) : channels.length = size := by
  simpa [shape] using congrArg List.length h

theorem Fit.of_shape_eq {channels' : List (Channel κ)} (h : Fit kind room size channels)
    (hshape : shape channels' = shape channels) : Fit kind room size channels' := hshape.trans h

theorem Fit.length_contents (h : Fit kind room size channels) (hid : id < size) :
    (contents channels id (kind id)).length = level channels id := by
  obtain ⟨q, hc, -⟩ := h.exists_queue hid
  exact Channel.length_contents hc

theorem Fit.level_le (h : Fit kind room size channels) (hid : id < size) :
    level channels id ≤ room id := by
  obtain ⟨q, hc, hcapacity⟩ := h.exists_queue hid
  rw [Channel.level_of_getElem? hc, ← hcapacity]
  exact q.size_le

/-! ## One queue after an operation -/

variable {channels' : List (Channel κ)}

theorem Fit.level_le_of_drop (h : Fit kind room size channels) (hid : id < size)
    (haltered : Altered (· = id) channels channels') {length : Nat}
    (hcontents : contents channels' id (kind id) = (contents channels id (kind id)).drop length) :
    level channels' id ≤ level channels id := by
  calc
    level channels' id = ((contents channels id (kind id)).drop length).length := by
      rw [← (h.of_shape_eq haltered.shape).length_contents hid, hcontents]
    _ = level channels id - length := by rw [List.length_drop, h.length_contents hid]
    _ ≤ level channels id := Nat.sub_le _ _

theorem Fit.level_eq_of_append (h : Fit kind room size channels) (hid : id < size)
    (haltered : Altered (· = id) channels channels') {values : List (Carrier (kind id))}
    (hcontents : contents channels' id (kind id) = contents channels id (kind id) ++ values) :
    level channels' id = level channels id + values.length := by
  calc
    level channels' id = (contents channels id (kind id) ++ values).length := by
      rw [← (h.of_shape_eq haltered.shape).length_contents hid, hcontents]
    _ = level channels id + values.length := by rw [List.length_append, h.length_contents hid]

end Channel

namespace Activity

theorem exec_call_of_ok {n : Node} {nid : NodeId} {op : PortOp κ}
    {next : Except NodeError op.Result → Activity κ α} {channels : List (Channel κ)}
    {r : Reservation κ op.Result} (h : op.reserve n channels = .ok r) :
    (call op next).exec n nid channels = (next (.ok r.answer)).exec n nid r.commit := by
  simp only [exec, h]

theorem exec_call_of_error {n : Node} {nid : NodeId} {op : PortOp κ}
    {next : Except NodeError op.Result → Activity κ α} {channels : List (Channel κ)} {e : NodeError}
    (h : op.reserve n channels = .error e) :
    (call op next).exec n nid channels = (next (.error e)).exec n nid channels := by
  simp only [exec, h]

section Operations

variable {kind : EdgeId → κ} {room : Levels} {size : Nat} {n : Node} {channels : List (Channel κ)}
  {slot rate : Nat} {id : EdgeId}

/-- A pop takes what is in front of its queue. -/
theorem exec_pop (hfit : Channel.Fit kind room size channels) (hid : id < size)
    {given : List (Carrier (kind id))} (hport : n.inputAccess slot = .ok (id, given.length))
    (hpre : given <+: Channel.contents channels id (kind id))
    (next : Except NodeError (List (Carrier (kind id))) → Activity κ α) (nid : NodeId) :
    ∃ channels', Channel.Altered (· = id) channels channels' ∧
      Channel.contents channels' id (kind id) =
        (Channel.contents channels id (kind id)).drop given.length ∧
      (call (.pop (kind id) slot given.length) next).exec n nid channels =
        (next (.ok given)).exec n nid channels' := by
  obtain ⟨q, hc, -⟩ := hfit.exists_queue hid
  have hlt : id < channels.length := (List.getElem?_eq_some_iff.mp hc).1
  rw [Channel.contents_of_getElem? hc] at hpre ⊢
  have henough : given.length ≤ q.size := by simpa using hpre.length_le
  have htake : q.contents.take given.length = given := (List.prefix_iff_eq_take.mp hpre).symm
  obtain ⟨q', hreserve, hcontents⟩ := PortOp.reserve_pop hport hc henough
  rw [htake] at hreserve
  refine ⟨channels.set id ⟨kind id, q'⟩, ⟨(PortOp.altered_of_reserve hreserve).origins, fun i hi ↦
    List.getElem?_set_ne (Ne.symm hi)⟩, ?_, exec_call_of_ok hreserve⟩
  rw [Channel.contents_of_getElem? (List.getElem?_set_self hlt), hcontents]

theorem exec_pop_short (hfit : Channel.Fit kind room size channels) (hid : id < size)
    (hport : n.inputAccess slot = .ok (id, rate)) (hshort : ¬ rate ≤ Channel.level channels id)
    (next : Except NodeError (List (Carrier (kind id))) → Activity κ α) (nid : NodeId) :
    (call (.pop (kind id) slot rate) next).exec n nid channels =
      (next (.error (.recoverable .bufferUnderflow))).exec n nid channels := by
  obtain ⟨q, hc, -⟩ := hfit.exists_queue hid
  rw [Channel.level_of_getElem? hc] at hshort
  exact exec_call_of_error (PortOp.reserve_pop_short hport hc (Nat.not_le.mp hshort))

/-- A push appends to its queue. -/
theorem exec_push (hfit : Channel.Fit kind room size channels) (hid : id < size)
    {values : List (Carrier (kind id))} (hport : n.outputAccess slot = .ok (id, values.length))
    (hroom : Channel.level channels id + values.length ≤ room id)
    (next : Except NodeError Unit → Activity κ α) (nid : NodeId) :
    ∃ channels', Channel.Altered (· = id) channels channels' ∧
      Channel.contents channels' id (kind id) =
        Channel.contents channels id (kind id) ++ values ∧
      (call (.push (kind id) slot values) next).exec n nid channels =
        (next (.ok ())).exec n nid channels' := by
  obtain ⟨q, hc, hcapacity⟩ := hfit.exists_queue hid
  have hlt : id < channels.length := (List.getElem?_eq_some_iff.mp hc).1
  have hfree : values.length ≤ q.free := by
    rw [Channel.level_of_getElem? hc, ← hcapacity] at hroom
    exact Nat.le_sub_of_add_le' hroom
  obtain ⟨r, q', hreserve, -, hcommit, hcontents⟩ := PortOp.reserve_push hport hc hfree
  have hexec : (call (.push (kind id) slot values) next).exec n nid channels =
      (next (.ok ())).exec n nid r.commit := exec_call_of_ok hreserve
  refine ⟨r.commit, ⟨(PortOp.altered_of_reserve hreserve).origins, fun i hi ↦ ?_⟩, ?_, hexec⟩
  · rw [hcommit]
    exact List.getElem?_set_ne (Ne.symm hi)
  · rw [hcommit, Channel.contents_of_getElem? (List.getElem?_set_self hlt), hcontents,
      Channel.contents_of_getElem? hc]

theorem exec_push_short (hfit : Channel.Fit kind room size channels) (hid : id < size)
    {values : List (Carrier (kind id))} (hport : n.outputAccess slot = .ok (id, values.length))
    (hshort : ¬ Channel.level channels id + values.length ≤ room id)
    (next : Except NodeError Unit → Activity κ α) (nid : NodeId) :
    (call (.push (kind id) slot values) next).exec n nid channels =
      (next (.error (.recoverable .bufferOverflow))).exec n nid channels := by
  obtain ⟨q, hc, hcapacity⟩ := hfit.exists_queue hid
  have hfree : q.free < values.length := by
    rw [Channel.level_of_getElem? hc, ← hcapacity] at hshort
    simp only [Channel.available] at hshort
    have hle := q.size_le
    simp only [Fifo.free, Fifo.capacity] at hshort ⊢
    omega
  exact exec_call_of_error (PortOp.reserve_push_short hport hc hfree)

end Operations

/-! ## What an activity leaves alone -/

/-- No operation works on this edge. -/
def Avoids (n : Node) (id : EdgeId) : Activity κ α → Prop
  | done _ => True
  | look next => ∀ v, (next v).Avoids n id
  | call op next => (∀ d slot, op.Names d slot → n.edgeAt d slot ≠ some id) ∧
      ∀ answer, (next answer).Avoids n id

/-- An activity alters no kinds and capacities, and no queue that it avoids. -/
theorem altered_of_exec (n : Node) (nid : NodeId) (act : Activity κ α) (channels : List (Channel κ)) :
    Channel.Altered (fun id ↦ ¬ act.Avoids n id) channels (act.exec n nid channels).2 := by
  induction act generalizing channels with
  | done a => exact .refl _ _
  | look next ih =>
    exact (ih _ channels).mono fun id hid havoids ↦ hid (havoids _)
  | call op next ih =>
    unfold exec
    cases hreserve : op.reserve n channels with
    | error e => exact (ih _ channels).mono fun id hid havoids ↦ hid (havoids.2 _)
    | ok r =>
      refine ((PortOp.altered_of_reserve hreserve).mono ?_).trans
        ((ih _ r.commit).mono fun id hid havoids ↦ hid (havoids.2 _))
      rintro id ⟨d, slot, hnames, hedge⟩ havoids
      exact havoids.1 d slot hnames hedge

/-- Every activity avoids the edges that the node does not have. -/
theorem avoids_of_forall_ne {n : Node} {id : EdgeId} (h : ∀ d slot, n.edgeAt d slot ≠ some id)
    (act : Activity κ α) : act.Avoids n id := by
  induction act with
  | done a => trivial
  | look next ih => exact ih
  | call op next ih => exact ⟨fun d slot _ ↦ h d slot, ih⟩

/-- No operation names this port, and all results are in `P`. -/
def Leaves (d : Direction) (slot : Nat) (P : α → Prop) : Activity κ α → Prop
  | done a => P a
  | look next => ∀ v, (next v).Leaves d slot P
  | call op next => ¬ op.Names d slot ∧ ∀ answer, (next answer).Leaves d slot P

theorem Leaves.result {d : Direction} {slot : Nat} {P : α → Prop} {act : Activity κ α}
    (h : act.Leaves d slot P) (n : Node) (nid : NodeId) (channels : List (Channel κ)) :
    P (act.exec n nid channels).1 := by
  induction act generalizing channels with
  | done a => exact h
  | look next ih => exact ih _ (h _) channels
  | call op next ih =>
    unfold exec
    cases op.reserve n channels with
    | error e => exact ih _ (h.2 _) channels
    | ok r => exact ih _ (h.2 _) r.commit

theorem Leaves.avoids {n : Node} {id : EdgeId} {d : Direction} {slot : Nat} {P : α → Prop}
    {act : Activity κ α} (h : act.Leaves d slot P)
    (hport : ∀ d' slot', n.edgeAt d' slot' = some id → d' = d ∧ slot' = slot) :
    act.Avoids n id := by
  induction act with
  | done a => trivial
  | look next ih => exact fun v ↦ ih v (h v)
  | call op next ih =>
    refine ⟨fun d' slot' hnames hedge ↦ h.1 ?_, fun answer ↦ ih answer (h.2 answer)⟩
    obtain ⟨rfl, rfl⟩ := hport d' slot' hedge
    exact hnames

/-- Nothing is moved over an edge when the only port of the node at it is left alone. -/
theorem Leaves.level_exec {n : Node} {id : EdgeId} {d : Direction} {slot : Nat} {P : α → Prop}
    {act : Activity κ α} (h : act.Leaves d slot P) (hat : n.edgeAt d slot = some id)
    (hport : ∀ slot', n.edgeAt d slot' = some id → slot' = slot)
    (hone : ∀ slot', n.edgeAt d.flip slot' ≠ some id) (nid : NodeId) (channels : List (Channel κ)) :
    Channel.level (act.exec n nid channels).2 id = Channel.level channels id := by
  have havoids : act.Avoids n id := h.avoids fun d' slot' hslot' ↦ by
    by_cases hd : d' = d
    · subst hd
      exact ⟨rfl, hport slot' hslot'⟩
    · exact absurd hslot' (Direction.eq_flip_of_ne hd ▸ hone slot')
  exact Channel.level_congr ((altered_of_exec n nid act channels).others id fun h ↦ h havoids)

end Activity

/-! ## Each port once -/

/-- What an activity is about: what it is given at its inputs, what it may offer at its outputs, how it
may end, and how it may go on when an operation on a port is refused. -/
structure Protocol (kind : EdgeId → κ) (α : Type) where
  given : (id : EdgeId) → List (Carrier (kind id))
  offers : (id : EdgeId) → List (Carrier (kind id)) → Prop
  ends : α → Prop
  refused : Direction → Nat → Activity κ α → Prop

/-- The activity pops once at each of the edges `ins` and pushes once at each of the edges `outs`. -/
inductive Activity.Follows {kind : EdgeId → κ} (n : Node) (p : Protocol kind α) :
    (ins outs : List EdgeId) → Activity κ α → Prop where
  | done {a : α} (h : p.ends a) : Follows n p [] [] (.done a)
  | look {ins outs : List EdgeId} {next : PortView → Activity κ α}
      (h : ∀ v, Follows n p ins outs (next v)) : Follows n p ins outs (.look next)
  | pop {ins outs : List EdgeId} {slot : Nat} {id : EdgeId}
      {next : Except NodeError (List (Carrier (kind id))) → Activity κ α}
      (port : n.inputAccess slot = .ok (id, (p.given id).length)) (mem : id ∈ ins)
      (h : Follows n p (ins.erase id) outs (next (.ok (p.given id))))
      (refused : ∀ e, p.refused .input slot (next (.error e))) :
      Follows n p ins outs (.call (.pop (kind id) slot (p.given id).length) next)
  | push {ins outs : List EdgeId} {slot : Nat} {id : EdgeId} {values : List (Carrier (kind id))}
      {next : Except NodeError Unit → Activity κ α}
      (port : n.outputAccess slot = .ok (id, values.length)) (mem : id ∈ outs)
      (offers : p.offers id values)
      (h : Follows n p ins (outs.erase id) (next (.ok ())))
      (refused : ∀ e, p.refused .output slot (next (.error e))) :
      Follows n p ins outs (.call (.push (kind id) slot values) next)

theorem Activity.Follows.pop_of_length {kind : EdgeId → κ} {n : Node} {p : Protocol kind α}
    {ins outs : List EdgeId} {slot length : Nat} {id : EdgeId}
    {next : Except NodeError (List (Carrier (kind id))) → Activity κ α}
    (hlength : (p.given id).length = length) (port : n.inputAccess slot = .ok (id, length))
    (mem : id ∈ ins) (h : Follows n p (ins.erase id) outs (next (.ok (p.given id))))
    (refused : ∀ e, p.refused .input slot (next (.error e))) :
    Follows n p ins outs (.call (.pop (kind id) slot length) next) := by
  subst hlength
  exact .pop port mem h refused

/-! ## Operations that succeed -/

section Trade

variable {kind : EdgeId → κ} {room : Levels} {size : Nat}

/-- The contents of an edge after a trade. -/
def traded (before given pushed : List α) (isIn isOut : Prop) [Decidable isIn] [Decidable isOut] :
    List α :=
  (if isIn then before.drop given.length else before) ++ if isOut then pushed else []

/-- The edges `ins` hold what is given, and the edges `outs` have room for the rate of the port. -/
structure Supplied (n : Node) (p : Protocol kind α) (room : Levels) (ins outs : List EdgeId)
    (channels : List (Channel κ)) : Prop where
  given (id : EdgeId) (h : id ∈ ins) : p.given id <+: Channel.contents channels id (kind id)
  free (id : EdgeId) (h : id ∈ outs) (slot rate : Nat) (port : n.outputAccess slot = .ok (id, rate)) :
    Channel.level channels id + rate ≤ room id

variable {n : Node} {p : Protocol kind α} {ins outs : List EdgeId} {id : EdgeId}
  {channels channels' : List (Channel κ)}

/-- After a pop the other supplies are still there. -/
theorem Supplied.pop (h : Supplied n p room ins outs channels) (hins : ins.Nodup)
    (haltered : Channel.Altered (· = id) channels channels')
    (hlevel : Channel.level channels' id ≤ Channel.level channels id) :
    Supplied n p room (ins.erase id) outs channels' where
  given i hi := by
    obtain ⟨hne, hi⟩ := hins.mem_erase_iff.mp hi
    rw [Channel.contents_congr (haltered.others i hne)]
    exact h.given i hi
  free i hi slot rate hport := by
    refine Nat.le_trans (Nat.add_le_add_right ?_ rate) (h.free i hi slot rate hport)
    by_cases heq : i = id
    · subst heq
      exact hlevel
    · exact Nat.le_of_eq (Channel.level_congr (haltered.others i heq))

/-- After a push the other supplies are still there. -/
theorem Supplied.push (h : Supplied n p room ins outs channels) (houts : outs.Nodup)
    (haltered : Channel.Altered (· = id) channels channels') {values : List (Carrier (kind id))}
    (hcontents : Channel.contents channels' id (kind id) =
      Channel.contents channels id (kind id) ++ values) :
    Supplied n p room ins (outs.erase id) channels' where
  given i hi := by
    by_cases heq : i = id
    · subst heq
      rw [hcontents]
      exact (h.given i hi).trans (List.prefix_append _ _)
    · rw [Channel.contents_congr (haltered.others i heq)]
      exact h.given i hi
  free i hi slot rate hport := by
    obtain ⟨hne, hi⟩ := houts.mem_erase_iff.mp hi
    rw [Channel.level_congr (haltered.others i hne)]
    exact h.free i hi slot rate hport

/-- With all supplies there, the activity ends as it may, and has traded what is given for what it
offered. -/
theorem Activity.Follows.exec {n : Node} {p : Protocol kind α} {ins outs : List EdgeId}
    {act : Activity κ α} (h : act.Follows n p ins outs) {channels : List (Channel κ)}
    (hfit : Channel.Fit kind room size channels)
    (hedge : ∀ d slot id, n.edgeAt d slot = some id → id < size)
    (hins : ins.Nodup) (houts : outs.Nodup) (hsupplied : Supplied n p room ins outs channels)
    (nid : NodeId) :
    p.ends (act.exec n nid channels).1 ∧
      ∃ pushed : (id : EdgeId) → List (Carrier (kind id)),
        (∀ id ∈ outs, p.offers id (pushed id) ∧
          ∃ slot, n.outputAccess slot = .ok (id, (pushed id).length)) ∧
        ∀ id, Channel.contents (act.exec n nid channels).2 id (kind id) =
          traded (Channel.contents channels id (kind id)) (p.given id) (pushed id)
            (id ∈ ins) (id ∈ outs) := by
  induction h generalizing channels with
  | done h => exact ⟨h, fun _ ↦ [], by simp, fun id ↦ by simp [traded, Activity.exec]⟩
  | look h ih => exact ih _ hfit hins houts hsupplied
  | @pop ins outs slot id next port mem _ _ ih =>
    have hid := hedge .input slot id (Node.edgeAt_of_inputAccess port)
    obtain ⟨channels', haltered, hcontents, hexec⟩ :=
      exec_pop hfit hid port (hsupplied.given id mem) next nid
    have hlevel := hfit.level_le_of_drop hid haltered hcontents
    obtain ⟨hends, pushed, hpushed, htraded⟩ := ih (hfit.of_shape_eq haltered.shape)
      (hins.erase id) houts (hsupplied.pop hins haltered hlevel)
    rw [hexec]
    refine ⟨hends, pushed, hpushed, fun i ↦ ?_⟩
    rw [htraded, traded, traded]
    by_cases hi : i = id
    · subst hi
      rw [hcontents, if_neg hins.not_mem_erase, if_pos mem]
    · rw [Channel.contents_congr (haltered.others i hi)]
      simp only [hins.mem_erase_iff, hi, ne_eq, not_false_eq_true, true_and]
  | @push ins outs slot id values next port mem offers _ _ ih =>
    have hid := hedge .output slot id (Node.edgeAt_of_outputAccess port)
    obtain ⟨channels', haltered, hcontents, hexec⟩ :=
      exec_push hfit hid port (hsupplied.free id mem slot values.length port) next nid
    obtain ⟨hends, pushed, hpushed, htraded⟩ := ih (hfit.of_shape_eq haltered.shape) hins
      (houts.erase id) (hsupplied.push houts haltered hcontents)
    rw [hexec]
    refine ⟨hends, Function.update pushed id values, fun i hi ↦ ?_, fun i ↦ ?_⟩
    · by_cases heq : i = id
      · subst heq
        rw [Function.update_self]
        exact ⟨offers, slot, port⟩
      · rw [Function.update_of_ne heq]
        exact hpushed i (houts.mem_erase_iff.mpr ⟨heq, hi⟩)
    · rw [htraded, traded, traded]
      by_cases heq : i = id
      · subst heq
        rw [Function.update_self, hcontents, if_neg houts.not_mem_erase, if_pos mem,
          List.append_nil]
        split
        · rename_i hi
          rw [List.drop_append_of_le_length (hsupplied.given i hi).length_le]
        · rfl
      · rw [Function.update_of_ne heq, Channel.contents_congr (haltered.others i heq)]
        simp only [houts.mem_erase_iff, heq, ne_eq, not_false_eq_true, true_and]

/-! ## Operations that are refused -/

/-- An edge has its elements or its room on this side. -/
def Suffices (n : Node) (p : Protocol kind α) (room : Levels) (channels : List (Channel κ)) :
    Direction → EdgeId → Prop
  | .input, id => (p.given id).length ≤ Channel.level channels id
  | .output, id => ∀ slot rate, n.outputAccess slot = .ok (id, rate) →
      Channel.level channels id + rate ≤ room id

/-- The edges to be popped and those to be pushed to. -/
def pending (ins outs : List EdgeId) : Direction → List EdgeId
  | .input => ins
  | .output => outs

/-- The activity is given what there is, as far as there is enough, and the edges that the node has on
both sides suffice. -/
structure Exposed (n : Node) (p : Protocol kind α) (room : Levels) (ins outs : List EdgeId)
    (channels : List (Channel κ)) : Prop where
  given (id : EdgeId) (h : id ∈ ins) (enough : (p.given id).length ≤ Channel.level channels id) :
    p.given id <+: Channel.contents channels id (kind id)
  loops (d : Direction) (id : EdgeId) (h : id ∈ pending ins outs d) (slot : Nat)
    (port : n.edgeAt d.flip slot = some id) : Suffices n p room channels d id

theorem Suffices.congr {n : Node} {p : Protocol kind α} {channels channels' : List (Channel κ)}
    {id : EdgeId} (h : Channel.level channels' id = Channel.level channels id) (d : Direction) :
    Suffices n p room channels' d id ↔ Suffices n p room channels d id := by
  cases d <;> simp only [Suffices, h]

/-- An operation on side `d₀` of edge `e` found enough. It is no longer pending, the other queues are as
they were, and so is what the other side of `e` relies on. -/
structure Served (n : Node) (p : Protocol kind α) (room : Levels) (d₀ : Direction) (e : EdgeId)
    (ins outs : List EdgeId) (channels : List (Channel κ))
    (ins' outs' : List EdgeId) (channels' : List (Channel κ)) : Prop where
  pending_eq (d : Direction) : pending ins' outs' d =
    if d = d₀ then (pending ins outs d).erase e else pending ins outs d
  nodup : (pending ins outs d₀).Nodup
  enough : Suffices n p room channels d₀ e
  others (i : EdgeId) (h : i ≠ e) : channels'[i]? = channels[i]?
  flip (h : Suffices n p room channels d₀.flip e) : Suffices n p room channels' d₀.flip e
  given (hd : d₀ = .output) (h : p.given e <+: Channel.contents channels e (kind e)) :
    p.given e <+: Channel.contents channels' e (kind e)

namespace Served

variable {d₀ d : Direction} {e i : EdgeId} {ins' outs' : List EdgeId} {slot : Nat}

theorem level_eq_of_ne (h : Served n p room d₀ e ins outs channels ins' outs' channels') (hi : i ≠ e) :
    Channel.level channels' i = Channel.level channels i :=
  Channel.level_congr (h.others i hi)

/-- What is left is another edge, or the other side of this one. -/
theorem left (h : Served n p room d₀ e ins outs channels ins' outs' channels')
    (hi : i ∈ pending ins' outs' d) : i ∈ pending ins outs d ∧ (i = e → d = d₀.flip) := by
  rw [h.pending_eq] at hi
  split at hi
  · rename_i hd
    subst hd
    obtain ⟨hne, hi⟩ := h.nodup.mem_erase_iff.mp hi
    exact ⟨hi, fun heq ↦ absurd heq hne⟩
  · rename_i hd
    exact ⟨hi, fun _ ↦ Direction.eq_flip_of_ne hd⟩

/-- What had enough, and is left, has enough. -/
theorem suffices_of_left (h : Served n p room d₀ e ins outs channels ins' outs' channels')
    (hi : i ∈ pending ins' outs' d) (hsuffices : Suffices n p room channels d i) :
    Suffices n p room channels' d i := by
  by_cases heq : i = e
  · subst heq
    obtain rfl := (h.left hi).2 rfl
    exact h.flip hsuffices
  · exact (Suffices.congr (h.level_eq_of_ne heq) d).mpr hsuffices

/-- What is left to be done is as exposed as before. -/
theorem exposed (h : Served n p room d₀ e ins outs channels ins' outs' channels')
    (hat : n.edgeAt d₀ slot = some e) (hexposed : Exposed n p room ins outs channels) :
    Exposed n p room ins' outs' channels' where
  given i hi enough := by
    obtain ⟨hmem, hside⟩ := h.left (d := .input) hi
    by_cases heq : i = e
    · subst heq
      have hd : d₀ = .output := by
        have hflipped := hside rfl
        cases d₀ with
        | input => exact nomatch hflipped
        | output => rfl
      subst hd
      exact h.given rfl (hexposed.given i hmem (hexposed.loops .input i hmem slot hat))
    · rw [Channel.contents_congr (h.others i heq)]
      exact hexposed.given i hmem (h.level_eq_of_ne heq ▸ enough)
  loops d i hi slot' hslot' :=
    h.suffices_of_left hi (hexposed.loops d i (h.left hi).1 slot' hslot')

/-- What was missing is still missing. -/
theorem short (h : Served n p room d₀ e ins outs channels ins' outs' channels')
    (hat : n.edgeAt d₀ slot = some e) (hexposed : Exposed n p room ins outs channels)
    (hshort : ∃ d, ∃ i ∈ pending ins outs d, ¬ Suffices n p room channels d i) :
    ∃ d, ∃ i ∈ pending ins' outs' d, ¬ Suffices n p room channels' d i := by
  obtain ⟨d, i, hi, hmissing⟩ := hshort
  have hi' : i ∈ pending ins' outs' d := by
    rw [h.pending_eq]
    split
    · rename_i hd
      subst hd
      exact h.nodup.mem_erase_iff.mpr ⟨fun heq ↦ hmissing (heq ▸ h.enough), hi⟩
    · exact hi
  refine ⟨d, i, hi', fun hsuffices ↦ hmissing ?_⟩
  by_cases heq : i = e
  · subst heq
    refine hexposed.loops d i hi slot ?_
    rw [(h.left hi').2 rfl, Direction.flip_flip]
    exact hat
  · exact (Suffices.congr (h.level_eq_of_ne heq) d).mp hsuffices

/-- An edge that is left, and that the node has on one side only, is as full as before. -/
theorem level_eq (h : Served n p room d₀ e ins outs channels ins' outs' channels')
    (hat : n.edgeAt d₀ slot = some e) (hi : i ∈ pending ins' outs' d)
    (hone : ∀ slot, n.edgeAt d.flip slot ≠ some i) :
    Channel.level channels' i = Channel.level channels i := by
  refine h.level_eq_of_ne fun heq ↦ ?_
  subst heq
  refine hone slot ?_
  rw [(h.left hi).2 rfl, Direction.flip_flip]
  exact hat

end Served

/-- A pop that finds its elements leaves the other edges, and the room behind its queue only grows. -/
theorem served_pop (hfit : Channel.Fit kind room size channels) (hid : id < size) (hins : ins.Nodup)
    (henough : (p.given id).length ≤ Channel.level channels id)
    (haltered : Channel.Altered (· = id) channels channels')
    (hcontents : Channel.contents channels' id (kind id) =
      (Channel.contents channels id (kind id)).drop (p.given id).length) :
    Served n p room .input id ins outs channels (ins.erase id) outs channels' where
  pending_eq d := by cases d <;> rfl
  nodup := hins
  enough := henough
  others := haltered.others
  flip hsuffices slot rate hslot :=
    Nat.le_trans (Nat.add_le_add_right (hfit.level_le_of_drop hid haltered hcontents) rate)
      (hsuffices slot rate hslot)
  given hd := nomatch hd

/-- A push that finds its room leaves the other edges, and the front of its queue. -/
theorem served_push (hfit : Channel.Fit kind room size channels) (hid : id < size) (houts : outs.Nodup)
    (henough : Suffices n p room channels .output id)
    (haltered : Channel.Altered (· = id) channels channels') {values : List (Carrier (kind id))}
    (hcontents : Channel.contents channels' id (kind id) =
      Channel.contents channels id (kind id) ++ values) :
    Served n p room .output id ins outs channels ins (outs.erase id) channels' where
  pending_eq d := by cases d <;> rfl
  nodup := houts
  enough := henough
  others := haltered.others
  flip hsuffices :=
    Nat.le_trans hsuffices (hfit.level_eq_of_append hid haltered hcontents ▸ Nat.le_add_right _ _)
  given _ hprefix := hcontents ▸ hprefix.trans (List.prefix_append _ _)

/-- When something is missing, an operation is refused. An activity that then leaves the port alone moves
nothing over its edge, which the node has on one side only. -/
theorem Activity.Follows.exec_refused {n : Node} {p : Protocol kind α} {P : α → Prop}
    {ins outs : List EdgeId} {act : Activity κ α} (h : act.Follows n p ins outs)
    (hrefused : ∀ d slot act, p.refused d slot act → act.Leaves d slot P)
    {channels : List (Channel κ)} (hfit : Channel.Fit kind room size channels)
    (hedge : ∀ d slot id, n.edgeAt d slot = some id → id < size)
    (hport : ∀ d slot slot' id, n.edgeAt d slot = some id → n.edgeAt d slot' = some id →
      slot' = slot)
    (hins : ins.Nodup) (houts : outs.Nodup) (hexposed : Exposed n p room ins outs channels)
    (hshort : ∃ d, ∃ id ∈ pending ins outs d, ¬ Suffices n p room channels d id) (nid : NodeId) :
    P (act.exec n nid channels).1 ∧ ∃ d, ∃ id ∈ pending ins outs d,
      (∀ slot, n.edgeAt d.flip slot ≠ some id) ∧
        Channel.level (act.exec n nid channels).2 id = Channel.level channels id := by
  induction h generalizing channels with
  | done h =>
    obtain ⟨d, id, hid, -⟩ := hshort
    cases d <;> simp [pending] at hid
  | look h ih => exact ih _ hfit hins houts hexposed hshort
  | @pop ins outs slot id next port mem _ refused ih =>
    have hat := Node.edgeAt_of_inputAccess port
    have hid := hedge .input slot id hat
    by_cases henough : (p.given id).length ≤ Channel.level channels id
    · obtain ⟨channels', haltered, hcontents, hexec⟩ :=
        exec_pop hfit hid port (hexposed.given id mem henough) next nid
      have hserved : Served n p room .input id ins outs channels (ins.erase id) outs channels' :=
        served_pop hfit hid hins henough haltered hcontents
      obtain ⟨hP, d, i, hi, hone, hsame⟩ := ih (hfit.of_shape_eq haltered.shape) (hins.erase id)
        houts (hserved.exposed hat hexposed) (hserved.short hat hexposed hshort)
      rw [hexec]
      exact ⟨hP, d, i, (hserved.left hi).1, hone, hsame.trans (hserved.level_eq hat hi hone)⟩
    · have hone : ∀ slot', n.edgeAt .output slot' ≠ some id := fun slot' hslot' ↦
        henough (hexposed.loops .input id mem slot' hslot')
      have hleaves := hrefused _ _ _ (refused (.recoverable .bufferUnderflow))
      rw [exec_pop_short hfit hid port henough next nid]
      exact ⟨hleaves.result n nid channels, .input, id, mem, hone,
        hleaves.level_exec hat (fun slot' ↦ hport .input slot slot' id hat) hone nid channels⟩
  | @push ins outs slot id values next port mem _ _ refused ih =>
    have hat := Node.edgeAt_of_outputAccess port
    have hid := hedge .output slot id hat
    by_cases henough : Channel.level channels id + values.length ≤ room id
    · obtain ⟨channels', haltered, hcontents, hexec⟩ := exec_push hfit hid port henough next nid
      -- The edge has one output port, and so one rate.
      have hsuffices : Suffices n p room channels .output id := fun slot' rate hslot' ↦ by
        have heq := hport .output slot slot' id hat (Node.edgeAt_of_outputAccess hslot')
        rw [heq, port] at hslot'
        cases hslot'
        exact henough
      have hserved : Served n p room .output id ins outs channels ins (outs.erase id) channels' :=
        served_push hfit hid houts hsuffices haltered hcontents
      obtain ⟨hP, d, i, hi, hone, hsame⟩ := ih (hfit.of_shape_eq haltered.shape) hins
        (houts.erase id) (hserved.exposed hat hexposed) (hserved.short hat hexposed hshort)
      rw [hexec]
      exact ⟨hP, d, i, (hserved.left hi).1, hone, hsame.trans (hserved.level_eq hat hi hone)⟩
    · have hone : ∀ slot', n.edgeAt .input slot' ≠ some id := fun slot' hslot' ↦
        henough (hexposed.loops .output id mem slot' hslot' slot values.length port)
      have hleaves := hrefused _ _ _ (refused (.recoverable .bufferOverflow))
      rw [exec_push_short hfit hid port henough next nid]
      exact ⟨hleaves.result n nid channels, .output, id, mem, hone,
        hleaves.level_exec hat (fun slot' ↦ hport .output slot slot' id hat) hone nid channels⟩

end Trade

end Dataflow
