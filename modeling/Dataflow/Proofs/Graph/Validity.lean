import Dataflow.Proofs.Graph.Incidence

/-!
# Valid graphs

A graph passes `validate` when it has a node, every socket has a positive rate and an edge, and the
types at the two ends of every edge agree. For the graphs that can be built, the rates of all edges are
then positive.
-/

namespace Dataflow

theorem Socket.faults_eq_nil_iff {s : Socket} {p : PortRef} :
    s.faults p = [] ↔ 0 < s.port.rate.toNat ∧ s.edge.isSome := by
  have hrate : s.port.rate = 0 ↔ s.port.rate.toNat = 0 := by
    rw [← UInt32.toNat_inj]
    rfl
  simp only [faults, List.append_eq_nil_iff, ite_eq_right_iff, List.cons_ne_self, imp_false,
    hrate, Nat.pos_iff_ne_zero]
  cases s.edge <;> simp

theorem Node.faults_eq_nil_iff {n : Node} {id : NodeId} :
    n.faults id = [] ↔
      ∀ d, ∀ s ∈ n.sockets d, 0 < s.port.rate.toNat ∧ s.edge.isSome := by
  have hside (sockets : List Socket) (port : Nat → PortRef) :
      sockets.zipIdx.flatMap (fun x ↦ x.1.faults (port x.2)) = [] ↔
        ∀ s ∈ sockets, 0 < s.port.rate.toNat ∧ s.edge.isSome := by
    rw [List.flatMap_eq_nil_iff]
    constructor
    · intro h s hs
      obtain ⟨slot, hslot⟩ := List.mem_iff_getElem?.mp hs
      exact Socket.faults_eq_nil_iff.mp (h (s, slot) (List.mem_zipIdx_iff_getElem?.mpr hslot))
    · rintro h ⟨s, slot⟩ hs
      exact Socket.faults_eq_nil_iff.mpr
        (h s (List.mem_of_getElem? (List.mem_zipIdx_iff_getElem?.mp hs)))
  rw [faults, List.append_eq_nil_iff, hside, hside]
  constructor
  · rintro ⟨hin, hout⟩ d
    cases d with
    | input => exact hin
    | output => exact hout
  · exact fun h ↦ ⟨h .input, h .output⟩

namespace Graph

/-- What `validate` asks for. -/
structure Valid (g : Graph) : Prop where
  nonempty : 0 < g.nodes.length
  socket {p : PortRef} {s : Socket} (h : socketIn g.nodes p = some s) :
    0 < s.port.rate.toNat ∧ s.edge.isSome
  types {id : EdgeId} {e : Edge} (h : g.edges[id]? = some e) : g.edgeFaults id e = []

theorem validate_eq_ok_iff {g : Graph} : g.validate = .ok () ↔ g.Valid := by
  have hfaults : g.validate = .ok () ↔ g.faults = [] := by
    unfold validate
    cases g.faults <;> simp
  rw [hfaults, faults, List.append_eq_nil_iff, List.append_eq_nil_iff, List.flatMap_eq_nil_iff,
    List.flatMap_eq_nil_iff]
  constructor
  · rintro ⟨⟨hempty, hnodes⟩, hedges⟩
    refine ⟨?_, fun {p s} hs ↦ ?_, fun {id e} he ↦ ?_⟩
    · cases hn : g.nodes with
      | nil => simp [hn] at hempty
      | cons n rest => simp
    · obtain ⟨node, hn, hslot⟩ := exists_of_socketIn_eq_some hs
      exact Node.faults_eq_nil_iff.mp (hnodes (node, p.node) (List.mem_zipIdx_iff_getElem?.mpr hn))
        p.direction s (List.mem_of_getElem? hslot)
    · exact hedges (e, id) (List.mem_zipIdx_iff_getElem?.mpr he)
  · intro h
    refine ⟨⟨?_, ?_⟩, ?_⟩
    · cases hn : g.nodes with
      | nil => simpa [hn] using h.nonempty
      | cons n rest => simp
    · rintro ⟨node, id⟩ hmem
      have hn : g.nodes[id]? = some node := List.mem_zipIdx_iff_getElem?.mp hmem
      refine Node.faults_eq_nil_iff.mpr fun d s hs ↦ ?_
      obtain ⟨slot, hslot⟩ := List.mem_iff_getElem?.mp hs
      exact h.socket ((socketIn_of_getElem? hn d slot).trans hslot)
    · rintro ⟨e, id⟩ hmem
      exact h.types (List.mem_zipIdx_iff_getElem?.mp hmem)

theorem Valid.rateAt_pos {g : Graph} (h : g.Valid) (hg : Coherent g) {id : EdgeId} {e : Edge}
    (he : g.edges[id]? = some e) (d : Direction) : 0 < e.rateAt d := by
  obtain ⟨-, port, hrate, hs⟩ := hg.ends he d
  rw [← hrate]
  exact (h.socket hs).1

/-- Every firing moves tokens at both ends of an edge. -/
def Flows (g : Graph) : Prop :=
  ∀ {id : EdgeId} {e : Edge}, g.edges[id]? = some e → ∀ d, 0 < e.rateAt d

theorem Valid.flows {g : Graph} (h : g.Valid) (hg : Coherent g) : g.Flows := h.rateAt_pos hg

end Graph

end Dataflow
