import Dataflow.Proofs.Engine.Firing

/-!
# Parked states

Without a fixed order, a node that has fired leaves its state in the context, and gets it back before it
fires again. This is harmless when the node takes what it has given.
-/

namespace Dataflow

variable {κ : Type} [ElementKind κ] {σ ω α : Type}

/-- The node takes this state whatever it remembers. -/
def Behaviour.Accepts (b : Behaviour κ σ ω) (blob : Blob) : Prop :=
  ∀ (memory : σ) (world : World ω), (b.restore blob (memory, world)).1 = .ok ()

/-- The node takes every state that it has given. -/
def Behaviour.TakesBack (b : Behaviour κ σ ω) : Prop :=
  ∀ (memory : σ) (world : World ω) (blob : Blob),
    (b.save (memory, world)).1 = some blob → b.Accepts blob

namespace Session

variable {s t : Session κ σ ω} {n : NodeId} {kind : EdgeId → κ}

/-- All parked states are taken by their nodes. -/
def Parks (f : Frame κ σ ω) (parked : Parking) : Prop :=
  ∀ (n : NodeId) (b : Behaviour κ σ ω) (blob : Blob), f.behaviours[n]? = some b →
    parked.get? n = some blob → b.Accepts blob

theorem callNode_eq {i : Instance κ σ ω} (hi : s.engine.nodes[n]? = some i) (absent : α)
    (callback : Behaviour κ σ ω → Callback σ ω α) :
    s.callNode n absent callback =
      ((callback i.behaviour (i.memory, s.world)).1,
        ({ s with world := (callback i.behaviour (i.memory, s.world)).2.2 }).putMemory n
          (callback i.behaviour (i.memory, s.world)).2.1) := by
  simp only [callNode, hi]
  rfl

theorem engine_callNode {i : Instance κ σ ω} (hi : s.engine.nodes[n]? = some i) (absent : α)
    (callback : Behaviour κ σ ω → Callback σ ω α)
    (h : (callback i.behaviour (i.memory, s.world)).2.1 = i.memory) :
    (s.callNode n absent callback).2.engine = s.engine := by
  have hi' : (Session.mk s.engine s.context
      (callback i.behaviour (i.memory, s.world)).2.2).engine.nodes[n]? = some i := hi
  rw [callNode_eq hi, h]
  exact (congrArg engine (putMemory_self hi') :)

/-- A state that is taken does not stay parked. -/
theorem restoreParked_of_parks (hparks : Parks s.frame s.context.parked)
    (hn : n < s.engine.nodes.length) :
    (s.restoreParked n).1 = .ok () ∧ (s.restoreParked n).2.context.parked.get? n = none := by
  unfold restoreParked
  split
  · rename_i hnone
    exact ⟨rfl, hnone⟩
  · rename_i blob hblob
    have hi : (s.modifyContext (·.unpark n)).engine.nodes[n]? = some s.engine.nodes[n] :=
      List.getElem?_eq_getElem hn
    have haccepts := hparks n _ blob (behaviours_of_getElem? hi) hblob s.engine.nodes[n].memory
      (s.modifyContext (·.unpark n)).world
    have hgone : (s.context.parked.remove n).get? n = none :=
      (Parking.get?_remove s.context.parked n n).trans (if_pos rfl)
    rw [callNode_eq hi, haccepts]
    exact ⟨rfl, hgone⟩

/-- What is parked after a firing has been given by the node. -/
theorem parked_savePark {i : Instance κ σ ω} (hi : s.engine.nodes[n]? = some i) {blob : Blob}
    (h : (s.savePark n).context.parked.get? n = some blob) :
    s.context.parked.get? n = some blob ∨
      (i.behaviour.save (i.memory, s.world)).1 = some blob := by
  unfold savePark at h
  rw [callNode_eq hi] at h
  split at h
  · rename_i heq
    cases (Prod.mk.inj heq).2
    exact .inl h
  · rename_i given t heq
    obtain ⟨hgiven, rfl⟩ := Prod.mk.inj heq
    refine .inr (hgiven.trans ?_)
    rw [← h]
    exact ((Parking.get?_put s.context.parked n n given).trans (if_pos rfl)).symm

theorem context_execute (s : Session κ σ ω) (n : NodeId) : (s.execute n).2.context = s.context := by
  cases hi : s.engine.nodes[n]? with
  | none => simp only [execute, hi]
  | some i =>
    cases hnode : s.engine.plan.graph.nodes[n]? with
    | none => simp only [execute, hi, hnode]
    | some node =>
      rw [execute_eq hi hnode]
      rfl

/-- A node that takes its states back is resumed, and what is parked after its firing it will take. -/
theorem parks_attempt (htakes : ∀ b ∈ s.frame.behaviours, b.TakesBack)
    (hparks : Parks s.frame s.context.parked) (hn : n < s.engine.nodes.length) :
    (s.resume n true).1 = .ok () ∧ Parks s.frame (s.attempt n true).2.context.parked := by
  have hresume : (s.resume n true).1 = .ok () ∧
      (s.resume n true).2.context.parked.get? n = none :=
    restoreParked_of_parks (s := s.observe (·.beforeActivation n)) hparks hn
  refine ⟨hresume.1, fun m b blob hb hblob ↦ ?_⟩
  by_cases hm : m = n
  · subst hm
    have hlocal := s.local_resume m true
    rw [attempt_of_resume hresume.1] at hblob
    have hframe := ((s.resume m true).2.frame_execute m).trans hlocal.frame
    obtain ⟨i, hi, rfl⟩ := Engine.exists_of_behaviours (hframe ▸ hb)
    rcases parked_savePark hi hblob with hold | hgiven
    · rw [context_execute] at hold
      cases hresume.2.symm.trans hold
    · exact htakes _ (List.mem_of_getElem? hb) _ _ _ hgiven
  · rw [(s.local_attempt n true).parked m hm] at hblob
    exact hparks m b blob hb hblob

end Session

end Dataflow
