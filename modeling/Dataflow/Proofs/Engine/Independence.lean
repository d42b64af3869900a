import Dataflow.Proofs.Engine.Periods
import Dataflow.Proofs.Engine.Transfer

/-!
# Independence of the schedule

What is on the edges and in the nodes is told by how often each node has fired. Neither the order of the
firings nor the plan by which they were chosen nor the calls that they happened in matter, and where
states are parked between firings nothing is lost.
-/

namespace Dataflow

variable {κ : Type} [ElementKind κ] {σ ω ω' : Type}

open ElementKind (Carrier)

namespace Session

variable {s t : Session κ σ ω} {kind : EdgeId → κ} {F : NodeId → Transfer kind σ} {n : NodeId}
  {f : Frame κ σ ω} {start : Data kind σ} {log : List NodeId}

/-! ## Parked states that are held -/

/-- What is parked for a node is what the node would save now. -/
def Held (s : Session κ σ ω) : Prop :=
  ∀ (n : NodeId) (blob : Blob), s.context.parked.get? n = some blob →
    ∃ i w, s.engine.nodes[n]? = some i ∧ (i.behaviour.save (i.memory, w)).1 = some blob

/-- A state that comes back from the context is the one that the node has. -/
theorem restoreParked_of_held (h : s.Held) (hrestores : ∀ b ∈ s.frame.behaviours, b.Restores)
    (n : NodeId) :
    (s.restoreParked n).1 = .ok () ∧ (s.restoreParked n).2.engine = s.engine ∧
      (s.restoreParked n).2.context.parked.get? n = none := by
  unfold restoreParked
  split
  · rename_i hnone
    exact ⟨rfl, rfl, hnone⟩
  · rename_i blob hblob
    obtain ⟨i, w, hi, hsave⟩ := h n blob hblob
    have hi' : (s.modifyContext (·.unpark n)).engine.nodes[n]? = some i := hi
    obtain ⟨hok, hmemory⟩ := (hrestores _ (List.mem_of_getElem? (behaviours_of_getElem? hi))).restore
      i.memory i.memory w s.world blob hsave
    have hengine := engine_callNode hi' (.ok ()) (·.restore blob) hmemory
    have hgone : (s.context.parked.remove n).get? n = none :=
      (Parking.get?_remove s.context.parked n n).trans (if_pos rfl)
    rw [callNode_eq hi'] at hengine ⊢
    have hok' : (i.behaviour.restore blob (i.memory, (s.modifyContext (·.unpark n)).world)).1 =
        .ok () := hok
    rw [hok']
    exact ⟨rfl, hengine, hgone⟩

/-- To save a state does not change it. -/
theorem engine_savePark (hrestores : ∀ b ∈ s.frame.behaviours, b.Restores) (n : NodeId) :
    (s.savePark n).engine = s.engine := by
  have hcall : (s.callNode n none (·.save)).2.engine = s.engine := by
    cases hi : s.engine.nodes[n]? with
    | none => simp only [callNode, hi]
    | some i =>
      exact engine_callNode hi none (·.save)
        ((hrestores _ (List.mem_of_getElem? (behaviours_of_getElem? hi))).save i.memory s.world)
  exact savePark_induction (P := fun t ↦ t.engine = s.engine) hcall fun _ _ ht ↦ ht

/-! ## Firings that explain a session -/

/-- The firings in `log` have led from `start` to this session. -/
structure Explained (f : Frame κ σ ω) (kind : EdgeId → κ) (F : NodeId → Transfer kind σ)
    (start : Data kind σ) (log : List NodeId) (s : Session κ σ ω) : Prop where
  frame : s.frame = f
  sane : s.engine.poisoned = none
  loops : f.plan.graph.LoopsKept s.level
  along : Steps.Along f.plan.graph.Provided (f.plan.graph.transfer F) log start
  data : s.data kind = Steps.run (f.plan.graph.transfer F) log start
  held : s.Held
  parks (n : NodeId) (h : (s.context.parked.get? n).isSome) : s.persists

theorem Explained.of_eq (h : s.Explained f kind F start log) (hframe : t.frame = s.frame)
    (hnodes : t.engine.nodes = s.engine.nodes) (hchannels : t.engine.channels = s.engine.channels)
    (hpoisoned : t.engine.poisoned = s.engine.poisoned)
    (hparked : ∀ n blob, t.context.parked.get? n = some blob → s.context.parked.get? n = some blob) :
    t.Explained f kind F start log where
  frame := hframe.trans h.frame
  sane := hpoisoned.trans h.sane
  loops := by
    rw [level, hchannels]
    exact h.loops
  along := h.along
  data := by
    rw [← h.data, Session.data, Session.data, hnodes, hchannels]
  held n blob hblob := by
    rw [hnodes]
    exact h.held n blob (hparked n blob hblob)
  parks n hn := by
    obtain ⟨blob, hblob⟩ := Option.isSome_iff_exists.mp hn
    rw [persists_of_frame hframe]
    exact h.parks n (Option.isSome_of_mem (hparked n blob hblob))

/-- A node gets back what it has, and then nothing is parked for it. -/
theorem Explained.resume (hf : f.Computes kind F) (h : s.Explained f kind F start log) (n : NodeId) :
    (s.resume n s.persists).1 = .ok () ∧
      (s.resume n s.persists).2.Explained f kind F start log ∧
      (s.resume n s.persists).2.context.parked.get? n = none := by
  have hresumed : (s.resume n s.persists).1 = .ok () ∧
      (s.resume n s.persists).2.engine = s.engine ∧
      (s.resume n s.persists).2.context.parked.get? n = none := by
    cases hpersists : s.persists with
    | false =>
      refine ⟨rfl, rfl, ?_⟩
      cases hblob : s.context.parked.get? n with
      | none => exact hblob
      | some blob =>
        have hparks := h.parks n (hblob ▸ rfl)
        rw [hpersists] at hparks
        cases hparks
    | true =>
      exact restoreParked_of_held (s := s.observe (·.beforeActivation n)) h.held
        (fun b hb ↦ hf.restores (h.frame ▸ hb)) n
  obtain ⟨hok, hengine, hgone⟩ := hresumed
  have hlocal := s.local_resume n s.persists
  refine ⟨hok, h.of_eq hlocal.frame (congrArg Engine.nodes hengine)
    (congrArg Engine.channels hengine) hlocal.poisoned fun m blob hblob ↦ ?_, hgone⟩
  by_cases hm : m = n
  · rw [hm, hgone] at hblob
    cases hblob
  · exact hlocal.parked m hm ▸ hblob

/-- What a node that has run leaves in the context is what it would save now. -/
theorem held_savePark_execute (h : s.Held) (hrestores : ∀ b ∈ s.frame.behaviours, b.Restores)
    (hgone : s.context.parked.get? n = none) : ((s.execute n).2.savePark n).Held := by
  have hengine : ((s.execute n).2.savePark n).engine = (s.execute n).2.engine :=
    engine_savePark ((s.frame_execute n).symm ▸ hrestores) n
  have hlocal := (local_execute s n).trans (local_savePark _ n)
  intro m blob hblob
  by_cases hm : m = n
  · subst hm
    cases hi : (s.execute m).2.engine.nodes[m]? with
    | none =>
      simp only [savePark, callNode, hi, context_execute] at hblob
      rw [hgone] at hblob
      cases hblob
    | some i =>
      rcases parked_savePark hi hblob with hold | hgiven
      · rw [context_execute, hgone] at hold
        cases hold
      · exact ⟨i, _, hengine ▸ hi, hgiven⟩
  · obtain ⟨i, w, hi, hsave⟩ := h m blob (hlocal.parked m hm ▸ hblob)
    exact ⟨i, w, (hlocal.nodes m hm).trans hi, hsave⟩

theorem engine_perform (hrestores : ∀ b ∈ s.frame.behaviours, b.Restores) (n : NodeId)
    (persist : Bool) : (s.perform n persist).2.engine = (s.execute n).2.engine := by
  cases persist with
  | false => rfl
  | true => exact engine_savePark ((s.frame_execute n).symm ▸ hrestores) n

theorem held_perform {persist : Bool} (h : s.Held)
    (hrestores : ∀ b ∈ s.frame.behaviours, b.Restores) (hgone : s.context.parked.get? n = none)
    (hparks : ∀ m, (s.context.parked.get? m).isSome → persist) :
    (s.perform n persist).2.Held ∧
      ∀ m, ((s.perform n persist).2.context.parked.get? m).isSome → persist := by
  cases persist with
  | true => exact ⟨held_savePark_execute h hrestores hgone, fun _ _ ↦ rfl⟩
  | false =>
    have hsame : (s.perform n false).2.context.parked = s.context.parked :=
      congrArg Context.parked (context_execute s n)
    rw [Held, hsame]
    exact ⟨fun m blob hblob ↦ (nomatch hparks m (by rw [hblob]; rfl)), hparks⟩

theorem provided_of_ready (hf : s.frame.Proper kind) (hready : s.Ready n) :
    s.engine.plan.graph.Provided n (s.data kind) := by
  obtain ⟨i, -, hi, -⟩ := exists_instance hf.toPlanned hready.1
  refine ⟨by rw [memory_eq_some hi]; rfl, fun id ↦ ?_⟩
  by_cases hid : id < s.engine.plan.graph.edges.length
  · rw [tokens_length hf hid]
    exact hready.2.fed hf.sound.coherent id
  · rw [Graph.moved_eq_zero_of_length_le (Nat.le_of_not_lt hid)]
    exact Nat.zero_le _

/-- The firing of a ready node explains the session after it. -/
theorem Explained.perform (hf : f.Computes kind F) (h : s.Explained f kind F start log)
    (hgone : s.context.parked.get? n = none) (hready : s.Ready n) :
    (s.perform n s.persists).1 = .ok .success ∧
      (s.perform n s.persists).2.Explained f kind F start (log ++ [n]) := by
  have hfs : s.frame.Computes kind F := h.frame.symm ▸ hf
  have hplan : s.engine.plan = f.plan := congrArg Frame.plan h.frame
  obtain ⟨hresult, hdata, hlevel⟩ := execute_of_computes hfs hready
  have hrestores : ∀ b ∈ s.frame.behaviours, b.Restores := fun b hb ↦ hfs.restores hb
  have hengine := engine_perform hrestores n s.persists
  have hlocal := s.local_perform n s.persists
  obtain ⟨hheld, hparks⟩ := held_perform h.held hrestores hgone h.parks
  refine ⟨hresult, hlocal.frame.trans h.frame, hlocal.poisoned.trans h.sane, ?_, ?_, ?_, hheld, ?_⟩
  · have hafter : (s.perform n s.persists).2.level = f.plan.graph.after n s.level := by
      rw [level, hengine, ← hplan]
      exact hlevel
    rw [hafter]
    exact hf.proper.sound.loopsKept_after h.loops n
  · rw [Steps.along_append, ← h.data, ← hplan]
    exact ⟨hplan ▸ h.along, provided_of_ready hfs.proper hready, trivial⟩
  · calc
      (s.perform n s.persists).2.data kind = (s.execute n).2.data kind := by
        rw [Session.data, hengine]
        rfl
      _ = f.plan.graph.transfer F n (s.data kind) := by rw [hdata, hplan]
      _ = Steps.run (f.plan.graph.transfer F) (log ++ [n]) start := by
        rw [Steps.run_append, ← h.data]
        rfl
  · intro m hm
    rw [persists_of_frame hlocal.frame]
    exact hparks m hm

/-- A firing explains the session after it, or it fails. -/
theorem Explained.fire (hf : f.Computes kind F) (h : s.Explained f kind F start log) (n : NodeId) :
    (∃ t, s.fire n s.persists = (.ok .success, t) ∧ t.Explained f kind F start (log ++ [n])) ∨
      ∃ failure t, s.fire n s.persists = (.error failure, t) := by
  obtain ⟨hresume, hresumed, hgone⟩ := h.resume hf n
  have hattempt := attempt_of_resume hresume
  have hpersists := persists_of_frame (s.local_resume n s.persists).frame
  obtain ⟨t, ht⟩ : ∃ t, (s.resume n s.persists).2 = t := ⟨_, rfl⟩
  rw [ht] at hresumed hgone hattempt hpersists
  by_cases hready : t.Ready n
  · obtain ⟨hsuccess, hafter⟩ := hresumed.perform hf hgone hready
    rw [hpersists, ← hattempt] at hsuccess hafter
    exact .inl ⟨_, fire_of_ok hsuccess, hafter.of_eq rfl rfl rfl rfl fun _ _ ↦ id⟩
  · have hplan : t.engine.plan = f.plan := congrArg Frame.plan hresumed.frame
    obtain ⟨e, he⟩ := execute_of_not_ready (hresumed.frame.symm ▸ hf) (hplan ▸ hresumed.loops) hready
    have hfailed : (s.attempt n s.persists).1 = .error e := by
      rw [hattempt]
      exact he
    exact .inr (fire_of_error hfailed)

/-! ## Calls -/

/-- Whatever happens in a call, the list of a recorder explains the session. -/
theorem lockstep_explained (hf : f.Computes kind F) (start : Data kind σ) :
    Lockstep f.plan.mode (fun _ _ ↦ True)
      (fun (s : Session κ σ ω) (t : Session κ σ (Logged ω)) ↦
        ∃ log, t = s.logged log ∧ s.Explained f kind F start log) (fun _ _ ↦ True) where
  mode {s t} h := by
    obtain ⟨log, -, hlog⟩ := h
    rw [← hlog.frame]
    rfl
  plan {s t} h := by
    obtain ⟨log, rfl, -⟩ := h
    rfl
  cursor {s t} h := by
    obtain ⟨log, rfl, -⟩ := h
    rfl
  context {s t} h := by
    obtain ⟨log, rfl, -⟩ := h
    rfl
  sane {s t} h := by
    obtain ⟨log, rfl, hlog⟩ := h
    exact ⟨hlog.sane, hlog.sane⟩
  stopped {s t} h := by
    obtain ⟨log, rfl, -⟩ := h
    rfl
  status {s t} h f hf := by
    obtain ⟨log, rfl, hlog⟩ := h
    exact ⟨log, rfl, hlog.of_eq rfl rfl rfl rfl fun _ _ hm ↦ hf _ ▸ hm⟩
  status_failed h _ _ := h
  moved {s t} h cursor := by
    obtain ⟨log, rfl, hlog⟩ := h
    exact ⟨log, rfl, hlog.of_eq rfl rfl rfl rfl fun _ _ ↦ id⟩
  before {s t} h i := by
    obtain ⟨log, rfl, hlog⟩ := h
    exact ⟨log, rfl, hlog.of_eq rfl rfl rfl rfl fun _ _ ↦ id⟩
  after {s t} h i := by
    obtain ⟨log, rfl, hlog⟩ := h
    exact ⟨log, rfl, hlog.of_eq rfl rfl rfl rfl fun _ _ ↦ id⟩
  asked {s t} h n := by
    obtain ⟨log, rfl, hlog⟩ := h
    have hproper : s.frame.Proper kind := hlog.frame.symm ▸ hf.proper
    rw [logged_readiness]
    rcases readiness_eq hproper n with ⟨hproceed, -⟩ | ⟨hskip, -⟩
    · rw [hproceed]
      exact .inr ⟨⟨rfl, rfl⟩, trivial⟩
    · rw [hskip]
      exact .inl ⟨rfl, rfl⟩
  fired {s t} h n _ := by
    obtain ⟨log, rfl, hlog⟩ := h
    rw [logged_fire]
    rcases hlog.fire hf n with ⟨u, hu, hlog'⟩ | ⟨failure, u, hu⟩
    · rw [hu]
      exact .inl ⟨.success, u, _, rfl, rfl, _, rfl, hlog'⟩
    · rw [hu]
      exact .inr ⟨failure, u, _, rfl, rfl, trivial⟩

/-- After calls without a failure, the data is what the firings in them have made of it. -/
theorem Explained.calls (hf : f.Computes kind F) (h : s.Explained f kind F start []) {cs : List Call}
    (hsmooth : ∀ failure ∈ (s.calls cs).1, failure = none) :
    (s.calls cs).2.Explained f kind F start (s.firings cs) := by
  obtain ⟨-, log, hlogged, hlog⟩ := (lockstep_explained hf start).coupled.calls (fun _ _ _ _ ↦ trivial)
    ⟨[], rfl, h⟩ hsmooth
  have hfirings : s.firings cs = log := by
    rw [firings, hlogged]
    rfl
  rw [hfirings]
  exact hlog

end Session

/-- The nodes of an engine on the graph are asked for nothing but their ports, compute these functions,
and restore what they have saved. -/
def Engine.Computes (e : Engine κ σ ω) (g : Graph) (kind : EdgeId → κ)
    (F : NodeId → Transfer kind σ) : Prop :=
  ∀ (n : NodeId) (i : Instance κ σ ω) (node : Node), e.nodes[n]? = some i → g.nodes[n]? = some node →
    (∀ v : PortView, i.behaviour.prepare v = pure v.readiness) ∧
      i.behaviour.Computes kind node (F n) ∧ i.behaviour.Restores

namespace Session

variable {s t : Session κ σ ω} {kind : EdgeId → κ} {F : NodeId → Transfer kind σ} {n : NodeId}
  {f : Frame κ σ ω} {start : Data kind σ} {log : List NodeId}

theorem computes_of_fresh {e : Engine κ σ ω} {p : Plan} (he : e.Fresh p kind) (hp : p.Sound)
    (hnodes : e.Computes p.graph kind F) : e.frame.Computes kind F := by
  have hnode {n : NodeId} {i : Instance κ σ ω} (hi : e.nodes[n]? = some i) :
      ∃ node, p.graph.nodes[n]? = some node :=
    ⟨_, List.getElem?_eq_getElem (he.length ▸ (List.getElem?_eq_some_iff.mp hi).1)⟩
  refine ⟨he.proper hp fun n i hi ↦ ?_, fun {n b node} hb hgraph ↦ ?_, fun {b} hb ↦ ?_⟩
  · obtain ⟨node, hgraph⟩ := hnode hi
    exact (hnodes n i node hi hgraph).1
  · obtain ⟨i, hi, rfl⟩ := Engine.exists_of_behaviours hb
    change e.plan.graph.nodes[n]? = _ at hgraph
    rw [he.plan] at hgraph
    exact (hnodes n i node hi hgraph).2.1
  · obtain ⟨n, i, hi, rfl⟩ := Engine.exists_of_mem_behaviours hb
    obtain ⟨node, hgraph⟩ := hnode hi
    exact (hnodes n i node hi hgraph).2.2

/-- A new engine is explained by no firing at all. -/
theorem explained_of_fresh {e : Engine κ σ ω} {p : Plan} (he : e.Fresh p kind) {c : Context}
    (hc : c.parked = .empty) (w : World ω) :
    (Session.mk e c w).Explained e.frame kind F ((Session.mk e c w).data kind) [] where
  frame := rfl
  sane := he.poisoned
  loops id edge hedge _ := by
    change Channel.level e.channels id = e.plan.graph.delay id
    rw [he.level, he.plan]
  along := trivial
  data := rfl
  held n blob hblob := by
    change c.parked.get? n = _ at hblob
    rw [hc] at hblob
    cases hblob
  parks n hn := by
    change (c.parked.get? n).isSome = true at hn
    rw [hc] at hn
    cases hn

end Session

/-! ## The functions of a loop -/

namespace Looped

/-- What the two nodes compute. -/
def transfer : NodeId → Transfer kind UInt8
  | 0, memory, given =>
    (memory + 1, fun id ↦
      if id = 0 then [mix memory (.ok (given 1)), mix memory (.ok (given 1)), memory]
      else [mix memory (.ok (given 1))])
  | _, memory, given => (mix memory (.ok (given 0)), fun _ ↦ [])

theorem computes_feeder {node : Node} (h : graph.nodes[0]? = some node) :
    feeder.Computes kind node (transfer 0) := by
  cases h
  intro memory world given hgiven
  refine .pop_of_length (hgiven 0 1 1 rfl) rfl (by decide) ?_ fun e ↦ ?_
  · refine .push (rfl : source.outputAccess 0 = .ok (0, 3)) (by decide) rfl ?_ fun e ↦ ?_
    · refine .push (rfl : source.outputAccess 1 = .ok (1, 1)) (by decide) rfl (.done ⟨rfl, rfl⟩)
        fun e ↦ ?_
      exact (nomatch ·)
    · exact ⟨by simp [PortOp.Names], fun _ ↦ (nomatch ·)⟩
  · exact ⟨by simp [PortOp.Names], fun _ ↦ ⟨by simp [PortOp.Names], fun _ ↦ (nomatch ·)⟩⟩

theorem computes_taker {node : Node} (h : graph.nodes[1]? = some node) :
    taker.Computes kind node (transfer 1) := by
  cases h
  intro memory world given hgiven
  exact .pop_of_length (hgiven 0 0 2 rfl) rfl (by decide) (.done ⟨rfl, rfl⟩) fun e ↦ (nomatch ·)

theorem restores_feeder : feeder.Restores where
  save _ _ := rfl
  restore memory memory' world world' blob h := by
    cases h
    exact ⟨rfl, rfl⟩

theorem restores_taker : taker.Restores where
  save _ _ := rfl
  restore memory memory' world world' blob h := by
    cases h
    exact ⟨rfl, rfl⟩

end Looped

namespace Session

variable {s t : Session κ σ ω} {kind : EdgeId → κ} {F : NodeId → Transfer kind σ} {n : NodeId}
  {f : Frame κ σ ω} {start : Data kind σ} {log : List NodeId}

/-! ## Two engines -/

/-- Two engines of one graph, compiled in any modes and with any options, whose nodes compute the same
functions, begin with the same elements and states. After any calls without a failure in which every
node has fired as often in the one as in the other, they have again the same elements on every edge and
the same states. -/
theorem data_eq_of_firings {g : Graph} (hg : g.Built) {o o' : CompileOptions} {p p' : Plan}
    (hp : g.compile o = .ok p) (hp' : g.compile o' = .ok p') {e : Engine κ σ ω} {e' : Engine κ σ ω'}
    (he : e.Fresh p kind) (he' : e'.Fresh p' kind) (hnodes : e.Computes g kind F)
    (hnodes' : e'.Computes g kind F) {c c' : Context} (hc : c.parked = .empty)
    (hc' : c'.parked = .empty) {w : World ω} {w' : World ω'}
    (hstart : (Session.mk e c w).data kind = (Session.mk e' c' w').data kind) {cs cs' : List Call}
    (hsmooth : ∀ failure ∈ ((Session.mk e c w).calls cs).1, failure = none)
    (hsmooth' : ∀ failure ∈ ((Session.mk e' c' w').calls cs').1, failure = none)
    (hcount : ∀ n, ((Session.mk e c w).firings cs).count n =
      ((Session.mk e' c' w').firings cs').count n) :
    ((Session.mk e c w).calls cs).2.data kind = ((Session.mk e' c' w').calls cs').2.data kind := by
  obtain ⟨hsound, -⟩ := Graph.sound_of_compile hg.coherent hp
  obtain ⟨hsound', -⟩ := Graph.sound_of_compile hg.coherent hp'
  obtain ⟨-, -, -, -, hgraph, -⟩ := Graph.exists_of_compile hp
  obtain ⟨-, -, -, -, hgraph', -⟩ := Graph.exists_of_compile hp'
  have hlast := (explained_of_fresh he hc w).calls
    (computes_of_fresh he hsound (hgraph.symm ▸ hnodes)) hsmooth
  have hlast' := (explained_of_fresh he' hc' w').calls
    (computes_of_fresh he' hsound' (hgraph'.symm ▸ hnodes')) hsmooth'
  have hplan : e.frame.plan.graph = g := (congrArg Plan.graph he.plan).trans hgraph
  have hplan' : e'.frame.plan.graph = g := (congrArg Plan.graph he'.plan).trans hgraph'
  have halong := hlast.along
  have halong' := hlast'.along
  rw [hplan] at halong
  rw [hplan', ← hstart] at halong'
  calc
    ((Session.mk e c w).calls cs).2.data kind =
        Steps.run (g.transfer F) ((Session.mk e c w).firings cs) ((Session.mk e c w).data kind) := by
      rw [hlast.data, hplan]
    _ = Steps.run (g.transfer F) ((Session.mk e' c' w').firings cs') ((Session.mk e c w).data kind) :=
      hg.coherent.run_transfer_eq_of_count halong halong' hcount
    _ = ((Session.mk e' c' w').calls cs').2.data kind := by
      rw [hlast'.data, hplan', hstart]

/-- One period in a fixed order, and the same firings one by one without an order. -/
theorem data_looped : ∃ e w e' w',
    (Binding.ofCalls (Looped.plan .static [7, 2]) 0 Looped.calls).build Looped.world = (.ok e, w) ∧
    (Binding.ofCalls (Looped.plan .fullyAsynchronous [7, 3]) 0 Looped.calls).build Looped.world =
      (.ok e', w') ∧
    (Session.mk e (.new (some 1)) w).firings [.run] = [0, 0, 1, 1, 1] ∧
    (Session.mk e' (.new none) w').firings
      [.activateNext, .activateNext, .activateNext, .activate 1, .activate 1] = [0, 1, 0, 1, 1] ∧
    ((Session.mk e (.new (some 1)) w).calls [.run]).2.data Looped.kind =
      ((Session.mk e' (.new none) w').calls
        [.activateNext, .activateNext, .activateNext, .activate 1, .activate 1]).2.data Looped.kind := by
  have hcompile : Looped.graph.compile ⟨.fullyAsynchronous, 0, some 7, 100⟩ =
      .ok (Looped.plan .fullyAsynchronous [7, 3]) := by decide +kernel
  obtain ⟨e, w, hbuild⟩ : ∃ e w, (Binding.ofCalls (Looped.plan .static [7, 2]) 0
      Looped.calls).build Looped.world = (.ok e, w) := ⟨_, _, rfl⟩
  obtain ⟨e', w', hbuild'⟩ : ∃ e w, (Binding.ofCalls (Looped.plan .fullyAsynchronous [7, 3]) 0
      Looped.calls).build Looped.world = (.ok e, w) := ⟨_, _, rfl⟩
  have hnodes {mode : Mode} {capacities : List Nat} {e : Engine Scalar UInt8 Unit} {w : World Unit}
      (h : (Binding.ofCalls (Looped.plan mode capacities) 0 Looped.calls).build Looped.world =
        (.ok e, w)) :
      e.Fresh (Looped.plan mode capacities) Looped.kind ∧
        e.Computes Looped.graph Looped.kind Looped.transfer := by
    obtain ⟨hfresh, hbound⟩ := Binding.fresh_of_build Looped.kind_of_mem_calls h
    refine ⟨hfresh, fun n i node hi hnode ↦ ?_⟩
    obtain ⟨j, hj, hsame⟩ := hbound n i hi
    rw [← hsame]
    obtain ⟨rfl, rfl⟩ | ⟨rfl, rfl⟩ := Looped.of_node_mem_calls hj
    · exact ⟨fun _ ↦ rfl, Looped.computes_taker hnode, Looped.restores_taker⟩
    · exact ⟨fun _ ↦ rfl, Looped.computes_feeder hnode, Looped.restores_feeder⟩
  have hfirings : (Session.mk e (.new (some 1)) w).firings [.run] = [0, 0, 1, 1, 1] := by
    cases hbuild
    decide +kernel
  have hfirings' : (Session.mk e' (.new none) w').firings
      [.activateNext, .activateNext, .activateNext, .activate 1, .activate 1] = [0, 1, 0, 1, 1] := by
    cases hbuild'
    decide +kernel
  refine ⟨e, w, e', w', hbuild, hbuild', hfirings, hfirings', ?_⟩
  refine data_eq_of_firings Looped.built_graph Looped.compile_graph hcompile (hnodes hbuild).1
    (hnodes hbuild').1 (hnodes hbuild).2 (hnodes hbuild').2 rfl rfl ?_ ?_ ?_ fun n ↦ ?_
  · cases hbuild
    cases hbuild'
    refine congrArg₂ Data.mk (funext fun id ↦ ?_) rfl
    match id with
    | 0 => rfl
    | 1 => rfl
    | _ + 2 => rfl
  · cases hbuild
    decide +kernel
  · cases hbuild'
    decide +kernel
  · rw [hfirings, hfirings']
    have hperm : [0, 0, 1, 1, 1].Perm [0, 1, 0, 1, 1] := by decide
    exact hperm.count_eq n

end Session

end Dataflow
