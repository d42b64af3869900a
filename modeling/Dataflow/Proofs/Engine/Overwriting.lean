import Dataflow.Proofs.Engine.Likeness
import Dataflow.Proofs.Engine.Operations

/-!
# Cells that are written before they are read

The cells of a queue that hold no element may hold anything: a node that fills all cells it is lent for
writing, whatever was in them, takes the same steps over queues that agree on their elements.
-/

namespace Dataflow

variable {κ : Type} [ElementKind κ] {σ ω α : Type}

open ElementKind (Carrier)

/-- Both fail with the same error, or both succeed with related values. -/
inductive Likewise {ε α β : Type} (related : α → β → Prop) : Except ε α → Except ε β → Prop where
  | error (e : ε) : Likewise related (.error e) (.error e)
  | ok {a : α} {b : β} (h : related a b) : Likewise related (.ok a) (.ok b)

namespace Likewise

variable {ε α β γ δ : Type} {related : α → β → Prop} {related' : γ → δ → Prop} {x : Except ε α}
  {y : Except ε β}

theorem bind {f : α → Except ε γ} {g : β → Except ε δ} (h : Likewise related x y)
    (hfg : ∀ a b, related a b → Likewise related' (f a) (g b)) : Likewise related' (x >>= f) (y >>= g) := by
  cases h with
  | error e => exact .error e
  | ok h => exact hfg _ _ h

/-- To go on with the same on both sides. -/
theorem bind_same (x : Except ε α) {f : α → Except ε γ} {g : α → Except ε δ}
    (hfg : ∀ a, Likewise related' (f a) (g a)) : Likewise related' (x >>= f) (x >>= g) := by
  cases x with
  | error e => exact .error e
  | ok a => exact hfg a

theorem lift {x : Except FifoError α} {y : Except FifoError β} (h : Likewise related x y) :
    Likewise related (NodeError.lift x) (NodeError.lift y) := by
  cases h with
  | error e => exact .error _
  | ok h => exact .ok h

end Likewise

/-! ## Queues with the same elements -/

namespace Fifo

/-- Runs of the same lengths, from the same cell on. -/
structure Region.SameShape (r r' : Region α) : Prop where
  start : r'.start = r.start
  first : r'.first.size = r.first.size
  second : r'.second.size = r.second.size

/-- The same elements in the same cells. The other cells may differ. -/
structure Alike (f g : Fifo α) : Prop where
  list : g.toListQueue = f.toListQueue
  read : g.read = f.read

variable {f g : Fifo α} {n : Nat} {r r' : Region α} {values : List α}

theorem Region.SameShape.eq_of_toList (h : r.SameShape r') (hlist : r'.toList = r.toList) : r' = r := by
  obtain ⟨hfirst, hsecond⟩ := List.append_inj hlist h.first
  calc
    r' = ⟨r'.start, r'.first, r'.second⟩ := rfl
    _ = ⟨r.start, r.first, r.second⟩ := by
      rw [h.start, Array.toList_inj.mp hfirst, Array.toList_inj.mp hsecond]

theorem Region.SameShape.length_eq (h : r.SameShape r') : r'.length = r.length := by
  rw [length, length, h.first, h.second]

/-- Values that do not fit into the region are left out. -/
theorem fill_take (f : Fifo α) (r : Region α) (values : List α) :
    f.fill r (values.take r.length) = f.fill r values := by
  have hle : r.first.size ≤ r.length := Nat.le_add_right _ _
  have hrest : r.length - r.first.size = r.second.size := Nat.add_sub_cancel_left _ _
  rw [fill, fill, List.take_take, Nat.min_eq_left hle, List.drop_take, hrest, List.take_take,
    Nat.min_self]

namespace Alike

theorem capacity_eq (h : f.Alike g) : g.capacity = f.capacity := congrArg ListQueue.capacity h.list

theorem contents_eq (h : f.Alike g) : g.contents = f.contents := congrArg ListQueue.elements h.list

theorem size_eq (h : f.Alike g) : g.size = f.size := by
  rw [← length_contents, h.contents_eq, length_contents]

theorem free_eq (h : f.Alike g) : g.free = f.free := by rw [free, free, h.capacity_eq, h.size_eq]

theorem sameShape_region (h : f.Alike g) (start n : Nat) :
    (f.region start n).SameShape (g.region start n) := by
  have hsize : g.storage.size = f.storage.size := h.capacity_eq
  refine ⟨rfl, ?_, ?_⟩
  · simp only [region, Array.size_extract, h.capacity_eq, hsize]
  · simp only [region, Array.size_extract, h.capacity_eq, hsize]

/-- Reading takes the same elements out of both. -/
theorem reserveRead (h : f.Alike g) (n : Nat) :
    Likewise (fun x y ↦ y.1 = x.1 ∧ x.2.Alike y.2) (f.reserveRead n) (g.reserveRead n) := by
  by_cases hshort : f.size < n
  · rw [Fifo.reserveRead, Fifo.reserveRead, if_pos hshort, if_pos (h.size_eq.symm ▸ hshort), h.size_eq]
    exact .error _
  · have hread : f.reserveRead n = .ok (f.region f.read n, _) := if_neg hshort
    have hread' : g.reserveRead n = .ok (g.region g.read n, _) := if_neg (h.size_eq.symm ▸ hshort)
    have hshape : (f.region f.read n).SameShape (g.region g.read n) := by
      rw [h.read]
      exact h.sameShape_region f.read n
    have hregion : g.region g.read n = f.region f.read n := hshape.eq_of_toList (by
      rw [(toList_of_reserveRead hread').1, (toList_of_reserveRead hread).1, h.contents_eq])
    rw [hregion] at hread'
    rw [hread, hread']
    refine .ok ⟨rfl, ?_, ?_⟩
    · have hlist := f.read_toListQueue n
      have hlist' := g.read_toListQueue n
      rw [hread] at hlist
      rw [h.list, hlist, hread'] at hlist'
      exact (congrArg Prod.snd (Except.ok.inj hlist')).symm
    · have hsize : g.storage.size = f.storage.size := h.capacity_eq
      simp only [h.read, hsize]

theorem pop (h : f.Alike g) (n : Nat) :
    Likewise (fun x y ↦ y.1 = x.1 ∧ x.2.Alike y.2) (f.pop n) (g.pop n) :=
  (h.reserveRead n).bind fun _ _ hread ↦ .ok ⟨congrArg Region.toList hread.1, hread.2⟩

/-- Writing lends cells of the same shape. When all are filled, both have the same elements again. -/
theorem reserveWrite (h : f.Alike g) (n : Nat) :
    Likewise (fun x y ↦ (x.1.SameShape y.1 ∧ x.1.length = n) ∧
        ∀ values, x.1.length ≤ values.length → (x.2.fill x.1 values).Alike (y.2.fill y.1 values))
      (f.reserveWrite n) (g.reserveWrite n) := by
  by_cases hshort : f.free < n
  · rw [Fifo.reserveWrite, Fifo.reserveWrite, dif_pos hshort, dif_pos (h.free_eq.symm ▸ hshort),
      h.free_eq]
    exact .error _
  · have hwrite : f.reserveWrite n = .ok (f.region ((f.read + f.size) % f.capacity) n, _) :=
      dif_neg hshort
    have hwrite' : g.reserveWrite n = .ok (g.region ((g.read + g.size) % g.capacity) n, _) :=
      dif_neg (h.free_eq.symm ▸ hshort)
    have hshape : (f.region ((f.read + f.size) % f.capacity) n).SameShape
        (g.region ((g.read + g.size) % g.capacity) n) := by
      rw [h.read, h.size_eq, h.capacity_eq]
      exact h.sameShape_region _ n
    have hlength := length_of_reserveWrite hwrite
    rw [hwrite, hwrite']
    refine .ok ⟨⟨hshape, hlength⟩, fun values hvalues ↦ ?_⟩
    obtain ⟨fitting, hfitting, rfl⟩ : ∃ fitting, values.take n = fitting ∧ fitting.length = n :=
      ⟨_, rfl, List.length_take_of_le (hlength ▸ hvalues)⟩
    have hlist := f.write_toListQueue fitting
    have hlist' := g.write_toListQueue fitting
    rw [hwrite] at hlist
    rw [h.list, hlist, hwrite'] at hlist'
    rw [← fill_take, ← fill_take _ _ values, hshape.length_eq, hlength, hfitting]
    exact ⟨(Except.ok.inj hlist').symm, h.read⟩

end Alike

end Fifo

/-! ## Operations -/

namespace Channel

/-- Of the same kind, with the same elements. -/
inductive Alike : Channel κ → Channel κ → Prop where
  | mk {k : κ} {q q' : Fifo (Carrier k)} (h : q.Alike q') : Alike ⟨k, q⟩ ⟨k, q'⟩

/-- Edge by edge the same elements. -/
def AllAlike (channels channels' : List (Channel κ)) : Prop :=
  ∀ id : EdgeId, Option.Rel Alike channels[id]? channels'[id]?

variable {channels channels' : List (Channel κ)}

theorem AllAlike.gauges_eq (h : AllAlike channels channels') : gauges channels' = gauges channels := by
  apply List.ext_getElem?
  intro id
  rw [gauges, gauges, List.getElem?_map, List.getElem?_map]
  have hid := h id
  generalize channels[id]? = here, channels'[id]? = there at hid
  cases hid with
  | none => rfl
  | some hc =>
    obtain ⟨hq⟩ := hc
    exact congrArg some (Prod.ext hq.size_eq hq.free_eq)

theorem AllAlike.typed (h : AllAlike channels channels') (k : κ) (id : EdgeId) :
    Likewise Fifo.Alike (Channel.typed channels k id) (Channel.typed channels' k id) := by
  unfold Channel.typed
  have hid := h id
  generalize channels[id]? = here, channels'[id]? = there at hid
  cases hid with
  | none => exact .error _
  | some hc =>
    obtain ⟨hq⟩ := hc
    rename_i k' q q'
    by_cases hk : k' = k
    · subst hk
      simp only [Option.bind_some, queue?_mk]
      exact .ok hq
    · have hnone := (queue?_eq_none_iff (⟨k', q⟩ : Channel κ) k).mpr hk
      have hnone' := (queue?_eq_none_iff (⟨k', q'⟩ : Channel κ) k).mpr hk
      simp only [Option.bind_some, hnone, hnone']
      exact .error _

theorem AllAlike.put (h : AllAlike channels channels') {k : κ} {q q' : Fifo (Carrier k)}
    (hq : q.Alike q') (id : EdgeId) :
    AllAlike (Channel.put channels k id q) (Channel.put channels' k id q') := by
  intro i
  have hi := h i
  have hlength : i < channels'.length ↔ i < channels.length := by
    rw [← not_iff_not, Nat.not_lt, Nat.not_lt, ← List.getElem?_eq_none_iff, ← List.getElem?_eq_none_iff]
    generalize channels[i]? = here, channels'[i]? = there at hi
    cases hi <;> simp
  simp only [Channel.put, List.getElem?_set]
  by_cases hid : id = i
  · subst hid
    simp only [if_true, hlength]
    split
    · exact .some ⟨hq⟩
    · exact .none
  · simp only [hid, if_false]
    exact hi

end Channel

namespace PortOp

/-- The same operation, apart from what it makes of cells whose old content it replaces. All lent cells are
filled, and no value depends on what was in them. The answers may differ in the old content alone. -/
inductive Alike : (op op' : PortOp κ) → (op.Result → op'.Result → Prop) → Prop where
  | input (k : κ) (slot : Nat) : Alike (.input k slot) (.input k slot) fun a a' ↦ a' = a
  | pop (k : κ) (slot length : Nat) : Alike (.pop k slot length) (.pop k slot length) fun a a' ↦ a' = a
  | push (k : κ) (slot : Nat) (values : List (Carrier k)) :
    Alike (.push k slot values) (.push k slot values) fun a a' ↦ a' = a
  | output (k : κ) (slot : Nat) {fill fill' : Lent k → List (Carrier k)}
    (h : ∀ r r', r.SameShape r' → fill' r' = fill r ∧ r.length ≤ (fill r).length) :
    Alike (.output k slot fill) (.output k slot fill') fun r r' ↦ Fifo.Region.SameShape r r'
  | transform (source target : κ) (inSlot outSlot : Nat)
    {fill fill' : Lent source → Lent target → List (Carrier target)}
    (h : ∀ lent r r', r.SameShape r' → fill' lent r' = fill lent r ∧ r.length ≤ (fill lent r).length) :
    Alike (.transform source target inSlot outSlot fill) (.transform source target inSlot outSlot fill')
      fun a a' ↦ a'.1 = a.1 ∧ Fifo.Region.SameShape a.2 a'.2

theorem likewise_transform {source target : κ} {inSlot outSlot : Nat}
    {fill fill' : Lent source → Lent target → List (Carrier target)}
    (hfill : ∀ lent r r', r.SameShape r' → fill' lent r' = fill lent r ∧ r.length ≤ (fill lent r).length)
    {channels channels' : List (Channel κ)} (hqueues : Channel.AllAlike channels channels') (n : Node) :
    Likewise (fun r r' ↦ (r'.answer.1 = r.answer.1 ∧ Fifo.Region.SameShape r.answer.2 r'.answer.2) ∧
        Channel.AllAlike r.commit r'.commit)
      ((transform source target inSlot outSlot fill).reserve n channels)
      ((transform source target inSlot outSlot fill').reserve n channels') := by
  refine .bind_same _ fun ⟨ein, consumed⟩ ↦ .bind_same _ fun ⟨eout, produced⟩ ↦ ?_
  dsimp only
  split
  · exact .error _
  refine (hqueues.typed source ein).bind fun q q' hq ↦ ?_
  refine (hqueues.typed target eout).bind fun p p' hp ↦ ?_
  have hunderflow : q'.willUnderflow consumed = q.willUnderflow consumed := by
    rw [Fifo.willUnderflow, Fifo.willUnderflow, hq.size_eq]
  have hoverflow : p'.willOverflow produced = p.willOverflow produced := by
    rw [Fifo.willOverflow, Fifo.willOverflow, hp.free_eq]
  rw [hunderflow, hoverflow]
  split
  · exact .error _
  split
  · exact .error _
  refine (hq.reserveRead consumed).lift.bind fun x y hread ↦ ?_
  refine (hp.reserveWrite produced).lift.bind fun u v hwrite ↦ ?_
  refine .ok ⟨⟨hread.1, hwrite.1.1⟩, ?_⟩
  rw [hread.1]
  obtain ⟨hsame, hall⟩ := hfill x.1 _ _ hwrite.1.1
  simp only [Reservation.commit, Channel.apply_put, hsame]
  exact (hqueues.put hread.2 ein).put (hwrite.2 _ hall) eout

theorem Alike.reserve {op op' : PortOp κ} {answers : op.Result → op'.Result → Prop}
    (h : op.Alike op' answers) {channels channels' : List (Channel κ)}
    (hqueues : Channel.AllAlike channels channels') (n : Node) :
    Likewise (fun r r' ↦ answers r.answer r'.answer ∧ Channel.AllAlike r.commit r'.commit)
      (op.reserve n channels) (op'.reserve n channels') := by
  cases h with
  | input k slot =>
    refine .bind_same _ fun ⟨id, rate⟩ ↦ ?_
    refine (hqueues.typed k id).bind fun q q' hq ↦ ?_
    refine (hq.reserveRead rate).lift.bind fun x y hread ↦ ?_
    exact .ok ⟨hread.1, hqueues.put hread.2 id⟩
  | pop k slot length =>
    refine .bind_same _ fun ⟨id, rate⟩ ↦ ?_
    dsimp only
    split
    · exact .error _
    refine (hqueues.typed k id).bind fun q q' hq ↦ ?_
    refine (hq.pop rate).lift.bind fun x y hpop ↦ ?_
    exact .ok ⟨hpop.1, hqueues.put hpop.2 id⟩
  | push k slot values =>
    refine .bind_same _ fun ⟨id, rate⟩ ↦ ?_
    dsimp only
    split
    · exact .error _
    rename_i hrate
    refine (hqueues.typed k id).bind fun q q' hq ↦ ?_
    refine (hq.reserveWrite rate).lift.bind fun x y hwrite ↦ ?_
    refine .ok ⟨rfl, ?_⟩
    simp only [Reservation.commit, Channel.apply_put]
    exact hqueues.put (hwrite.2 values (hwrite.1.2.trans (not_not.mp hrate).symm).le) id
  | output k slot hfill =>
    refine .bind_same _ fun ⟨id, rate⟩ ↦ ?_
    refine (hqueues.typed k id).bind fun q q' hq ↦ ?_
    refine (hq.reserveWrite rate).lift.bind fun x y hwrite ↦ ?_
    refine .ok ⟨hwrite.1.1, ?_⟩
    obtain ⟨hsame, hall⟩ := hfill _ _ hwrite.1.1
    simp only [Reservation.commit, Channel.apply_put, hsame]
    exact hqueues.put (hwrite.2 _ hall) id
  | transform source target inSlot outSlot hfill => exact likewise_transform hfill hqueues n

end PortOp

/-! ## Activities -/

/-- The same looks and operations, with results that are related by `ends`. What follows an operation does
not depend on the old content of the cells that it replaces. -/
inductive Activity.Alike (ends : α → α → Prop) : Activity κ α → Activity κ α → Prop where
  | done {a a' : α} (h : ends a a') : Alike ends (.done a) (.done a')
  | look {next next' : PortView → Activity κ α} (h : ∀ v, Alike ends (next v) (next' v)) :
    Alike ends (.look next) (.look next')
  | call {op op' : PortOp κ} {answers : op.Result → op'.Result → Prop}
    {next : Except NodeError op.Result → Activity κ α}
    {next' : Except NodeError op'.Result → Activity κ α} (hop : op.Alike op' answers)
    (hok : ∀ a a', answers a a' → Alike ends (next (.ok a)) (next' (.ok a')))
    (herror : ∀ e, Alike ends (next (.error e)) (next' (.error e))) :
    Alike ends (.call op next) (.call op' next')

/-- An operation that lends no cells for writing has the same answer on both sides. -/
theorem Activity.Alike.call_same {ends : α → α → Prop} {op : PortOp κ}
    {next next' : Except NodeError op.Result → Activity κ α} (hop : op.Alike op fun a a' ↦ a' = a)
    (h : ∀ answer, Alike ends (next answer) (next' answer)) :
    Alike ends (.call op next) (.call op next') := by
  refine .call hop (fun a a' hanswer ↦ ?_) fun e ↦ h (.error e)
  rw [hanswer]
  exact h (.ok a)

theorem Activity.Alike.exec {ends : α → α → Prop} {act act' : Activity κ α}
    (h : act.Alike ends act') {channels channels' : List (Channel κ)}
    (hqueues : Channel.AllAlike channels channels') (node : Node) (n : NodeId) :
    ends (act.exec node n channels).1 (act'.exec node n channels').1 ∧
      Channel.AllAlike (act.exec node n channels).2 (act'.exec node n channels').2 := by
  induction h generalizing channels channels' with
  | done h => exact ⟨h, hqueues⟩
  | look h ih =>
    rw [Activity.exec, Activity.exec, Node.view_congr hqueues.gauges_eq]
    exact ih _ hqueues
  | call hop hok herror ihok iherror =>
    rename_i op op' answers next next'
    have hreserve := hop.reserve hqueues node
    rw [Activity.exec, Activity.exec]
    generalize op.reserve node channels = here, op'.reserve node channels' = there at hreserve
    cases hreserve with
    | error e => exact iherror e hqueues
    | ok h => exact ihok _ _ h.1 h.2

/-! ## Nodes -/

/-- The node fills every cell that it is lent for writing and does not depend on what was in it. Where the
surroundings are related, it does the same, and they stay related. -/
structure Behaviour.Overwrites (worlds : World ω → World ω → Prop) (b : Behaviour κ σ ω) : Prop where
  run (memory : σ) (w w' : World ω) (h : worlds w w') :
    (b.run (memory, w)).Alike (fun x x' ↦ x'.1 = x.1 ∧ x'.2.1 = x.2.1 ∧ worlds x.2.2 x'.2.2)
      (b.run (memory, w'))
  prepare (v : PortView) : Callback.Keeps worlds (b.prepare v)
  save : Callback.Keeps worlds b.save
  restore (blob : Blob) : Callback.Keeps worlds (b.restore blob)

/-- The same elements, parked states and bound, and related surroundings. -/
def Likeness.ofWorlds (worlds : World ω → World ω → Prop) : Likeness κ ω where
  queues := Channel.AllAlike
  contexts c c' := c'.parked = c.parked ∧ c'.limit = c.limit
  worlds := worlds
  gauges_eq := Channel.AllAlike.gauges_eq
  parked h := h.1
  park h n blob := ⟨congrArg (·.put n blob) h.1, h.2⟩
  unpark h n := ⟨congrArg (·.remove n) h.1, h.2⟩
  recordActivation h := h

theorem Behaviour.Overwrites.heeds {worlds : World ω → World ω → Prop} {b : Behaviour κ σ ω}
    (h : b.Overwrites worlds) : b.Heeds (.ofWorlds worlds) where
  run memory w w' hw node n channels channels' hqueues := by
    obtain ⟨⟨hresult, hmemory, hworld⟩, hleft⟩ := (h.run memory w w' hw).exec hqueues node n
    exact ⟨hresult, hmemory, hworld, hleft⟩
  prepare := h.prepare
  save := h.save
  restore := h.restore

end Dataflow
