import Dataflow.Proofs.Machine.Balance
import Dataflow.Proofs.Schedule.Least
import Mathlib.Algebra.Order.Ring.Canonical

/-!
# Rates of zero

A graph that has not been validated may have edges with a rate of zero. Over such an edge a ratio loses
its numerator or its denominator, and no other edge gives it back. When the search for a component ends,
each ratio has been carried over every edge of its node, so from both ends of an edge that is no loop.
The ratios are then as positive as that of the seed, which is 1, and so are the rates. Hence the search
for a component with a rate of zero does not end with ratios, and no denominator of zero comes to the
point where it would be divided by.
-/

namespace Dataflow

/-! ## Zeros in ratios -/

namespace Ratio

variable {r s : Ratio} {mul div : Nat}

theorem div_divisor_pos_iff (a b : Nat) : 0 < a / divisor a b ↔ 0 < a := by
  refine ⟨fun h ↦ Nat.pos_of_div_pos h, fun ha ↦ ?_⟩
  rw [divisor_eq_gcd b ha]
  exact Nat.div_pos (Nat.gcd_le_left b ha) (Nat.gcd_pos_of_pos_left b ha)

theorem divisor_comm (a b : Nat) : divisor a b = divisor b a := by rw [divisor, divisor, Nat.gcd_comm]

theorem reduced_pos_iff (num den : Nat) :
    (0 < (reduced num den).num ↔ 0 < num) ∧ (0 < (reduced num den).den ↔ 0 < den) := by
  refine ⟨div_divisor_pos_iff num den, ?_⟩
  rw [reduced, divisor_comm]
  exact div_divisor_pos_iff den num

/-- A numerator is zero after a numerator or a factor of zero only, and a denominator after a denominator
or a divisor of zero. -/
theorem scale?_pos_iff (h : r.scale? mul div = some s) :
    (0 < s.num ↔ 0 < r.num ∧ 0 < mul) ∧ (0 < s.den ↔ 0 < r.den ∧ 0 < div) := by
  simp only [scale?, Option.bind_eq_bind, Option.bind_eq_some_iff, Word.checked_eq_some_iff,
    Option.pure_def, Option.some.injEq] at h
  obtain ⟨_, ⟨-, rfl⟩, _, ⟨-, rfl⟩, rfl⟩ := h
  obtain ⟨hnum, hden⟩ := reduced_pos_iff (r.num / divisor r.num div * (mul / divisor mul r.den))
    (r.den / divisor mul r.den * (div / divisor r.num div))
  rw [hnum, hden]
  constructor
  · rw [CanonicallyOrderedAdd.mul_pos, div_divisor_pos_iff, div_divisor_pos_iff]
  · rw [CanonicallyOrderedAdd.mul_pos, divisor_comm mul, divisor_comm r.num, div_divisor_pos_iff,
      div_divisor_pos_iff]

end Ratio

/-! ## Zeros in components -/

theorem Direction.forall_iff {P : Direction → Prop} (d : Direction) :
    (∀ d', P d') ↔ P d ∧ P d.flip := by
  refine ⟨fun h ↦ ⟨h d, h d.flip⟩, fun ⟨hd, hflip⟩ d' ↦ ?_⟩
  by_cases heq : d' = d
  · exact heq ▸ hd
  · exact Direction.eq_flip_of_ne heq ▸ hflip

namespace Spread

/-- The node has a ratio without zeros. -/
def Positive (s : Spread) (n : NodeId) : Prop := ∃ r, s.ratio? n = some r ∧ r.IsPositive

/-- Where a ratio without zeros has been carried over an edge and back, neither rate is zero, and the ratio
at the other end has no zeros. -/
theorem Positive.carried {s : Spread} {e : Edge} {d : Direction} (h : s.Positive (e.portAt d).node)
    (hthere : s.Carried (e.portAt d).node e) (hback : s.Carried (e.portAt d.flip).node e) :
    (∀ d', 0 < e.rateAt d') ∧ s.Positive (e.portAt d.flip).node := by
  obtain ⟨r, hr, hrpos⟩ := h
  obtain ⟨d₁, r₁, t₁, hd₁, hr₁, ht₁, hscale₁⟩ := hthere
  obtain ⟨d₂, r₂, t₂, hd₂, hr₂, ht₂, hscale₂⟩ := hback
  cases Option.some.inj (hr₁.symm.trans hr)
  obtain ⟨hnum₁, hden₁⟩ := Ratio.scale?_pos_iff hscale₁
  by_cases hloop : (e.portAt d.flip).node = (e.portAt d).node
  · -- A loop is carried over once, from its source.
    have hsame : (e.portAt d₁.flip).node = (e.portAt d).node :=
      (Direction.forall_iff (P := fun d' ↦ (e.portAt d').node = (e.portAt d).node) d).mpr
        ⟨rfl, hloop⟩ d₁.flip
    cases Option.some.inj (ht₁.symm.trans (hsame ▸ hr))
    refine ⟨(Direction.forall_iff d₁).mpr ⟨(hnum₁.mp hrpos.1).2, (hden₁.mp hrpos.2).2⟩, ?_⟩
    exact hloop ▸ ⟨r, hr, hrpos⟩
  · have hd₁' : d₁ = d := by
      by_contra hne
      exact hloop (Direction.eq_flip_of_ne hne ▸ hd₁)
    have hd₂' : d₂ = d.flip := by
      by_contra hne
      rw [Direction.eq_flip_of_ne hne, Direction.flip_flip] at hd₂
      exact hloop hd₂.symm
    subst hd₁' hd₂'
    rw [Direction.flip_flip] at ht₂ hscale₂
    cases Option.some.inj (hr₂.symm.trans ht₁)
    cases Option.some.inj (ht₂.symm.trans hr)
    obtain ⟨hnum₂, hden₂⟩ := Ratio.scale?_pos_iff hscale₂
    obtain ⟨hnum, hflip⟩ := hnum₂.mp hrpos.1
    obtain ⟨hden, hrate⟩ := hden₂.mp hrpos.2
    exact ⟨(Direction.forall_iff d₁).mpr ⟨hrate, hflip⟩, t₁, ht₁, hnum, hden⟩

end Spread

namespace Graph

variable {g : Graph} {m n : NodeId}

/-- What goes over every edge is the same in a whole component. -/
theorem Connected.iff {P : NodeId → Prop} (h : g.Connected m n)
    (hends : ∀ {id : EdgeId} {e : Edge}, g.edges[id]? = some e →
      ∀ d, P (e.portAt d).node → P (e.portAt d.flip).node) : P m ↔ P n := by
  induction h with
  | rel m n hjoined =>
    obtain ⟨id, e, he, rfl, rfl⟩ := hjoined
    exact ⟨hends he .output, hends he .input⟩
  | refl => rfl
  | symm m n _ ih => exact ih.symm
  | trans m k n _ _ ih ih' => exact ih.trans ih'

/-- The search for a component ends with ratios only if no edge of the component has a rate of zero. -/
theorem component_positive (hg : g.Coherent) {b : Balance} (h : b.Settled g) {seed : NodeId}
    (hseed : seed < g.nodes.length) (hnew : b.ratios[seed]?.join = none) {s : Spread}
    (hstep : g.component b.ratios seed = .ok s) :
    s.Grown (fun n ↦ b.ratios[n]?.join) g.nodes.length ∧ seed ∈ s.reached ∧
      (∀ n ∈ s.reached, g.Expanded s n) ∧
      ∀ (id : EdgeId) (e : Edge), g.edges[id]? = some e → e.source.node ∈ s.reached →
        ∀ d, 0 < e.rateAt d := by
  obtain ⟨hspans, hext, hcarried⟩ := (carries_carried hg).component hg
    (Spread.spans_seed h.length_ratios hseed hnew) hstep
  have hmem : seed ∈ s.reached := hext.reached.subset (List.mem_singleton.mpr rfl)
  have hone : s.ratio? seed = some .one := hext.ratio (by
    rw [Spread.ratio?_reach (h.length_ratios ▸ hseed), if_pos rfl])
  -- From one end of an edge to the other, and with it the rates of the edge.
  have hcross {id : EdgeId} {e : Edge} (he : g.edges[id]? = some e) (d : Direction)
      (hn : (e.portAt d).node ∈ s.reached ∧ s.Positive (e.portAt d).node) :
      (∀ d', 0 < e.rateAt d') ∧ (e.portAt d.flip).node ∈ s.reached ∧
        s.Positive (e.portAt d.flip).node := by
    have hthere := hcarried _ hn.1 id e he ⟨d, rfl⟩
    have hsome : (s.ratio? (e.portAt d.flip).node).isSome := by
      obtain ⟨d', r, t, hd', hr, ht, -⟩ := hthere
      by_cases heq : d' = d
      · exact heq ▸ Option.isSome_of_mem ht
      · rw [Direction.eq_flip_of_ne heq] at hd'
        exact hd' ▸ Option.isSome_of_mem hr
    have hother := h.flip_mem_reached hspans he d hn.1 hsome
    obtain ⟨hrate, hpos⟩ := hn.2.carried hthere (hcarried _ hother id e he ⟨d.flip, rfl⟩)
    exact ⟨hrate, hother, hpos⟩
  have hall (n : NodeId) (hn : n ∈ s.reached) : n ∈ s.reached ∧ s.Positive n :=
    ((connected_of_component hg hstep hn).iff (P := fun n ↦ n ∈ s.reached ∧ s.Positive n)
      fun he d hd ↦ (hcross he d hd).2).mp ⟨hmem, .one, hone, Ratio.isPositive_one⟩
  have hgrown := hspans.grown fun {n r} hr ↦ by
    cases hbase : b.ratios[n]?.join with
    | some r' => exact Option.some.inj ((hspans.kept hbase).symm.trans hr) ▸ h.positive n r' hbase
    | none =>
      obtain ⟨-, r', hr', hpos⟩ := hall n (hspans.reached.mpr ⟨hbase, Option.isSome_of_mem hr⟩)
      exact Option.some.inj (hr'.symm.trans hr) ▸ hpos
  refine ⟨hgrown, hmem, fun n hn id e he hend ↦ ?_, fun id e he hn ↦ ?_⟩
  · obtain ⟨d, rfl⟩ := hend
    exact (hcarried _ hn id e he ⟨d, rfl⟩).agrees (fun _ ↦ hgrown.positive)
      (hcross he d (hall _ hn)).1
  · exact (hcross he .output (hall _ hn)).1

end Graph

/-! ## Zeros in graphs -/

namespace Balance

variable {g : Graph} {b b' : Balance} {seed : NodeId}

/-- The edges of the components that are settled have no rate of zero. -/
def Flowing (g : Graph) (b : Balance) : Prop :=
  ∀ (id : EdgeId) (e : Edge), g.edges[id]? = some e → b.Known e.source.node → ∀ d, 0 < e.rateAt d

theorem Settled.balanceFrom_flowing (hg : g.Coherent) (h : b.Settled g) (hflowing : b.Flowing g)
    (hseed : seed < g.nodes.length) (hstep : g.balanceFrom b seed = .ok b') :
    b'.Settled g ∧ b'.Flowing g ∧ b'.Known seed ∧ ∀ n, b.Known n → b'.Known n := by
  rcases cases_of_balanceFrom hstep with ⟨hknown, rfl⟩ | ⟨s, counts, hnew, hcomponent, hsettle, rfl⟩
  · exact ⟨h, hflowing, hknown, fun _ ↦ id⟩
  · obtain ⟨hgrown, hmem, hexpanded, hrates⟩ := Graph.component_positive hg h hseed hnew hcomponent
    have hknown (n : NodeId) : Known ⟨s.ratios, counts⟩ n ↔ b.Known n ∨ n ∈ s.reached :=
      known_iff_of_grown hgrown n
    refine ⟨h.settle hgrown hexpanded hsettle, fun id e he hn ↦ ?_, (hknown seed).mpr (.inr hmem),
      fun n hn ↦ (hknown n).mpr (.inl hn)⟩
    rcases (hknown _).mp hn with hold | hreached
    · exact hflowing id e he hold
    · exact hrates id e he hreached

end Balance

namespace Graph

variable {g : Graph}

/-- Counts are found only for a graph without rates of zero. -/
theorem flows_of_solve (hg : g.Coherent) {r : Repetitions} (h : g.solve = .ok r) : g.Flows := by
  obtain ⟨b, hfold, -⟩ := Fold.bind_eq_ok h
  obtain ⟨-, hflowing, hknown⟩ := Fold.foldlM_range_induction
    (P := fun i b ↦ b.Settled g ∧ b.Flowing g ∧ ∀ n < i, b.Known n) hfold
    ⟨Balance.settled_blank g, fun _ _ _ hn ↦ absurd hn (Balance.not_known_blank g _), by simp⟩
    fun i b b' hi ⟨hsettled, hflowing, hknown⟩ hstep ↦ by
      obtain ⟨hsettled', hflowing', hseed, hmono⟩ :=
        hsettled.balanceFrom_flowing hg hflowing hi hstep
      refine ⟨hsettled', hflowing', fun n hn ↦ ?_⟩
      rcases Nat.lt_succ_iff_lt_or_eq.mp hn with hlt | rfl
      · exact hmono n (hknown n hlt)
      · exact hseed
  exact fun {id e} he ↦ hflowing id e he (hknown _ (hg.node_lt he .output))

end Graph

/-- The search comes to no fault, whatever the rates are. -/
theorem Machine.solve_eq_of_coherent {g : Graph} (hg : g.Coherent) :
    Machine.solve g = Machine.of g.solve := by
  refine Machine.bind_of ?_ fun _ _ ↦ rfl
  refine Machine.foldlM_of (P := fun _ b ↦ b.Settled g ∧ b.Flowing g)
    ⟨Balance.settled_blank g, fun _ _ _ hn ↦ absurd hn (Balance.not_known_blank g _)⟩ ?_
  intro done seed b hpre ⟨hsettled, hflowing⟩
  have hseed : seed < g.nodes.length := List.mem_range.mp (Machine.mem_after hpre)
  refine ⟨Machine.balanceFrom_eq hg hsettled hseed fun s hnew hs ↦ ?_, fun b' hb' ↦ ?_⟩
  · exact (Graph.component_positive hg hsettled hseed hnew hs).1
  · obtain ⟨hsettled', hflowing', -⟩ := hsettled.balanceFrom_flowing hg hflowing hseed hb'
    exact ⟨hsettled', hflowing'⟩

namespace Graph

variable {g : Graph}

/-- With a rate of zero at some edge the search for counts ends with an error, and in machine words with
the same error: nothing is divided by zero, and no other operation fails. -/
theorem solve_of_zero_rate (hg : g.Built) {id : EdgeId} {e : Edge} (he : g.edges[id]? = some e)
    (hzero : e.production = 0 ∨ e.consumption = 0) :
    ∃ error, ((∃ edge, error = .inconsistent edge) ∨ ∃ node, error = .rateOverflow node) ∧
      g.solve = .error error ∧ Machine.solve g = Machine.refuse error := by
  cases hsolve : g.solve with
  | ok r =>
    have hflows := flows_of_solve hg.coherent hsolve he
    rcases hzero with hzero | hzero
    · have hrate := hflows .output
      rw [Edge.rateAt, hzero] at hrate
      exact absurd hrate (Nat.lt_irrefl 0)
    · have hrate := hflows .input
      rw [Edge.rateAt, hzero] at hrate
      exact absurd hrate (Nat.lt_irrefl 0)
  | error error =>
    refine ⟨error, isOfRates_of_solve hsolve, rfl, ?_⟩
    rw [Machine.solve_eq_of_coherent hg.coherent, hsolve]
    rfl

/-- A node with a loop writes nothing to a second one, which reads nothing and has another input without an
edge. -/
def silent : Graph where
  nodes :=
    [⟨"mute", 0, [⟨⟨⟨"u8", 1⟩, 1⟩, some 1⟩], [⟨⟨⟨"u8", 1⟩, 0⟩, some 0⟩, ⟨⟨⟨"u8", 1⟩, 1⟩, some 1⟩]⟩,
      ⟨"deaf", 1, [⟨⟨⟨"u8", 1⟩, 0⟩, some 0⟩, ⟨⟨⟨"u8", 1⟩, 4⟩, none⟩], []⟩]
  edges := [⟨.out 0 0, .into 1 0, 0, ⟨"u8", 1⟩, 0, 0⟩, ⟨.out 0 1, .into 0 0, 1, ⟨"u8", 1⟩, 1, 1⟩]

theorem built_silent : silent.Built := by
  have hnodes := Built.empty.addNode
      ⟨"mute", none, [⟨⟨"u8", 1⟩, 1⟩], [⟨⟨"u8", 1⟩, 0⟩, ⟨⟨"u8", 1⟩, 1⟩]⟩
    |>.addNode ⟨"deaf", none, [⟨⟨"u8", 1⟩, 0⟩, ⟨⟨"u8", 1⟩, 4⟩], []⟩
  have hfirst := hnodes.connect (rfl : connect _ (.out 0 0) (.into 1 0) 0 = .ok (0, _))
  exact hfirst.connect (rfl : connect _ (.out 0 1) (.into 0 0) 1 = .ok (1, silent))

/-- The second node has the ratio 0 over 0, which is carried back to the first. -/
theorem solve_silent : silent.solve = .error (.inconsistent 0) ∧
    Machine.solve silent = Machine.refuse (.inconsistent 0) := by
  have he : silent.edges[0]? = some ⟨.out 0 0, .into 1 0, 0, ⟨"u8", 1⟩, 0, 0⟩ := rfl
  obtain ⟨error, -, hsolve, hmachine⟩ := solve_of_zero_rate built_silent he (.inl (by decide))
  have hknown : silent.solve = .error (.inconsistent 0) := by decide +kernel
  cases hknown.symm.trans hsolve
  exact ⟨hsolve, hmachine⟩

end Graph

end Dataflow
