import Dataflow.Proofs.Machine.Balance
import Dataflow.Proofs.Schedule.Solution

/-!
# When the counts are found

The search for firing counts fails only where it has to. If a graph has a positive solution, the ratio
that is carried to a node is the one of its count to that of the seed, in lowest terms, whatever way it
is carried. So no two ways contradict each other, and all numbers on the way divide counts of the
solution or are below them. A product leaves its word only if one of these counts is too large.
-/

namespace Dataflow

open Fold (Ends ends_foldlM)

/-! ## Ratios in lowest terms -/

namespace Ratio

variable {a b c : Nat}

theorem reduced_num_le (a b : Nat) : (reduced a b).num ≤ a := Nat.div_le_self a _

theorem reduced_den_dvd (ha : 0 < a) (b : Nat) : (reduced a b).den ∣ b := by
  rw [reduced, divisor_eq_gcd b ha]
  exact Nat.div_dvd_of_dvd (Nat.gcd_dvd_right a b)

theorem reduced_self (ha : 0 < a) : reduced a a = one := by
  rw [reduced, divisor_eq_gcd a ha, Nat.gcd_self, Nat.div_self ha]
  rfl

theorem coprime_reduced (ha : 0 < a) (b : Nat) : (reduced a b).num.Coprime (reduced a b).den := by
  rw [reduced, divisor_eq_gcd b ha]
  exact Nat.coprime_div_gcd_div_gcd (Nat.gcd_pos_of_pos_left b ha)

/-- A ratio in lowest terms is determined by its value. -/
theorem eq_reduced {r : Ratio} (hr : r.IsPositive) (hcoprime : r.num.Coprime r.den) (ha : 0 < a)
    (hb : 0 < b) (h : r.num * b = a * r.den) : r = reduced a b := by
  obtain ⟨hpos, hvalue⟩ := reduced_spec ha hb
  have hcross : r.num * (reduced a b).den = (reduced a b).num * r.den := by
    apply Nat.eq_of_mul_eq_mul_right (Nat.mul_pos ha hb)
    calc r.num * (reduced a b).den * (a * b) = r.num * b * (a * (reduced a b).den) := by ring
      _ = a * r.den * ((reduced a b).num * b) := by rw [h, hvalue]
      _ = (reduced a b).num * r.den * (a * b) := by ring
  have hlowest := coprime_reduced ha b
  have hnum : r.num = (reduced a b).num := by
    apply Nat.dvd_antisymm
    · exact hcoprime.dvd_of_dvd_mul_right (hcross ▸ Nat.dvd_mul_right _ _)
    · exact hlowest.dvd_of_dvd_mul_right (hcross ▸ Nat.dvd_mul_right _ _)
  have hden : r.den = (reduced a b).den := by
    apply Nat.eq_of_mul_eq_mul_left hpos.1
    rw [← hcross, hnum]
  cases r
  exact congrArg₂ mk hnum hden

/-- Scaling gives lowest terms. -/
theorem coprime_of_scale? {r s : Ratio} {mul div : Nat} (hr : r.IsPositive) (hmul : 0 < mul)
    (h : r.scale? mul div = some s) : s.num.Coprime s.den := by
  simp only [scale?, Option.bind_eq_bind, Option.bind_eq_some_iff, Word.checked_eq_some_iff,
    Option.pure_def, Option.some.injEq] at h
  obtain ⟨_, ⟨-, rfl⟩, _, -, rfl⟩ := h
  obtain ⟨_, x, _, _, hnum, -, houter, -⟩ := exists_eq_mul_divisor div hr.1
  obtain ⟨_, y, _, _, hmuly, -, hinner, -⟩ := exists_eq_mul_divisor r.den hmul
  apply coprime_reduced
  rw [houter, hinner]
  apply Nat.mul_pos
  · exact Nat.pos_of_mul_pos_left (hnum ▸ hr.1)
  · exact Nat.pos_of_mul_pos_left (hmuly ▸ hmul)

/-- Scaling a ratio of two counts by two rates leads to the count that is in balance with the first. -/
theorem scale?_reduced {mul div : Nat} {s : Ratio} (ha : 0 < a) (hb : 0 < b) (hc : 0 < c)
    (hmul : 0 < mul) (hdiv : 0 < div) (hbalance : mul * a = div * c)
    (h : (reduced a b).scale? mul div = some s) : s = reduced c b := by
  obtain ⟨hr, hvalue⟩ := reduced_spec ha hb
  obtain ⟨hs, hscaled⟩ := scale?_spec hr hmul hdiv h
  apply eq_reduced hs (coprime_of_scale? hr hmul h) hc hb
  apply Nat.eq_of_mul_eq_mul_right (Nat.mul_pos hr.2 hdiv)
  calc s.num * b * ((reduced a b).den * div)
      = s.num * ((reduced a b).den * div) * b := by ring
    _ = (reduced a b).num * b * mul * s.den := by rw [hscaled]; ring
    _ = mul * a * (reduced a b).den * s.den := by rw [hvalue]; ring
    _ = c * s.den * ((reduced a b).den * div) := by rw [hbalance]; ring

/-- Two factors of half a word fit into a word. -/
theorem div_mul_div_lt (ha : a < Spread.countLimit) (hb : b < Spread.countLimit) (x y : Nat) :
    a / x * (b / y) < Word.modulus :=
  calc a / x * (b / y) ≤ a * b := Nat.mul_le_mul (Nat.div_le_self a x) (Nat.div_le_self b y)
    _ < Spread.countLimit * Spread.countLimit := Nat.mul_lt_mul'' ha hb
    _ = Word.modulus := rfl

theorem exists_scale? {r : Ratio} {mul div : Nat} (hnum : r.num < Spread.countLimit)
    (hden : r.den < Spread.countLimit) (hmul : mul < Spread.countLimit)
    (hdiv : div < Spread.countLimit) : ∃ s, r.scale? mul div = some s := by
  simp only [scale?, Word.checked, div_mul_div_lt hnum hmul, div_mul_div_lt hden hdiv, if_true,
    Option.bind_eq_bind, Option.bind_some, Option.pure_def]
  exact ⟨_, rfl⟩

end Ratio

/-! ## The search beside a solution -/

/-- The error is that of a number that leaves its word, while some count of `w` is too large. -/
def Graph.TooLarge (g : Graph) (w : NodeId → Nat) (e : GraphError) : Prop :=
  (∃ n, e = .rateOverflow n) ∧ ∃ n < g.nodes.length, Spread.countLimit ≤ w n

theorem Graph.tooLarge_of {g : Graph} {w : NodeId → Nat} (n : NodeId)
    (h : ¬ ∀ m < g.nodes.length, w m < Spread.countLimit) : g.TooLarge w (.rateOverflow n) := by
  refine ⟨⟨n, rfl⟩, ?_⟩
  by_contra hfits
  exact h fun m hm ↦ Nat.lt_of_not_le fun hle ↦ hfits ⟨m, hm, hle⟩

/-- The spread has grown in a graph of `size` nodes from what `base` knows, and the ratio of each node
that it has reached is that of its count in `w` to the count of the seed. -/
structure Spread.Follows (w : NodeId → Nat) (seed : NodeId) (base : NodeId → Option Ratio)
    (size : Nat) (s : Spread) : Prop extends Grown base size s where
  ratio_eq {n : NodeId} (hn : n ∈ s.reached) : s.ratio? n = some (.reduced (w n) (w seed))

namespace Graph

variable {g : Graph} {w : NodeId → Nat} {seed n : NodeId} {base : NodeId → Option Ratio} {s : Spread}

/-- The two rates of an edge balance the counts at its ends. -/
theorem PositiveSolution.balance (hw : g.PositiveSolution w) {id : EdgeId} {e : Edge}
    (he : g.edges[id]? = some e) (d : Direction) :
    e.rateAt d * w (e.portAt d).node = e.rateAt d.flip * w (e.portAt d.flip).node := by
  cases d with
  | output => exact hw.solves id e he
  | input => exact (hw.solves id e he).symm

theorem rateAt_lt (e : Edge) (d : Direction) : e.rateAt d < Spread.countLimit := by
  cases d with
  | output => exact e.production.toNat_lt
  | input => exact e.consumption.toNat_lt

/-- What is not known is not joined to what is. -/
def Closed (g : Graph) (base : NodeId → Option Ratio) : Prop :=
  ∀ {id : EdgeId} {e : Edge}, g.edges[id]? = some e → ∀ d,
    base (e.portAt d).node = none → base (e.portAt d.flip).node = none

/-- The counts of a solution lead the search over an edge. -/
theorem carry_ends (hg : g.Coherent) (hf : g.Flows) (hw : g.PositiveSolution w)
    (hseed : seed < g.nodes.length) (h : s.Follows w seed base g.nodes.length)
    (hn : n ∈ s.reached) {id : EdgeId} {e : Edge} (he : g.edges[id]? = some e)
    (hend : ∃ d, (e.portAt d).node = n) (hclosed : g.Closed base) :
    Ends (g.carry n (.reduced (w n) (w seed)) s id)
      (fun t ↦ t.Follows w seed base g.nodes.length ∧ n ∈ t.reached) (g.TooLarge w) := by
  obtain ⟨d, rfl, himplied⟩ := exists_implied_eq hend (.reduced (w n) (w seed))
  have hnpos : 0 < w (e.portAt d).node := hw.positive (hg.node_lt he d)
  have hspos : 0 < w seed := hw.positive hseed
  cases hscale : Ratio.scale? (.reduced (w (e.portAt d).node) (w seed)) (e.rateAt d)
      (e.rateAt d.flip) with
  | none =>
    simp only [carry, he, himplied, hscale]
    apply tooLarge_of
    intro hfits
    have hden : (Ratio.reduced (w (e.portAt d).node) (w seed)).den ≤ w seed :=
      Nat.le_of_dvd hspos (Ratio.reduced_den_dvd hnpos _)
    obtain ⟨_, hsome⟩ := Ratio.exists_scale?
      (Nat.lt_of_le_of_lt (Ratio.reduced_num_le _ _) (hfits _ (hg.node_lt he d)))
      (Nat.lt_of_le_of_lt hden (hfits _ hseed)) (rateAt_lt e d) (rateAt_lt e d.flip)
    rw [hsome] at hscale
    cases hscale
  | some needed =>
    have hother := hg.node_lt he d.flip
    have hneeded : needed = .reduced (w (e.portAt d.flip).node) (w seed) :=
      Ratio.scale?_reduced hnpos hspos (hw.positive hother) (hf he d) (hf he d.flip)
        (hw.balance he d) hscale
    have hpos := (Ratio.reduced_spec (hw.positive hother) hspos).1
    subst hneeded
    cases hknown : s.ratio? (e.portAt d.flip).node with
    | none =>
      have hlength : (e.portAt d.flip).node < s.ratios.length := h.length ▸ hother
      simp only [carry, he, himplied, hscale, hknown]
      refine ⟨⟨h.toGrown.reach hother hpos hknown, fun {m} hm ↦ ?_⟩, List.mem_append_left _ hn⟩
      rw [Spread.ratio?_reach hlength]
      rcases List.mem_append.mp hm with hold | hadded
      · split
        · rename_i heq
          rw [heq]
        · exact h.ratio_eq hold
      · rw [List.mem_singleton.mp hadded, if_pos rfl]
    | some known =>
      have hreached : (e.portAt d.flip).node ∈ s.reached :=
        h.reached.mpr ⟨hclosed he d (h.reached.mp hn).1, by simp [hknown]⟩
      have hsame := hknown.symm.trans (h.ratio_eq hreached)
      simp only [carry, he, himplied, hscale, hknown, Option.some.inj hsame, if_true]
      exact ⟨h, hn⟩

theorem expand_ends (hg : g.Coherent) (hf : g.Flows) (hw : g.PositiveSolution w)
    (hseed : seed < g.nodes.length) (h : s.Follows w seed base g.nodes.length)
    (hn : n ∈ s.reached) (hclosed : g.Closed base) :
    Ends (g.expand s n) (fun t ↦ t.Follows w seed base g.nodes.length) (g.TooLarge w) := by
  rw [expand, h.ratio_eq hn, Option.getD_some]
  have hfold := ends_foldlM (Q := g.TooLarge w) (l := g.outputEdges n ++ g.inputEdges n)
    (f := g.carry n (.reduced (w n) (w seed))) (b := s)
    (P := fun _ u ↦ u.Follows w seed base g.nodes.length ∧ n ∈ u.reached) ⟨h, hn⟩ ?_
  · exact hfold.mono fun t _ ht ↦ ht.1
  · rintro done id u hpre ⟨hu, hn⟩
    obtain ⟨e, he, hend⟩ := hg.exists_end_of_mem (Machine.mem_after hpre)
    exact carry_ends hg hf hw hseed hu hn he hend hclosed

theorem component_ends (hg : g.Coherent) (hf : g.Flows) (hw : g.PositiveSolution w)
    {ratios : List (Option Ratio)} (hlength : ratios.length = g.nodes.length)
    (hseed : seed < g.nodes.length)
    (hpos : ∀ (n : NodeId) (r : Ratio), ratios[n]?.join = some r → r.IsPositive)
    (hnew : ratios[seed]?.join = none) (hclosed : g.Closed fun n ↦ ratios[n]?.join) :
    Ends (g.component ratios seed)
      (fun t ↦ t.Follows w seed (fun n ↦ ratios[n]?.join) g.nodes.length) (g.TooLarge w) := by
  have hstart := Spread.grown_seed hlength hseed hpos hnew
  have hone : (Spread.reach ⟨ratios, []⟩ seed .one).ratio? seed =
      some (.reduced (w seed) (w seed)) := by
    rw [Spread.ratio?_reach (hlength ▸ hseed), if_pos rfl, Ratio.reduced_self (hw.positive hseed)]
  refine ends_foldlM (P := fun _ (u : Spread) ↦ u.Follows w seed _ g.nodes.length)
    ⟨hstart, fun {n} hn ↦ List.mem_singleton.mp hn ▸ hone⟩ fun done round u _ hu ↦ ?_
  cases hround : u.reached[round]? with
  | none => exact hu
  | some n => exact expand_ends hg hf hw hseed hu (List.mem_of_getElem? hround) hclosed

/-! ## Counts beside a solution -/

theorem denominator_ends (hw : g.PositiveSolution w) (hseed : seed < g.nodes.length)
    (h : s.Follows w seed base g.nodes.length) :
    Ends s.denominator (fun d ↦ d ∣ w seed) (g.TooLarge w) := by
  refine ends_foldlM (P := fun _ d ↦ d ∣ w seed) (Nat.one_dvd _) fun done n d hpre hd ↦ ?_
  have hn : n ∈ s.reached := Machine.mem_after hpre
  rw [h.ratio_eq hn, Option.getD_some]
  have hdvd := Nat.lcm_dvd hd (Ratio.reduced_den_dvd (hw.positive (h.lt hn)) (w seed))
  cases hchecked : Word.checked (Nat.lcm d (Ratio.reduced (w n) (w seed)).den) with
  | none =>
    apply tooLarge_of
    intro hfits
    have hlt : Nat.lcm d (Ratio.reduced (w n) (w seed)).den < Word.modulus :=
      calc _ ≤ w seed := Nat.le_of_dvd (hw.positive hseed) hdvd
        _ < Spread.countLimit := hfits seed hseed
        _ < Word.modulus := by decide
    rw [Word.checked_eq_some_iff.mpr ⟨hlt, rfl⟩] at hchecked
    cases hchecked
  | some l => exact (Word.checked_eq_some_iff.mp hchecked).2 ▸ hdvd

/-- No numerator over the common denominator is above the count of its node. -/
theorem scaled_le (hw : g.PositiveSolution w) (hseed : seed < g.nodes.length)
    (h : s.Follows w seed base g.nodes.length) (hn : n ∈ s.reached) {d : Nat} (hd : d ≤ w seed) :
    s.scaled d n ≤ w n := by
  have hnpos := hw.positive (h.lt hn)
  obtain ⟨hpos, hvalue⟩ := Ratio.reduced_spec hnpos (hw.positive hseed)
  rw [Spread.scaled, h.ratio_eq hn, Option.getD_some]
  generalize hr : Ratio.reduced (w n) (w seed) = r at hpos hvalue
  calc r.num * (d / r.den) ≤ r.num * (w seed / r.den) :=
        Nat.mul_le_mul_left _ (Nat.div_le_div_right hd)
    _ = r.num * w seed / r.den :=
        (Nat.mul_div_assoc _ (hr ▸ Ratio.reduced_den_dvd hnpos (w seed))).symm
    _ = w n := by rw [hvalue, Nat.mul_div_cancel _ hpos.2]

theorem factor_ends (hw : g.PositiveSolution w) (hseed : seed < g.nodes.length)
    (h : s.Follows w seed base g.nodes.length) {d : Nat} (hd : d ≤ w seed) :
    Ends (s.factor d) (fun _ ↦ True) (g.TooLarge w) := by
  refine ends_foldlM (P := fun _ _ ↦ True) trivial fun done n f hpre _ ↦ ?_
  have hn : n ∈ s.reached := Machine.mem_after hpre
  cases hchecked : Word.checked (s.scaled d n) with
  | none =>
    apply tooLarge_of
    intro hfits
    have hlt : s.scaled d n < Word.modulus :=
      calc s.scaled d n ≤ w n := scaled_le hw hseed h hn hd
        _ < Spread.countLimit := hfits n (h.lt hn)
        _ < Word.modulus := by decide
    rw [Word.checked_eq_some_iff.mpr ⟨hlt, rfl⟩] at hchecked
    cases hchecked
  | some v => trivial

theorem settle_ends (hw : g.PositiveSolution w) (hseed : seed < g.nodes.length)
    (h : s.Follows w seed base g.nodes.length) (counts : List Nat) :
    Ends (s.settle counts) (fun _ ↦ True) (g.TooLarge w) := by
  refine (denominator_ends hw hseed h).bind fun d _ hdvd ↦ ?_
  have hd : d ≤ w seed := Nat.le_of_dvd (hw.positive hseed) hdvd
  refine (factor_ends hw hseed h hd).bind fun f _ _ ↦ ?_
  refine ends_foldlM (P := fun _ _ ↦ True) trivial fun done n acc hpre _ ↦ ?_
  have hn : n ∈ s.reached := Machine.mem_after hpre
  dsimp only
  split
  · trivial
  · rename_i hlarge
    apply tooLarge_of
    intro hfits
    apply hlarge
    calc s.scaled d n / max f 1 ≤ s.scaled d n := Nat.div_le_self _ _
      _ ≤ w n := scaled_le hw hseed h hn hd
      _ < Spread.countLimit := hfits n (h.lt hn)

/-! ## All components beside a solution -/

theorem balanceFrom_ends (hg : g.Coherent) (hf : g.Flows) (hw : g.PositiveSolution w) {b : Balance}
    (h : b.Settled g) (hseed : seed < g.nodes.length) :
    Ends (g.balanceFrom b seed) (fun b' ↦ b'.Settled g) (g.TooLarge w) := by
  have hends : Ends (g.balanceFrom b seed) (fun _ ↦ True) (g.TooLarge w) := by
    rw [balanceFrom]
    cases hnew : b.ratios[seed]?.join with
    | some _ => trivial
    | none =>
      have hclosed : g.Closed fun n ↦ b.ratios[n]?.join := fun {id e} he d hnone ↦ by
        by_contra hknown
        have hback := h.closed he d.flip (Option.isSome_iff_ne_none.mpr hknown)
        rw [Direction.flip_flip] at hback
        exact Option.isSome_iff_ne_none.mp hback hnone
      refine (component_ends hg hf hw h.length_ratios hseed h.positive hnew hclosed).bind
        fun s _ hs ↦ ?_
      exact (settle_ends hw hseed hs b.counts).bind fun _ _ _ ↦ trivial
  exact hends.mono fun b' hb' _ ↦ (h.balanceFrom hg hf hseed hb').1

/-- Where there is a positive solution, the search ends with counts, or with a number that leaves its
word because some count of this solution is too large. -/
theorem solve_ends (hg : g.Coherent) (hf : g.Flows) (hw : g.PositiveSolution w) :
    Ends g.solve (fun _ ↦ True) (g.TooLarge w) := by
  refine Ends.bind (P := fun b ↦ b.Settled g) ?_ fun _ _ _ ↦ trivial
  refine ends_foldlM (P := fun _ (b : Balance) ↦ b.Settled g) (Balance.settled_blank g) ?_
  intro done seed b hpre hb
  exact balanceFrom_ends hg hf hw hb (List.mem_range.mp (Machine.mem_after hpre))

/-- The counts that are found are a positive solution within the limit. -/
theorem positiveSolution_of_solve (hg : g.Coherent) (hf : g.Flows) {r : Repetitions}
    (h : g.solve = .ok r) : g.PositiveSolution r.get := by
  have hbalances := balances_of_solve hg hf h
  exact ⟨hbalances.positive, fun id e he ↦ hbalances.balance he⟩

theorem flows_of_rates (h : ∀ (id : EdgeId) (e : Edge), g.edges[id]? = some e →
    0 < e.production ∧ 0 < e.consumption) : g.Flows := fun {id e} he d ↦ by
  cases d with
  | output => exact UInt32.lt_iff_toNat_lt.mp (h id e he).1
  | input => exact UInt32.lt_iff_toNat_lt.mp (h id e he).2

/-- Counts are found exactly if there is a positive solution and the least one stays below the limit.
Two ways that contradict each other are reported only of graphs without a positive solution, and a count
that is too large exactly of those whose least solution has one, when they have a solution. The numbers
on the way never leave their words unnoticed. -/
theorem solve_iff_least_fits (hg : g.Built)
    (hrates : ∀ (id : EdgeId) (e : Edge), g.edges[id]? = some e →
      0 < e.production ∧ 0 < e.consumption) :
    ((∃ r, g.solve = .ok r) ↔ (∃ w, g.PositiveSolution w) ∧
      ∀ v, g.LeastSolution v → ∀ n < g.nodes.length, v n < Spread.countLimit) ∧
    ((∃ w, g.PositiveSolution w) → ∃ v, g.LeastSolution v) ∧
    (∀ id, g.solve = .error (.inconsistent id) → ¬ ∃ w, g.PositiveSolution w) ∧
    (∀ v, g.LeastSolution v → ((∃ n, g.solve = .error (.rateOverflow n)) ↔
      ∃ n < g.nodes.length, Spread.countLimit ≤ v n)) ∧
    Machine.solve g = Machine.of g.solve := by
  have hf : g.Flows := flows_of_rates hrates
  have hleast {w : NodeId → Nat} (hw : g.PositiveSolution w) : g.LeastSolution g.leastCount :=
    least_leastCount hg.coherent hf hw
  have hfits {r : Repetitions} (hr : g.solve = .ok r) {v : NodeId → Nat} (hv : g.LeastSolution v) :
      ∀ n < g.nodes.length, v n < Spread.countLimit := fun n hn ↦
    calc v n ≤ r.get n := hv.le (positiveSolution_of_solve hg.coherent hf hr) hn
      _ < Spread.countLimit := (balances_of_solve hg.coherent hf hr).fits hn
  have hsolved {v : NodeId → Nat} (hv : g.LeastSolution v)
      (hlt : ∀ n < g.nodes.length, v n < Spread.countLimit) : ∃ r, g.solve = .ok r := by
    obtain ⟨r, hr, -⟩ := (solve_ends hg.coherent hf hv.toPositiveSolution).exists_ok
      fun _ ⟨_, n, hn, hle⟩ ↦ Nat.not_lt.mpr hle (hlt n hn)
    exact ⟨r, hr⟩
  refine ⟨⟨fun ⟨r, hr⟩ ↦ ?_, fun ⟨⟨w, hw⟩, hlt⟩ ↦ ?_⟩, fun ⟨w, hw⟩ ↦ ⟨_, hleast hw⟩,
    fun id herror ⟨w, hw⟩ ↦ ?_, fun v hv ↦ ⟨fun ⟨n, herror⟩ ↦ ?_, fun ⟨n, hn, hle⟩ ↦ ?_⟩,
    Machine.solve_eq hg.coherent hf⟩
  · exact ⟨⟨_, positiveSolution_of_solve hg.coherent hf hr⟩, fun v hv ↦ hfits hr hv⟩
  · exact hsolved (hleast hw) (hlt _ (hleast hw))
  · obtain ⟨⟨n, hn⟩, -⟩ := (solve_ends hg.coherent hf hw).error herror
    cases hn
  · exact ((solve_ends hg.coherent hf hv.toPositiveSolution).error herror).2
  · cases hresult : g.solve with
    | ok r => exact absurd (hfits hresult hv n hn) (Nat.not_lt.mpr hle)
    | error e =>
      obtain ⟨⟨m, rfl⟩, -⟩ := (solve_ends hg.coherent hf hv.toPositiveSolution).error hresult
      exact ⟨m, rfl⟩

/-! ## A tower of rates -/

/-- Three nodes in a row. The second fires 65537 times for each firing of the first, and the third `rate`
times for each firing of the second. -/
def tower (rate : UInt32) : Graph where
  nodes :=
    [⟨"ground", 0, [], [⟨⟨⟨"u8", 1⟩, 65537⟩, some 0⟩]⟩,
      ⟨"middle", 1, [⟨⟨⟨"u8", 1⟩, 1⟩, some 0⟩], [⟨⟨⟨"u8", 1⟩, rate⟩, some 1⟩]⟩,
      ⟨"top", 2, [⟨⟨⟨"u8", 1⟩, 1⟩, some 1⟩], []⟩]
  edges := [⟨.out 0 0, .into 1 0, 0, ⟨"u8", 1⟩, 65537, 1⟩, ⟨.out 1 0, .into 2 0, 0, ⟨"u8", 1⟩, rate, 1⟩]

def towerCounts (rate : UInt32) : NodeId → Nat
  | 0 => 1
  | 1 => 65537
  | _ => 65537 * rate.toNat

theorem built_tower (rate : UInt32) : (tower rate).Built := by
  have hnodes := Built.empty.addNode ⟨"ground", none, [], [⟨⟨"u8", 1⟩, 65537⟩]⟩
    |>.addNode ⟨"middle", none, [⟨⟨"u8", 1⟩, 1⟩], [⟨⟨"u8", 1⟩, rate⟩]⟩
    |>.addNode ⟨"top", none, [⟨⟨"u8", 1⟩, 1⟩], []⟩
  have hfirst := hnodes.connect (rfl : connect _ (.out 0 0) (.into 1 0) 0 = .ok (0, _))
  exact hfirst.connect (rfl : connect _ (.out 1 0) (.into 2 0) 0 = .ok (1, tower rate))

theorem rates_tower {rate : UInt32} (h : 0 < rate) (id : EdgeId) (e : Edge)
    (he : (tower rate).edges[id]? = some e) : 0 < e.production ∧ 0 < e.consumption := by
  have hmem := List.mem_of_getElem? he
  simp only [tower, List.mem_cons, List.not_mem_nil, or_false] at hmem
  rcases hmem with rfl | rfl
  · decide
  · exact ⟨h, (by decide : (0 : UInt32) < 1)⟩

theorem least_tower {rate : UInt32} (h : 0 < rate) : (tower rate).LeastSolution (towerCounts rate) where
  positive {n} _ := by
    have hrate : 0 < rate.toNat := UInt32.lt_iff_toNat_lt.mp h
    match n with
    | 0 => exact Nat.one_pos
    | 1 => exact Nat.succ_pos _
    | _ + 2 => exact Nat.mul_pos (Nat.succ_pos _) hrate
  solves id e he := by
    have hmem := List.mem_of_getElem? he
    simp only [tower, List.mem_cons, List.not_mem_nil, or_false] at hmem
    rcases hmem with rfl | rfl
    · rfl
    · exact (Nat.mul_comm _ _).trans (Nat.one_mul _).symm
  multiple {w} hw {m} hm := by
    have hfirst : 65537 * w 0 = 1 * w 1 := hw.solves 0 _ rfl
    have hsecond : rate.toNat * w 1 = 1 * w 2 := hw.solves 1 _ rfl
    refine ⟨w 0, hw.positive (n := 0) (Nat.succ_pos 2), fun n hconnected ↦ ?_⟩
    have hn : n < 3 := (proportional_of_connected (built_tower rate).coherent
      (flows_of_rates (rates_tower h)) hw.solves hw.solves (fun _ ↦ hw.positive) hconnected).1.mp hm
    match n, hn with
    | 0, _ => exact (Nat.mul_one _).symm
    | 1, _ =>
      change w 1 = w 0 * 65537
      omega
    | 2, _ =>
      calc w 2 = rate.toNat * (1 * w 1) := by rw [Nat.one_mul, hsecond, Nat.one_mul]
        _ = w 0 * (65537 * rate.toNat) := by rw [← hfirst]; ring

/-- The largest count that there is can be reached, and with the next larger rate it is too large. -/
theorem solve_tower : (∃ r, (tower 65535).solve = .ok r) ∧
    ∃ n, (tower 65536).solve = .error (.rateOverflow n) := by
  constructor
  · have hleast := least_tower (by decide : (0 : UInt32) < 65535)
    refine (solve_iff_least_fits (built_tower _) (rates_tower (by decide))).1.mpr
      ⟨⟨_, hleast.toPositiveSolution⟩, fun v hv n hn ↦ ?_⟩
    have hfits : ∀ n < 3, towerCounts 65535 n < Spread.countLimit := by decide
    calc v n ≤ towerCounts 65535 n := hv.le hleast.toPositiveSolution hn
      _ < Spread.countLimit := hfits n hn
  · have hleast := least_tower (by decide : (0 : UInt32) < 65536)
    obtain ⟨-, -, -, hoverflow, -⟩ :=
      solve_iff_least_fits (built_tower 65536) (rates_tower (by decide))
    exact (hoverflow _ hleast).mpr ⟨2, by decide, by decide⟩

end Graph

end Dataflow
