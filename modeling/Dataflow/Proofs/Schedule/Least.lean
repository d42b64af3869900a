import Dataflow.Proofs.Schedule.Liveness

/-!
# Least counts

The counts that balance a graph are the least ones. The balance of the edges fixes the proportions
within a component, so two solutions differ there by one factor. Dividing by the common factor of the
component leaves counts that nothing divides but 1, and of these every other solution is a multiple.
-/

namespace Dataflow

/-! ## Components -/

namespace Graph

variable {g : Graph} {base : NodeId → Option Ratio} {s t : Spread} {m n : NodeId}

/-- The ratio of a node is carried to its neighbours only. -/
theorem connected_of_carry {r : Ratio} {id : EdgeId} {e : Edge} (he : g.edges[id]? = some e)
    (hend : ∃ d, (e.portAt d).node = n) (hstep : g.carry n r s id = .ok t) (hm : m ∈ t.reached) :
    m ∈ s.reached ∨ g.Connected n m := by
  obtain ⟨d, rfl, himplied⟩ := exists_implied_eq hend r
  simp only [carry, he, himplied] at hstep
  cases hscale : r.scale? (e.rateAt d) (e.rateAt d.flip) with
  | none => simp [hscale] at hstep
  | some needed =>
    simp only [hscale] at hstep
    cases hknown : s.ratio? (e.portAt d.flip).node with
    | none =>
      simp only [hknown, Except.ok.injEq] at hstep
      subst hstep
      refine (List.mem_append.mp hm).imp_right fun hnew ↦ ?_
      rw [List.mem_singleton.mp hnew]
      exact connected_ends he d d.flip
    | some known =>
      simp only [hknown] at hstep
      split at hstep
      · cases hstep
        exact .inl hm
      · cases hstep

theorem connected_of_expand (hg : g.Coherent) (hstep : g.expand s n = .ok t) (hm : m ∈ t.reached) :
    m ∈ s.reached ∨ g.Connected n m := by
  refine Fold.foldlM_ok_induction
    (P := fun _ u ↦ ∀ m ∈ u.reached, m ∈ s.reached ∨ g.Connected n m)
    hstep (fun m hm ↦ .inl hm) (fun done id u u' hmem hu hcarry m hm ↦ ?_) m hm
  obtain ⟨e, he, hend⟩ := hg.exists_end_of_mem hmem
  rcases connected_of_carry he hend hcarry hm with hold | hnew
  · exact hu m hold
  · exact .inr hnew

/-- The search for a component does not leave it. -/
theorem connected_of_component (hg : g.Coherent) {ratios : List (Option Ratio)} {seed : NodeId}
    (hstep : g.component ratios seed = .ok t) (hm : m ∈ t.reached) : g.Connected seed m := by
  refine Fold.foldlM_range_induction (P := fun _ u ↦ ∀ m ∈ u.reached, g.Connected seed m)
    hstep (fun m hm ↦ ?_) (fun i u u' _ hu hround m hm ↦ ?_) m hm
  · rw [List.mem_singleton.mp hm]
    exact .refl g seed
  · cases hi : u.reached[i]? with
    | none =>
      simp only [hi, Except.ok.injEq] at hround
      exact hu m (hround ▸ hm)
    | some n =>
      simp only [hi] at hround
      rcases connected_of_expand hg hround hm with hold | hnew
      · exact hu m hold
      · exact (hu n (List.mem_of_getElem? hi)).trans hnew

end Graph

/-! ## Common divisors -/

namespace Spread

variable {s : Spread}

/-- What divides all numerators of a component divides their common factor. -/
theorem dvd_factor {d f k : Nat} (h : s.factor d = .ok f) (hk : ∀ n ∈ s.reached, k ∣ s.scaled d n) :
    k ∣ f := by
  refine Fold.foldlM_ok_induction (P := fun _ f ↦ k ∣ f) h (Nat.dvd_zero k) ?_
  intro done n f f' hn hf hstep
  cases hscaled : Word.checked (s.scaled d n) with
  | none => simp [hscaled] at hstep
  | some v =>
    simp only [hscaled, Except.ok.injEq] at hstep
    obtain ⟨-, rfl⟩ := Word.checked_eq_some_iff.mp hscaled
    subst hstep
    exact Nat.dvd_gcd hf (hk n hn)

/-- Nothing but 1 divides all counts of a component that has been settled. -/
theorem eq_one_of_settle {counts counts' : List Nat} {seed : NodeId} (hseed : seed ∈ s.reached)
    (hpos : ∀ n ∈ s.reached, ∃ r, s.ratio? n = some r ∧ r.IsPositive)
    (hlt : ∀ n ∈ s.reached, n < counts.length) (h : s.settle counts = .ok counts') {k : Nat}
    (hk : ∀ n ∈ s.reached, ∀ count, counts'[n]? = some count → k ∣ count) : k = 1 := by
  obtain ⟨d, f, hd, hf, -, -, hcounts⟩ := exists_of_settle hlt h
  obtain ⟨hdpos, hden⟩ := denominator_spec hpos hd
  have hfactor := factor_spec hf
  obtain ⟨r, hr, hrpos⟩ := hpos seed hseed
  obtain ⟨hfpos, -, -⟩ := scaled_div_spec hr hrpos hdpos (hden seed hseed r hr) (hfactor seed hseed)
  have hmax : max f 1 = f := Nat.max_eq_left hfpos
  -- The factor takes all that the numerators have in common, so there is none of `k` left.
  have hdvd : f * k ∣ f := dvd_factor hf fun n hn ↦ by
    have hcount := hk n hn _ (hcounts n hn).1
    rw [hmax] at hcount
    calc f * k ∣ f * (s.scaled d n / f) := Nat.mul_dvd_mul_left f hcount
      _ = s.scaled d n := Nat.mul_div_cancel' (hfactor n hn)
  have hunit : f * k ∣ f * 1 := by rwa [Nat.mul_one]
  exact Nat.dvd_one.mp (Nat.dvd_of_mul_dvd_mul_left hfpos hunit)

end Spread

namespace Balance

/-- Nothing but 1 divides all counts of the component of a settled node. -/
def Primitive (g : Graph) (b : Balance) : Prop :=
  ∀ n, b.Known n → ∀ k, (∀ m, g.Connected n m → b.Known m → ∀ count,
    b.counts[m]? = some count → k ∣ count) → k = 1

theorem Primitive.balanceFrom {g : Graph} (hg : g.Coherent) (hf : g.Flows) {b b' : Balance}
    {seed : NodeId} (h : b.Settled g) (hprimitive : b.Primitive g) (hseed : seed < g.nodes.length)
    (hstep : g.balanceFrom b seed = .ok b') : b'.Primitive g := by
  rcases cases_of_balanceFrom hstep with ⟨-, rfl⟩ | ⟨s, counts, hnew, hcomponent, hsettle, rfl⟩
  · exact hprimitive
  · obtain ⟨hgrown, hmem, -⟩ :=
      Graph.component_expanded hg hf h.length_ratios hseed h.positive hnew hcomponent
    have hratio : ∀ n ∈ s.reached, ∃ r, s.ratio? n = some r ∧ r.IsPositive := fun n hn ↦ by
      obtain ⟨r, hr⟩ := Option.isSome_iff_exists.mp (hgrown.reached.mp hn).2
      exact ⟨r, hr, hgrown.positive hr⟩
    have hlt : ∀ n ∈ s.reached, n < b.counts.length := fun n hn ↦ h.length_counts ▸ hgrown.lt hn
    have hknown (n : NodeId) : Known ⟨s.ratios, counts⟩ n ↔ b.Known n ∨ n ∈ s.reached :=
      known_iff_of_grown hgrown n
    intro n hn k hk
    rcases (hknown n).mp hn with hold | hreached
    · refine hprimitive n hold k fun m hconnected hm count hcount ↦ ?_
      refine hk m hconnected ((hknown m).mpr (.inl hm)) count ?_
      have hfresh : m ∉ s.reached := fun hmem ↦ by
        simp [Known, (hgrown.reached.mp hmem).1] at hm
      rw [(Spread.settle_spec hratio hlt hsettle).2.1 m hfresh, hcount]
    · refine Spread.eq_one_of_settle hmem hratio hlt hsettle fun m hm ↦ ?_
      refine hk m ?_ ((hknown m).mpr (.inr hm))
      have hback := (Graph.connected_of_component hg hcomponent hreached).symm
      exact hback.trans (Graph.connected_of_component hg hcomponent hm)

end Balance

/-! ## All solutions -/

/-- Counts that leave every edge with what it had. -/
def Graph.Solves (g : Graph) (w : NodeId → Nat) : Prop :=
  ∀ (id : EdgeId) (e : Edge), g.edges[id]? = some e →
    e.production.toNat * w e.source.node = e.consumption.toNat * w e.target.node

namespace Graph

variable {g : Graph} {r : Repetitions} {m n : NodeId} {v w : NodeId → Nat}

/-- Nothing but 1 divides all counts of a component. -/
theorem eq_one_of_solve (hg : g.Coherent) (hf : g.Flows) (h : g.solve = .ok r)
    (hn : n < g.nodes.length) {k : Nat} (hk : ∀ m, g.Connected n m → k ∣ r.get m) : k = 1 := by
  obtain ⟨b, hfold, h⟩ := Fold.bind_eq_ok h
  cases h
  obtain ⟨-, hprimitive⟩ := Fold.foldlM_range_induction (P := fun _ b ↦ b.Settled g ∧ b.Primitive g)
    hfold ⟨Balance.settled_blank g, fun n hn ↦ absurd hn (Balance.not_known_blank g n)⟩
    fun i b b' hi ⟨hsettled, hprimitive⟩ hstep ↦
      ⟨(hsettled.balanceFrom hg hf hi hstep).1, hprimitive.balanceFrom hg hf hsettled hi hstep⟩
  refine hprimitive n ((Balance.settled_of_foldlM hg hf hfold).2 n hn) k fun m hm _ count hcount ↦ ?_
  simpa [Repetitions.get, hcount] using hk m hm

/-- Within a component all solutions have the same proportions. -/
theorem proportional_of_connected (hg : g.Coherent) (hf : g.Flows) (hv : g.Solves v)
    (hw : g.Solves w) (hpos : ∀ n < g.nodes.length, 0 < v n) (h : g.Connected m n) :
    (m < g.nodes.length ↔ n < g.nodes.length) ∧
      (m < g.nodes.length → w n * v m = v n * w m) := by
  induction h with
  | rel m n h =>
    obtain ⟨id, e, he, rfl, rfl⟩ := h
    refine ⟨iff_of_true (hg.node_lt he .output) (hg.node_lt he .input), fun _ ↦ ?_⟩
    have hconsumption : 0 < e.consumption.toNat := hf he .input
    refine Nat.eq_of_mul_eq_mul_left hconsumption ?_
    calc e.consumption.toNat * (w e.target.node * v e.source.node)
        = e.consumption.toNat * w e.target.node * v e.source.node := by ring
      _ = e.production.toNat * v e.source.node * w e.source.node := by rw [← hw id e he]; ring
      _ = e.consumption.toNat * (v e.target.node * w e.source.node) := by rw [hv id e he]; ring
  | refl m => exact ⟨Iff.rfl, fun _ ↦ Nat.mul_comm _ _⟩
  | symm m n _ ih =>
    refine ⟨ih.1.symm, fun hn ↦ ?_⟩
    rw [Nat.mul_comm, ← ih.2 (ih.1.mpr hn), Nat.mul_comm]
  | trans m k n _ _ ih ih' =>
    refine ⟨ih.1.trans ih'.1, fun hm ↦ ?_⟩
    have hk : k < g.nodes.length := ih.1.mp hm
    refine Nat.eq_of_mul_eq_mul_left (hpos k hk) ?_
    calc v k * (w n * v m) = w n * v k * v m := by ring
      _ = v n * (w k * v m) := by rw [ih'.2 hk]; ring
      _ = v k * (v n * w m) := by rw [ih.2 hm]; ring

/-- The counts that the solver gives are positive and balance every edge, and in each component all
positive solutions are multiples of them. -/
theorem least_of_solve (hg : g.Built)
    (hrates : ∀ (id : EdgeId) (e : Edge), g.edges[id]? = some e → 0 < e.production ∧ 0 < e.consumption)
    (h : g.solve = .ok r) :
    r.counts.length = g.nodes.length ∧ (∀ n < g.nodes.length, 1 ≤ r.get n) ∧ g.Solves r.get ∧
      ∀ w : NodeId → Nat, (∀ n < g.nodes.length, 0 < w n) → g.Solves w →
        ∀ m < g.nodes.length, ∃ k, 1 ≤ k ∧ ∀ n, g.Connected m n → w n = k * r.get n := by
  have hf : g.Flows := fun {id e} he d ↦ by
    cases d with
    | output => exact UInt32.lt_iff_toNat_lt.mp (hrates id e he).1
    | input => exact UInt32.lt_iff_toNat_lt.mp (hrates id e he).2
  have hbalances := balances_of_solve hg.coherent hf h
  have hsolves : g.Solves r.get := fun id e he ↦ hbalances.balance he
  refine ⟨hbalances.length, fun n hn ↦ hbalances.positive hn, hsolves, fun w hpos hw m hm ↦ ?_⟩
  have hproportion {n : NodeId} (hn : g.Connected m n) : w n * r.get m = r.get n * w m :=
    (proportional_of_connected hg.coherent hf hsolves hw (fun n ↦ hbalances.positive) hn).2 hm
  have hmpos := hbalances.positive hm
  -- What `r` has at `m` beyond its common divisor with `w` divides the whole component.
  have hdvd : r.get m ∣ w m := by
    obtain ⟨c, hc⟩ : ∃ c, Nat.gcd (r.get m) (w m) = c := ⟨_, rfl⟩
    have hcpos : 0 < c := hc ▸ Nat.gcd_pos_of_pos_left _ hmpos
    have hr : c * (r.get m / c) = r.get m := Nat.mul_div_cancel' (hc ▸ Nat.gcd_dvd_left ..)
    have hw : c * (w m / c) = w m := Nat.mul_div_cancel' (hc ▸ Nat.gcd_dvd_right ..)
    have hcoprime : Nat.Coprime (r.get m / c) (w m / c) :=
      hc ▸ Nat.coprime_div_gcd_div_gcd (hc ▸ hcpos)
    have hone : r.get m / c = 1 := eq_one_of_solve hg.coherent hf h hm fun n hn ↦ by
      refine hcoprime.dvd_of_dvd_mul_right ⟨w n, Nat.eq_of_mul_eq_mul_left hcpos ?_⟩
      calc c * (r.get n * (w m / c)) = r.get n * (c * (w m / c)) := by ring
        _ = w n * (c * (r.get m / c)) := by rw [hw, hr, hproportion hn]
        _ = c * (r.get m / c * w n) := by ring
    rw [← hr, hone, ← hw, Nat.mul_one]
    exact Nat.dvd_mul_right ..
  obtain ⟨k, hk⟩ := hdvd
  refine ⟨k, Nat.pos_of_mul_pos_left (hk ▸ hpos m hm), fun n hn ↦ ?_⟩
  refine Nat.eq_of_mul_eq_mul_right hmpos ?_
  rw [hproportion hn, hk]
  ring

/-- Two chains that nothing joins, the first from a node that writes two tokens to one that reads three,
and the second with twice these rates. -/
def chains : Graph where
  nodes :=
    [⟨"two", 0, [], [⟨⟨⟨"u8", 1⟩, 2⟩, some 0⟩]⟩, ⟨"three", 1, [⟨⟨⟨"u8", 1⟩, 3⟩, some 0⟩], []⟩,
      ⟨"four", 2, [], [⟨⟨⟨"u8", 1⟩, 4⟩, some 1⟩]⟩, ⟨"six", 3, [⟨⟨⟨"u8", 1⟩, 6⟩, some 1⟩], []⟩]
  edges := [⟨.out 0 0, .into 1 0, 0, ⟨"u8", 1⟩, 2, 3⟩, ⟨.out 2 0, .into 3 0, 0, ⟨"u8", 1⟩, 4, 6⟩]

theorem built_chains : chains.Built := by
  have hnodes := Built.empty.addNode ⟨"two", none, [], [⟨⟨"u8", 1⟩, 2⟩]⟩
    |>.addNode ⟨"three", none, [⟨⟨"u8", 1⟩, 3⟩], []⟩
    |>.addNode ⟨"four", none, [], [⟨⟨"u8", 1⟩, 4⟩]⟩
    |>.addNode ⟨"six", none, [⟨⟨"u8", 1⟩, 6⟩], []⟩
  have hfirst := hnodes.connect (rfl : connect _ (.out 0 0) (.into 1 0) 0 = .ok (0, _))
  exact hfirst.connect (rfl : connect _ (.out 2 0) (.into 3 0) 0 = .ok (1, chains))

/-- Both chains have the counts 3 and 2, also the one whose rates have a common factor. -/
theorem least_chains : chains.solve = .ok ⟨[3, 2, 3, 2]⟩ ∧
    ∀ w : NodeId → Nat, (∀ n < 4, 0 < w n) → chains.Solves w →
      ∀ m < 4, ∃ k, 1 ≤ k ∧ ∀ n, chains.Connected m n →
        w n = k * (⟨[3, 2, 3, 2]⟩ : Repetitions).get n := by
  have hsolve : chains.solve = .ok ⟨[3, 2, 3, 2]⟩ := by decide +kernel
  refine ⟨hsolve, (least_of_solve built_chains (fun id e he ↦ ?_) hsolve).2.2.2⟩
  have hall : ∀ e ∈ chains.edges, 0 < e.production ∧ 0 < e.consumption := by decide
  exact hall e (List.mem_of_getElem? he)

end Graph

end Dataflow
