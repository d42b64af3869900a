import Dataflow.Proofs.Machine.Operation
import Dataflow.Proofs.Schedule.Balance

/-!
# Firing counts in machine words

The counts of a valid graph are found without a fault: Euclid's algorithm divides by numbers that are
not zero, ratios are positive, a component has no more nodes than the graph, and the products that are
not looked at a second time have been found to fit the first time.
-/

namespace Dataflow.Machine

/-! ## Common divisors and multiples -/

/-- Euclid's algorithm. -/
def gcd : (rounds : Nat) → Nat → Nat → Computation Nat
  | 0, a, b => if b = 0 then .ok a else stop .endless
  | rounds + 1, a, b =>
    if b = 0 then .ok a
    else do
      let rest ← remainder a b
      gcd rounds b rest

theorem gcd_eq {rounds a b : Nat} (h : b ≤ rounds) : gcd rounds a b = .ok (Nat.gcd a b) := by
  induction rounds generalizing a b with
  | zero =>
    rw [Nat.le_zero.mp h, Nat.gcd_zero_right]
    rfl
  | succ rounds ih =>
    rcases Nat.eq_zero_or_pos b with rfl | hb
    · rw [Nat.gcd_zero_right]
      rfl
    · have hrest : a % b < b := Nat.mod_lt a hb
      rw [gcd, if_neg (Nat.pos_iff_ne_zero.mp hb), remainder_of_pos a hb, ok_bind,
        ih (by omega), Nat.gcd_comm b, ← Nat.gcd_rec, Nat.gcd_comm]

def divisor (a b : Nat) : Computation Nat := do
  let d ← gcd b a b
  return max d 1

theorem divisor_eq (a b : Nat) : divisor a b = .ok (Ratio.divisor a b) := by
  rw [divisor, gcd_eq (Nat.le_refl b)]
  rfl

theorem divisor_pos (a b : Nat) : 0 < Ratio.divisor a b := Nat.le_max_right _ _

def reduced (num den : Nat) : Computation Ratio := do
  let d ← divisor num den
  let num ← quotient num d
  let den ← quotient den d
  return ⟨num, den⟩

theorem reduced_eq (num den : Nat) : reduced num den = .ok (Ratio.reduced num den) := by
  rw [reduced, divisor_eq, ok_bind, quotient_of_pos _ (divisor_pos num den), ok_bind,
    quotient_of_pos _ (divisor_pos num den)]
  rfl

def scale (r : Ratio) (mul div : Nat) : Computation (Option Ratio) := do
  let outer ← divisor r.num div
  let inner ← divisor mul r.den
  let num ← quotient r.num outer
  let mul ← quotient mul inner
  match Word.checked (num * mul) with
  | none => .ok none
  | some num => do
    let den ← quotient r.den inner
    let div ← quotient div outer
    match Word.checked (den * div) with
    | none => .ok none
    | some den => some <$> reduced num den

theorem scale_eq (r : Ratio) (mul div : Nat) : scale r mul div = .ok (r.scale? mul div) := by
  have houter := divisor_pos r.num div
  have hinner := divisor_pos mul r.den
  simp only [scale, divisor_eq, ok_bind, quotient_of_pos _ houter, quotient_of_pos _ hinner,
    Ratio.scale?]
  cases Word.checked (r.num / Ratio.divisor r.num div * (mul / Ratio.divisor mul r.den)) with
  | none => rfl
  | some num =>
    cases Word.checked (r.den / Ratio.divisor mul r.den * (div / Ratio.divisor r.num div)) with
    | none => rfl
    | some den =>
      simp only [reduced_eq]
      rfl

def lcm (a b : Nat) : Computation (Option Nat) :=
  if a = 0 ∨ b = 0 then .ok (some 0)
  else do
    let d ← gcd b a b
    let a ← quotient a d
    return Word.checked (a * b)

theorem lcm_eq (a b : Nat) : lcm a b = .ok (Word.checked (Nat.lcm a b)) := by
  unfold lcm
  split
  · rename_i hzero
    have hlcm : Nat.lcm a b = 0 := Nat.lcm_eq_zero_iff.mpr hzero
    rw [hlcm]
    rfl
  · rename_i hpos
    have hgcd : 0 < Nat.gcd a b := Nat.gcd_pos_of_pos_left b (by omega)
    have hproduct : a / Nat.gcd a b * b = Nat.lcm a b :=
      Nat.div_mul_right_comm (Nat.gcd_dvd_left a b) b
    rw [gcd_eq (Nat.le_refl b), ok_bind, quotient_of_pos a hgcd, ok_bind, hproduct]
    rfl

/-! ## Ratios of one component -/

def implied (e : Edge) (n : NodeId) (r : Ratio) : Computation (NodeId × Option Ratio) :=
  if e.source.node = n then do
    let needed ← scale r e.production.toNat e.consumption.toNat
    return (e.target.node, needed)
  else do
    let needed ← scale r e.consumption.toNat e.production.toNat
    return (e.source.node, needed)

theorem implied_eq (e : Edge) (n : NodeId) (r : Ratio) :
    implied e n r = .ok (Graph.implied e n r) := by
  unfold implied Graph.implied
  split <;> rw [scale_eq] <;> rfl

def carry (g : Graph) (n : NodeId) (r : Ratio) (s : Spread) (id : EdgeId) :
    Computation Spread := do
  let e ← found g.edges[id]?
  match ← implied e n r with
  | (other, none) => refuse (.rateOverflow other)
  | (other, some needed) =>
    match ← found s.ratios[other]? with
    | none => .ok (s.reach other needed)
    | some known => if known = needed then .ok s else refuse (.inconsistent id)

def expand (g : Graph) (s : Spread) (n : NodeId) : Computation Spread := do
  match ← found s.ratios[n]? with
  | none => .ok s
  | some r => do
    let node ← found g.nodes[n]?
    (node.outputEdges ++ node.inputEdges).foldlM (carry g n r) s

/-- The nodes before position `i` are expanded, and those from there on are waiting. -/
def component (g : Graph) : (rounds i : Nat) → Spread → Computation Spread
  | 0, i, s => if s.reached.length ≤ i then .ok s else stop .endless
  | rounds + 1, i, s =>
    match s.reached[i]? with
    | none => .ok s
    | some n => do
      let s ← expand g s n
      component g rounds (i + 1) s

variable {g : Graph} {base : NodeId → Option Ratio} {s : Spread}

theorem ratios_getElem? {n : NodeId} (h : n < s.ratios.length) :
    s.ratios[n]? = some (s.ratio? n) := by
  rw [Spread.ratio?, List.getElem?_eq_getElem h]
  rfl

theorem carry_eq (hg : g.Coherent) (h : s.Spans base g.nodes.length) {n : NodeId} (r : Ratio)
    {id : EdgeId} {e : Edge} (he : g.edges[id]? = some e) (hend : ∃ d, (e.portAt d).node = n) :
    carry g n r s id = of (g.carry n r s id) := by
  obtain ⟨d, -, himplied⟩ := Graph.exists_implied_eq hend r
  have hother : (e.portAt d.flip).node < s.ratios.length := h.length ▸ hg.node_lt he d.flip
  rw [carry, Graph.carry, he, found_some, ok_bind, implied_eq, ok_bind]
  simp only [himplied]
  cases r.scale? (e.rateAt d) (e.rateAt d.flip) with
  | none => rfl
  | some needed =>
    simp only [ratios_getElem? hother, found_some, ok_bind]
    cases s.ratio? (e.portAt d.flip).node with
    | none => rfl
    | some known =>
      dsimp only
      split <;> rfl

theorem expand_eq (hg : g.Coherent) (h : s.Spans base g.nodes.length) {n : NodeId}
    (hn : n ∈ s.reached) : expand g s n = of (g.expand s n) := by
  obtain ⟨r, hr⟩ := Option.isSome_iff_exists.mp (h.reached.mp hn).2
  have hlt := h.lt hn
  have hnode := List.getElem?_eq_getElem hlt
  have hedges : g.outputEdges n ++ g.inputEdges n =
      g.nodes[n].outputEdges ++ g.nodes[n].inputEdges := by
    simp [Graph.outputEdges, Graph.inputEdges, hnode]
  rw [expand, Graph.expand, ratios_getElem? (h.length ▸ hlt), found_some, ok_bind, hr, hedges]
  simp only [hnode, found_some, ok_bind, Option.getD_some]
  refine foldlM_of (P := fun _ u ↦ Spread.Spans base g.nodes.length u ∧ u.ratio? n = some r) ⟨h, hr⟩ ?_
  rintro done id u hpre ⟨hspans, hknown⟩
  obtain ⟨e, he, hend⟩ := hg.exists_end_of_mem (hedges ▸ mem_after hpre)
  refine ⟨carry_eq hg hspans r he hend, fun u' hstep ↦ ?_⟩
  obtain ⟨hspans', hext, -⟩ := (Graph.carries_carried hg).carry hspans hknown he hend hstep
  exact ⟨hspans', hext.ratio hknown⟩

/-- Rounds after the last node that was reached change nothing. -/
theorem foldlM_rounds {i : Nat} (h : s.reached.length ≤ i) (rounds : Nat) :
    (List.range' i rounds).foldlM (fun s round ↦ match s.reached[round]? with
      | none => .ok s
      | some n => g.expand s n) s = (.ok s : Except GraphError Spread) := by
  induction rounds generalizing i with
  | zero => rfl
  | succ rounds ih =>
    rw [List.range'_succ, List.foldlM_cons, List.getElem?_eq_none h]
    exact ih (Nat.le_succ_of_le h)

theorem component_eq_rounds (hg : g.Coherent) (h : s.Spans base g.nodes.length)
    {rounds i : Nat} (hi : i + rounds = g.nodes.length) :
    component g rounds i s = of ((List.range' i rounds).foldlM (fun s round ↦
      match s.reached[round]? with
      | none => .ok s
      | some n => g.expand s n) s) := by
  induction rounds generalizing i s with
  | zero =>
    -- No more nodes are reached than there are, so the rounds are enough.
    have hend : s.reached.length ≤ i := by
      rw [Nat.add_zero] at hi
      exact hi ▸ h.length_reached_le
    exact if_pos hend
  | succ rounds ih =>
    cases hround : s.reached[i]? with
    | none =>
      rw [foldlM_rounds (List.getElem?_eq_none_iff.mp hround)]
      simp only [component, hround]
      rfl
    | some n =>
      have hmem := List.mem_of_getElem? hround
      rw [List.range'_succ, List.foldlM_cons]
      simp only [component, hround]
      refine bind_of (expand_eq hg h hmem) fun u hu ↦ ?_
      exact ih ((Graph.carries_carried hg).expand hg h hmem hu).1 (by omega)

theorem component_eq (hg : g.Coherent) {ratios : List (Option Ratio)} {seed : NodeId}
    (hlength : ratios.length = g.nodes.length) (hseed : seed < g.nodes.length)
    (hnew : ratios[seed]?.join = none) :
    component g g.nodes.length 0 (Spread.reach ⟨ratios, []⟩ seed .one) =
      of (g.component ratios seed) := by
  have hrounds := component_eq_rounds hg (Spread.spans_seed hlength hseed hnew)
    (Nat.zero_add g.nodes.length)
  rw [← List.range_eq_range'] at hrounds
  exact hrounds

/-! ## Counts of one component -/

def ratioOf (s : Spread) (n : NodeId) : Computation Ratio := do
  let r ← found s.ratios[n]?
  return r.getD .one

def denominator (s : Spread) : Computation Nat :=
  s.reached.foldlM
    (fun acc n ↦ do
      let r ← ratioOf s n
      match ← lcm acc r.den with
      | none => refuse (.rateOverflow n)
      | some l => .ok l)
    1

def factor (s : Spread) (d : Nat) : Computation Nat :=
  s.reached.foldlM
    (fun acc n ↦ do
      let r ← ratioOf s n
      let q ← quotient d r.den
      match Word.checked (r.num * q) with
      | none => refuse (.rateOverflow n)
      | some v => gcd v acc v)
    0

def count (s : Spread) (d f : Nat) (n : NodeId) : Computation Nat := do
  let r ← ratioOf s n
  let q ← quotient d r.den
  let v ← word (r.num * q)
  quotient v (max f 1)

def settle (s : Spread) (counts : List Nat) : Computation (List Nat) := do
  let d ← denominator s
  let f ← factor s d
  s.reached.foldlM
    (fun acc n ↦ do
      let c ← count s d f n
      if c < Spread.countLimit then store acc n c else refuse (.rateOverflow n))
    counts

theorem ratioOf_eq {n : NodeId} (h : n < s.ratios.length) :
    ratioOf s n = .ok ((s.ratio? n).getD .one) := by
  rw [ratioOf, ratios_getElem? h]
  rfl

theorem denominator_eq (h : s.Grown base g.nodes.length) : denominator s = of s.denominator := by
  refine foldlM_of (P := fun _ _ ↦ True) trivial fun done n acc hpre _ ↦ ⟨?_, fun _ _ ↦ trivial⟩
  have hn : n ∈ s.reached := mem_after hpre
  rw [ratioOf_eq (h.length ▸ h.lt hn), ok_bind, lcm_eq, ok_bind]
  cases Word.checked (Nat.lcm acc ((s.ratio? n).getD .one).den) <;> rfl

theorem den_pos (h : s.Grown base g.nodes.length) {n : NodeId} (hn : n ∈ s.reached) :
    0 < ((s.ratio? n).getD .one).den := by
  obtain ⟨r, hr⟩ := Option.isSome_iff_exists.mp (h.reached.mp hn).2
  rw [hr]
  exact (h.positive hr).2

theorem factor_eq (h : s.Grown base g.nodes.length) (d : Nat) : factor s d = of (s.factor d) := by
  refine foldlM_of (P := fun _ _ ↦ True) trivial fun done n acc hpre _ ↦ ⟨?_, fun _ _ ↦ trivial⟩
  have hn : n ∈ s.reached := mem_after hpre
  rw [ratioOf_eq (h.length ▸ h.lt hn), ok_bind, quotient_of_pos d (den_pos h hn), ok_bind]
  show _ = of (match Word.checked (s.scaled d n) with
    | none => .error (.rateOverflow n)
    | some v => .ok (Nat.gcd acc v))
  rw [← Spread.scaled]
  cases Word.checked (s.scaled d n) with
  | none => rfl
  | some v => exact gcd_eq (Nat.le_refl v)

/-- The second look at a numerator needs no check. -/
theorem scaled_lt_of_factor {d f : Nat} (h : s.factor d = .ok f) :
    ∀ n ∈ s.reached, s.scaled d n < Word.modulus := by
  refine Fold.foldlM_ok_induction (P := fun done _ ↦ ∀ n ∈ done, s.scaled d n < Word.modulus)
    h (by simp) ?_
  intro done n acc acc' _ hdone hstep m hm
  rcases List.mem_append.mp hm with hold | hnew
  · exact hdone m hold
  · cases List.mem_singleton.mp hnew
    cases hchecked : Word.checked (s.scaled d n) with
    | none => simp [hchecked] at hstep
    | some v => exact (Word.checked_eq_some_iff.mp hchecked).1

theorem count_eq (h : s.Grown base g.nodes.length) {d f : Nat} (hf : s.factor d = .ok f)
    {n : NodeId} (hn : n ∈ s.reached) : count s d f n = .ok (s.scaled d n / max f 1) := by
  have hfits : ((s.ratio? n).getD .one).num * (d / ((s.ratio? n).getD .one).den) < Word.modulus :=
    scaled_lt_of_factor hf n hn
  rw [count, ratioOf_eq (h.length ▸ h.lt hn), ok_bind, quotient_of_pos d (den_pos h hn), ok_bind,
    word_of_lt hfits, ok_bind, quotient_of_pos _ (Nat.le_max_right f 1)]
  rfl

theorem settle_eq (h : s.Grown base g.nodes.length) {counts : List Nat}
    (hlength : counts.length = g.nodes.length) : settle s counts = of (s.settle counts) := by
  refine bind_of (denominator_eq h) fun d _ ↦ bind_of (factor_eq h d) fun f hf ↦ ?_
  refine foldlM_of (P := fun _ acc ↦ acc.length = g.nodes.length) hlength ?_
  intro done n acc hpre hacc
  have hn : n ∈ s.reached := mem_after hpre
  rw [count_eq h hf hn, ok_bind]
  dsimp only
  split
  · refine ⟨store_of_lt (hacc ▸ h.lt hn) _, fun acc' hacc' ↦ ?_⟩
    cases hacc'
    rw [List.length_set, hacc]
  · exact ⟨rfl, nofun⟩

/-! ## All components -/

def balanceFrom (g : Graph) (b : Balance) (seed : NodeId) : Computation Balance := do
  match ← found b.ratios[seed]? with
  | some _ => .ok b
  | none => do
    let s ← component g g.nodes.length 0 (Spread.reach ⟨b.ratios, []⟩ seed .one)
    let counts ← settle s b.counts
    return ⟨s.ratios, counts⟩

def solve (g : Graph) : Computation Repetitions := do
  let size := g.nodes.length
  let b ← (List.range size).foldlM (balanceFrom g) ⟨List.replicate size none, List.replicate size 0⟩
  return ⟨b.counts⟩

/-- A component whose ratios are positive when the search for it succeeds is settled without a fault. -/
theorem balanceFrom_eq (hg : g.Coherent) {b : Balance} (h : b.Settled g) {seed : NodeId}
    (hseed : seed < g.nodes.length)
    (hgrown : ∀ s, b.ratios[seed]?.join = none → g.component b.ratios seed = .ok s →
      s.Grown (fun n ↦ b.ratios[n]?.join) g.nodes.length) :
    balanceFrom g b seed = of (g.balanceFrom b seed) := by
  have hratio : b.ratios[seed]? = some (b.ratios[seed]?.join) := by
    rw [List.getElem?_eq_getElem (h.length_ratios ▸ hseed)]
    rfl
  rw [balanceFrom, Graph.balanceFrom, hratio, found_some, ok_bind, Option.join_some]
  cases hnew : b.ratios[seed]?.join with
  | some _ => rfl
  | none =>
    refine bind_of (component_eq hg h.length_ratios hseed hnew) fun s hs ↦ ?_
    exact bind_of (settle_eq (hgrown s hnew hs) h.length_counts) fun _ _ ↦ rfl

theorem solve_eq (hg : g.Coherent) (hf : g.Flows) : solve g = of g.solve := by
  refine bind_of ?_ fun _ _ ↦ rfl
  refine foldlM_of (P := fun _ b ↦ b.Settled g) (Balance.settled_blank g) ?_
  intro done seed b hpre hb
  have hseed : seed < g.nodes.length :=
    List.mem_range.mp (mem_after hpre)
  refine ⟨balanceFrom_eq hg hb hseed fun s hnew hs ↦ ?_,
    fun b' hb' ↦ (hb.balanceFrom hg hf hseed hb').1⟩
  exact (Graph.component_expanded hg hf hb.length_ratios hseed hb.positive hnew hs).1

end Dataflow.Machine
