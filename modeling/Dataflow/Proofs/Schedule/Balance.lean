import Dataflow.Proofs.Fold
import Dataflow.Proofs.Graph.Validity
import Dataflow.Schedule.Balance
import Mathlib.Data.List.Perm.Subperm
import Mathlib.Tactic.Ring

/-!
# Balance of the firing counts

The counts that `solve` gives are positive, and every edge gains in one period what it loses. Ratios
that are carried over an edge balance it, a component is closed under edges when it is complete, and
clearing denominators multiplies all ratios of a component by one number.
-/

namespace Dataflow

/-! ## Ratios -/

namespace Ratio

def IsPositive (r : Ratio) : Prop := 0 < r.num ∧ 0 < r.den

theorem isPositive_one : one.IsPositive := ⟨Nat.one_pos, Nat.one_pos⟩

theorem divisor_eq_gcd {a : Nat} (b : Nat) (ha : 0 < a) : divisor a b = Nat.gcd a b :=
  Nat.max_eq_left (Nat.gcd_pos_of_pos_left b ha)

/-- Two numbers without their common divisor. -/
theorem exists_eq_mul_divisor {a : Nat} (b : Nat) (ha : 0 < a) :
    ∃ g x y, 0 < g ∧ a = g * x ∧ b = g * y ∧ a / divisor a b = x ∧ b / divisor a b = y := by
  have hg : 0 < Nat.gcd a b := Nat.gcd_pos_of_pos_left b ha
  refine ⟨Nat.gcd a b, a / Nat.gcd a b, b / Nat.gcd a b, hg, ?_, ?_, ?_, ?_⟩
  · exact (Nat.mul_div_cancel' (Nat.gcd_dvd_left a b)).symm
  · exact (Nat.mul_div_cancel' (Nat.gcd_dvd_right a b)).symm
  · rw [divisor_eq_gcd b ha]
  · rw [divisor_eq_gcd b ha]

theorem reduced_spec {num den : Nat} (hnum : 0 < num) (hden : 0 < den) :
    (reduced num den).IsPositive ∧ (reduced num den).num * den = num * (reduced num den).den := by
  obtain ⟨g, x, y, hg, hx, hy, hnumx, hdeny⟩ := exists_eq_mul_divisor den hnum
  simp only [reduced, IsPositive, hnumx, hdeny]
  have hxpos : 0 < x := Nat.pos_of_mul_pos_left (hx ▸ hnum)
  have hypos : 0 < y := Nat.pos_of_mul_pos_left (hy ▸ hden)
  refine ⟨⟨hxpos, hypos⟩, ?_⟩
  rw [hx, hy]
  ring

/-- Scaling multiplies the value by `mul` and divides it by `div`. -/
theorem scale?_spec {r s : Ratio} {mul div : Nat} (hr : r.IsPositive) (hmul : 0 < mul)
    (hdiv : 0 < div) (h : r.scale? mul div = some s) :
    s.IsPositive ∧ s.num * (r.den * div) = r.num * mul * s.den := by
  obtain ⟨num, den⟩ := r
  obtain ⟨hnum, hden⟩ := hr
  simp only at hnum hden
  obtain ⟨g, a, b, hg, ha, hb, hnuma, hdivb⟩ := exists_eq_mul_divisor div hnum
  obtain ⟨k, c, d, hk, hc, hd, hmulc, hdend⟩ := exists_eq_mul_divisor den hmul
  simp only [scale?, hnuma, hdivb, hmulc, hdend, Option.bind_eq_bind, Option.bind_eq_some_iff,
    Word.checked_eq_some_iff, Option.pure_def, Option.some.injEq] at h
  obtain ⟨_, ⟨-, rfl⟩, _, ⟨-, rfl⟩, rfl⟩ := h
  have hapos : 0 < a := Nat.pos_of_mul_pos_left (ha ▸ hnum)
  have hbpos : 0 < b := Nat.pos_of_mul_pos_left (hb ▸ hdiv)
  have hcpos : 0 < c := Nat.pos_of_mul_pos_left (hc ▸ hmul)
  have hdpos : 0 < d := Nat.pos_of_mul_pos_left (hd ▸ hden)
  obtain ⟨hpos, hvalue⟩ := reduced_spec (Nat.mul_pos hapos hcpos) (Nat.mul_pos hdpos hbpos)
  refine ⟨hpos, ?_⟩
  calc (reduced (a * c) (d * b)).num * (den * div)
      = (reduced (a * c) (d * b)).num * (d * b) * (k * g) := by rw [hd, hb]; ring
    _ = a * c * (reduced (a * c) (d * b)).den * (k * g) := by rw [hvalue]
    _ = num * mul * (reduced (a * c) (d * b)).den := by rw [ha, hc]; ring

end Ratio

/-! ## Ratios of one component -/

namespace Spread

/-- The ratios at both ends of an edge are known and balance it. -/
def Agrees (s : Spread) (e : Edge) : Prop :=
  ∃ r t : Ratio, s.ratio? e.source.node = some r ∧ s.ratio? e.target.node = some t ∧
    r.num * e.rateAt .output * t.den = t.num * e.rateAt .input * r.den

/-- The ratio of a node has been carried over one of its edges. -/
def Carried (s : Spread) (n : NodeId) (e : Edge) : Prop :=
  ∃ (d : Direction) (r t : Ratio), (e.portAt d).node = n ∧ s.ratio? n = some r ∧
    s.ratio? (e.portAt d.flip).node = some t ∧ r.scale? (e.rateAt d) (e.rateAt d.flip) = some t

/-- What is known in `s` is known in `t`. -/
structure Extends (t s : Spread) : Prop where
  ratio {n : NodeId} {r : Ratio} (h : s.ratio? n = some r) : t.ratio? n = some r
  reached : s.reached <+: t.reached

theorem Extends.refl (s : Spread) : Extends s s := ⟨id, List.prefix_rfl⟩

theorem Extends.trans {s t u : Spread} (h : Extends u t) (h' : Extends t s) : Extends u s :=
  ⟨fun hr ↦ h.ratio (h'.ratio hr), h'.reached.trans h.reached⟩

theorem agrees_of_sides {s : Spread} {e : Edge} {d : Direction} {r t : Ratio}
    (hr : s.ratio? (e.portAt d).node = some r) (ht : s.ratio? (e.portAt d.flip).node = some t)
    (h : r.num * e.rateAt d * t.den = t.num * e.rateAt d.flip * r.den) : s.Agrees e := by
  cases d with
  | output => exact ⟨r, t, hr, ht, h⟩
  | input => exact ⟨t, r, ht, hr, h.symm⟩

theorem Agrees.extends {s t : Spread} {e : Edge} (h : s.Agrees e) (ht : Extends t s) :
    t.Agrees e := by
  obtain ⟨r, r', hr, hr', hbalance⟩ := h
  exact ⟨r, r', ht.ratio hr, ht.ratio hr', hbalance⟩

theorem Carried.extends {s t : Spread} {n : NodeId} {e : Edge} (h : s.Carried n e)
    (ht : Extends t s) : t.Carried n e := by
  obtain ⟨d, r, r', hd, hr, hr', hscale⟩ := h
  exact ⟨d, r, r', hd, ht.ratio hr, ht.ratio hr', hscale⟩

/-- Carrying a positive ratio over an edge with positive rates balances this edge. -/
theorem Carried.agrees {s : Spread} {n : NodeId} {e : Edge} (h : s.Carried n e)
    (hpos : ∀ r, s.ratio? n = some r → r.IsPositive) (hrate : ∀ d, 0 < e.rateAt d) :
    s.Agrees e := by
  obtain ⟨d, r, t, hd, hr, ht, hscale⟩ := h
  obtain ⟨-, hvalue⟩ := Ratio.scale?_spec (hpos r hr) (hrate d) (hrate d.flip) hscale
  refine agrees_of_sides (hd ▸ hr) ht ?_
  rw [← hvalue]
  ring

/-- The spread has grown in a graph of `size` nodes from what `base` knows, whatever its ratios are. -/
structure Spans (base : NodeId → Option Ratio) (size : Nat) (s : Spread) : Prop where
  length : s.ratios.length = size
  kept {n : NodeId} {r : Ratio} (h : base n = some r) : s.ratio? n = some r
  reached {n : NodeId} : n ∈ s.reached ↔ base n = none ∧ (s.ratio? n).isSome
  nodup : s.reached.Nodup

/-- The spread has grown in a graph of `size` nodes from what `base` knows. -/
structure Grown (base : NodeId → Option Ratio) (size : Nat) (s : Spread) : Prop where
  length : s.ratios.length = size
  positive {n : NodeId} {r : Ratio} (h : s.ratio? n = some r) : r.IsPositive
  kept {n : NodeId} {r : Ratio} (h : base n = some r) : s.ratio? n = some r
  reached {n : NodeId} : n ∈ s.reached ↔ base n = none ∧ (s.ratio? n).isSome
  nodup : s.reached.Nodup

theorem Grown.spans {base : NodeId → Option Ratio} {size : Nat} {s : Spread}
    (h : Grown base size s) : Spans base size s := ⟨h.length, h.kept, h.reached, h.nodup⟩

theorem Spans.grown {base : NodeId → Option Ratio} {size : Nat} {s : Spread} (h : Spans base size s)
    (hpos : ∀ {n r}, s.ratio? n = some r → r.IsPositive) : Grown base size s :=
  ⟨h.length, hpos, h.kept, h.reached, h.nodup⟩

theorem ratio?_reach {s : Spread} {n : NodeId} (hn : n < s.ratios.length) (r : Ratio) (m : NodeId) :
    (s.reach n r).ratio? m = if m = n then some r else s.ratio? m := by
  simp only [ratio?, reach, List.getElem?_set]
  by_cases hm : n = m
  · subst hm
    simp [hn]
  · simp [hm, Ne.symm hm]

theorem extends_reach {s : Spread} {n : NodeId} (hn : n < s.ratios.length) (r : Ratio)
    (hnew : s.ratio? n = none) : Extends (s.reach n r) s where
  ratio {m r'} h := by
    rw [ratio?_reach hn, if_neg, h]
    rintro rfl
    simp [hnew] at h
  reached := List.prefix_append _ _

theorem Spans.reach {base : NodeId → Option Ratio} {size : Nat} {s : Spread}
    (h : Spans base size s) {n : NodeId} (hn : n < size) (r : Ratio) (hnew : s.ratio? n = none) :
    Spans base size (s.reach n r) := by
  have hlength : n < s.ratios.length := h.length ▸ hn
  have hbase : base n = none := by
    cases hb : base n with
    | none => rfl
    | some b => simp [h.kept hb] at hnew
  refine ⟨by simpa [Spread.reach] using h.length, fun {m r'} hm ↦ ?_, fun {m} ↦ ?_, ?_⟩
  · exact (extends_reach hlength r hnew).ratio (h.kept hm)
  · rw [ratio?_reach hlength]
    simp only [Spread.reach, List.mem_append, List.mem_singleton, h.reached]
    by_cases hm : m = n
    · simp [hm, hbase]
    · simp [hm]
  · refine List.nodup_append.mpr ⟨h.nodup, by simp, ?_⟩
    rintro a ha b hb rfl
    rw [List.mem_singleton.mp hb, h.reached] at ha
    simp [hnew] at ha

theorem Grown.reach {base : NodeId → Option Ratio} {size : Nat} {s : Spread}
    (h : Grown base size s) {n : NodeId} (hn : n < size) {r : Ratio} (hr : r.IsPositive)
    (hnew : s.ratio? n = none) : Grown base size (s.reach n r) := by
  refine (h.spans.reach hn r hnew).grown fun {m r'} hm ↦ ?_
  rw [ratio?_reach (h.length ▸ hn)] at hm
  split at hm
  · cases hm
    exact hr
  · exact h.positive hm

/-- A search begins with its seed alone. -/
theorem spans_seed {ratios : List (Option Ratio)} {seed : NodeId} {size : Nat}
    (hlength : ratios.length = size) (hseed : seed < size) (hnew : ratios[seed]?.join = none) :
    (Spread.reach ⟨ratios, []⟩ seed .one).Spans (fun n ↦ ratios[n]?.join) size := by
  have hstart : Spans (fun n ↦ ratios[n]?.join) size ⟨ratios, []⟩ :=
    ⟨hlength, id, by simp [ratio?], List.nodup_nil⟩
  exact hstart.reach hseed .one hnew

theorem grown_seed {ratios : List (Option Ratio)} {seed : NodeId} {size : Nat}
    (hlength : ratios.length = size) (hseed : seed < size)
    (hpos : ∀ (n : NodeId) (r : Ratio), ratios[n]?.join = some r → r.IsPositive)
    (hnew : ratios[seed]?.join = none) :
    (Spread.reach ⟨ratios, []⟩ seed .one).Grown (fun n ↦ ratios[n]?.join) size := by
  have hstart : Grown (fun n ↦ ratios[n]?.join) size ⟨ratios, []⟩ :=
    ⟨hlength, fun {n r} ↦ hpos n r, id, by simp [ratio?], List.nodup_nil⟩
  exact hstart.reach hseed Ratio.isPositive_one hnew

theorem Spans.lt {base : NodeId → Option Ratio} {size : Nat} {s : Spread} (h : Spans base size s)
    {n : NodeId} (hn : n ∈ s.reached) : n < size := by
  have hsome := (h.reached.mp hn).2
  rw [← h.length]
  by_contra hge
  rw [ratio?, List.getElem?_eq_none (Nat.le_of_not_lt hge)] at hsome
  simp at hsome

theorem Grown.lt {base : NodeId → Option Ratio} {size : Nat} {s : Spread} (h : Grown base size s)
    {n : NodeId} (hn : n ∈ s.reached) : n < size := h.spans.lt hn

/-- No more nodes are reached than there are. -/
theorem Spans.length_reached_le {base : NodeId → Option Ratio} {size : Nat} {s : Spread}
    (h : Spans base size s) : s.reached.length ≤ size := by
  have hsub : s.reached ⊆ List.range size := fun n hn ↦ List.mem_range.mpr (h.lt hn)
  simpa using (h.nodup.subperm hsub).length_le

end Spread

namespace Graph

variable {g : Graph} {base : NodeId → Option Ratio} {s t : Spread}

/-- A ratio that is implied for the node `other`, and does not contradict what is known, is known
afterwards. Nothing else is new. -/
theorem carry_known {n other : NodeId} {r needed : Ratio} {id : EdgeId} {e : Edge}
    (h : s.Spans base g.nodes.length) (he : g.edges[id]? = some e)
    (himplied : implied e n r = (other, some needed)) (hother : other < g.nodes.length)
    (hstep : g.carry n r s id = .ok t) :
    t.Spans base g.nodes.length ∧ t.Extends s ∧ t.ratio? other = some needed ∧
      ∀ m r', t.ratio? m = some r' → s.ratio? m = some r' ∨ r' = needed := by
  simp only [carry, he, himplied] at hstep
  cases hknown : s.ratio? other with
  | none =>
    simp only [hknown, Except.ok.injEq] at hstep
    subst hstep
    have hlength : other < s.ratios.length := h.length ▸ hother
    refine ⟨h.reach hother needed hknown, Spread.extends_reach hlength needed hknown, ?_,
      fun m r' hm ↦ ?_⟩
    · rw [Spread.ratio?_reach hlength, if_pos rfl]
    · rw [Spread.ratio?_reach hlength] at hm
      split at hm
      · exact .inr (Option.some.inj hm).symm
      · exact .inl hm
  | some known =>
    simp only [hknown] at hstep
    split at hstep
    · rename_i heq
      cases hstep
      exact ⟨h, .refl s, heq ▸ hknown, fun _ _ ↦ .inl⟩
    · cases hstep

/-- A node with an edge implies the ratio of the node on the other side. -/
theorem exists_implied_eq {e : Edge} {n : NodeId} (hend : ∃ d, (e.portAt d).node = n) (r : Ratio) :
    ∃ d : Direction, (e.portAt d).node = n ∧
      implied e n r = ((e.portAt d.flip).node, r.scale? (e.rateAt d) (e.rateAt d.flip)) := by
  by_cases hsource : e.source.node = n
  · exact ⟨.output, hsource, by rw [implied, if_pos hsource]; rfl⟩
  · obtain ⟨d, hd⟩ := hend
    cases d with
    | output => exact absurd hd hsource
    | input => exact ⟨.input, hd, by rw [implied, if_neg hsource]; rfl⟩

/-- Carrying ratios over single edges keeps `I`, and brings about `Q` for the node that the ratio comes
from and the edge. -/
structure Carries (g : Graph) (base : NodeId → Option Ratio) (I : Spread → Prop)
    (Q : Spread → NodeId → Edge → Prop) : Prop where
  spans {s : Spread} (h : I s) : s.Spans base g.nodes.length
  mono {s t : Spread} {n : NodeId} {e : Edge} (h : Q s n e) (ht : t.Extends s) : Q t n e
  carry {s t : Spread} {n : NodeId} {r : Ratio} {id : EdgeId} {e : Edge} (h : I s)
    (hr : s.ratio? n = some r) (he : g.edges[id]? = some e) (hend : ∃ d, (e.portAt d).node = n)
    (hstep : g.carry n r s id = .ok t) : I t ∧ t.Extends s ∧ Q t n e

section Carries

variable {I : Spread → Prop} {Q : Spread → NodeId → Edge → Prop}

theorem Carries.expand (hc : g.Carries base I Q) (hg : Coherent g) {n : NodeId} (h : I s)
    (hn : n ∈ s.reached) (hstep : g.expand s n = .ok t) :
    I t ∧ t.Extends s ∧
      ∀ (id : EdgeId) (e : Edge), g.edges[id]? = some e → (∃ d, (e.portAt d).node = n) → Q t n e := by
  obtain ⟨r, hr⟩ := Option.isSome_iff_exists.mp ((hc.spans h).reached.mp hn).2
  rw [Graph.expand, hr] at hstep
  have hfold := Fold.foldlM_ok_induction
    (P := fun done u ↦ I u ∧ u.Extends s ∧ ∀ id ∈ done, ∀ e, g.edges[id]? = some e → Q u n e)
    hstep ⟨h, .refl s, by simp⟩ ?_
  · obtain ⟨hkept, hext, hbrought⟩ := hfold
    refine ⟨hkept, hext, fun id e he hend ↦ hbrought id ?_ e he⟩
    obtain ⟨d, hd⟩ := hend
    rw [List.mem_append]
    cases d with
    | output => exact .inl (hg.mem_edgesAt (d := .output) |>.mpr ⟨e, he, hd⟩)
    | input => exact .inr (hg.mem_edgesAt (d := .input) |>.mpr ⟨e, he, hd⟩)
  · rintro done id u u' hmem ⟨hkept, hext, hbrought⟩ hcarry
    obtain ⟨e, he, hend⟩ := hg.exists_end_of_mem hmem
    obtain ⟨hkept', hext', hbrought'⟩ := hc.carry hkept (hext.ratio hr) he hend hcarry
    refine ⟨hkept', hext'.trans hext, fun id' hid' e' he' ↦ ?_⟩
    rcases List.mem_append.mp hid' with hold | hnew
    · exact hc.mono (hbrought id' hold e' he') hext'
    · rw [List.mem_singleton.mp hnew, he] at he'
      cases he'
      exact hbrought'

/-- When the search for a component ends, every ratio has been carried over all edges of its node. -/
theorem Carries.component (hc : g.Carries base I Q) (hg : Coherent g) {ratios : List (Option Ratio)}
    {seed : NodeId} (hstart : I (Spread.reach ⟨ratios, []⟩ seed .one))
    (hstep : g.component ratios seed = .ok t) :
    I t ∧ t.Extends (Spread.reach ⟨ratios, []⟩ seed .one) ∧ ∀ n ∈ t.reached,
      ∀ (id : EdgeId) (e : Edge), g.edges[id]? = some e → (∃ d, (e.portAt d).node = n) → Q t n e := by
  have hfold := Fold.foldlM_range_induction
    (P := fun i u ↦ I u ∧ u.Extends (Spread.reach ⟨ratios, []⟩ seed .one) ∧
      ∀ j < i, ∀ n, u.reached[j]? = some n →
        ∀ (id : EdgeId) (e : Edge), g.edges[id]? = some e → (∃ d, (e.portAt d).node = n) → Q u n e)
    hstep ⟨hstart, .refl _, by simp⟩ ?_
  · obtain ⟨hkept, hext, hdone⟩ := hfold
    refine ⟨hkept, hext, fun n hn ↦ ?_⟩
    obtain ⟨j, hj⟩ := List.mem_iff_getElem?.mp hn
    have hlt : j < t.reached.length := (List.getElem?_eq_some_iff.mp hj).1
    exact hdone j (Nat.lt_of_lt_of_le hlt (hc.spans hkept).length_reached_le) n hj
  · rintro i u u' - ⟨hkept, hext, hdone⟩ hround
    cases hi : u.reached[i]? with
    | none =>
      simp only [hi, Except.ok.injEq] at hround
      subst hround
      refine ⟨hkept, hext, fun j hj n hn ↦ ?_⟩
      rcases Nat.lt_succ_iff_lt_or_eq.mp hj with hlt | rfl
      · exact hdone j hlt n hn
      · simp [hi] at hn
    | some m =>
      simp only [hi] at hround
      obtain ⟨hkept', hext', hbrought⟩ := hc.expand hg hkept (List.mem_of_getElem? hi) hround
      refine ⟨hkept', hext'.trans hext, fun j hj n hn ↦ ?_⟩
      have hjlt : j < u.reached.length :=
        Nat.lt_of_le_of_lt (Nat.le_of_lt_succ hj) (List.getElem?_eq_some_iff.mp hi).1
      -- The rounds up to this one look at nodes that had been reached before it.
      have hsame : u.reached[j]? = some n := by
        obtain ⟨more, hmore⟩ := hext'.reached
        rw [← hmore, List.getElem?_append_left hjlt] at hn
        exact hn
      rcases Nat.lt_succ_iff_lt_or_eq.mp hj with hlt | rfl
      · exact fun id e he hend ↦ hc.mono (hdone j hlt n hsame id e he hend) hext'
      · rw [hi] at hsame
        cases hsame
        exact hbrought

end Carries

/-- Whatever the rates are, what is implied at the other end of an edge is known in the end. -/
theorem carries_carried (hg : Coherent g) :
    g.Carries base (Spread.Spans base g.nodes.length) Spread.Carried where
  spans := id
  mono := Spread.Carried.extends
  carry {s t n r id e} h hr he hend hstep := by
    obtain ⟨d, hd, himplied⟩ := exists_implied_eq hend r
    cases hscale : r.scale? (e.rateAt d) (e.rateAt d.flip) with
    | none => simp [Graph.carry, he, himplied, hscale] at hstep
    | some needed =>
      rw [hscale] at himplied
      obtain ⟨hspans, hext, hknown, -⟩ := carry_known h he himplied (hg.node_lt he d.flip) hstep
      exact ⟨hspans, hext, d, r, needed, hd, hext.ratio hr, hknown, hscale⟩

/-- With positive rates, all ratios stay positive and all edges are balanced. -/
theorem carries_agrees (hg : Coherent g) (hf : g.Flows) :
    g.Carries base (Spread.Grown base g.nodes.length) (fun s _ e ↦ s.Agrees e) where
  spans := Spread.Grown.spans
  mono := Spread.Agrees.extends
  carry {s t n r id e} h hr he hend hstep := by
    obtain ⟨d, hd, himplied⟩ := exists_implied_eq hend r
    cases hscale : r.scale? (e.rateAt d) (e.rateAt d.flip) with
    | none => simp [Graph.carry, he, himplied, hscale] at hstep
    | some needed =>
      rw [hscale] at himplied
      obtain ⟨hspans, hext, hknown, hnew⟩ :=
        carry_known h.spans he himplied (hg.node_lt he d.flip) hstep
      have hneeded : needed.IsPositive :=
        (Ratio.scale?_spec (h.positive hr) (hf he d) (hf he d.flip) hscale).1
      have hgrown : t.Grown base g.nodes.length := hspans.grown fun {m r'} hm ↦ by
        rcases hnew m r' hm with hold | rfl
        · exact h.positive hold
        · exact hneeded
      have hcarried : t.Carried n e := ⟨d, r, needed, hd, hext.ratio hr, hknown, hscale⟩
      exact ⟨hgrown, hext, hcarried.agrees (fun _ ↦ hgrown.positive) (hf he)⟩

/-- All edges of node `n` are balanced. -/
def Expanded (g : Graph) (s : Spread) (n : NodeId) : Prop :=
  ∀ (id : EdgeId) (e : Edge), g.edges[id]? = some e → (∃ d, (e.portAt d).node = n) → s.Agrees e

/-- A component is complete when the search for it ends: all edges of the nodes reached are balanced. -/
theorem component_expanded (hg : Coherent g) (hf : g.Flows) {ratios : List (Option Ratio)}
    {seed : NodeId} (hlength : ratios.length = g.nodes.length) (hseed : seed < g.nodes.length)
    (hpos : ∀ (n : NodeId) (r : Ratio), ratios[n]?.join = some r → r.IsPositive)
    (hnew : ratios[seed]?.join = none)
    (hstep : g.component ratios seed = .ok t) :
    t.Grown (fun n ↦ ratios[n]?.join) g.nodes.length ∧ seed ∈ t.reached ∧
      ∀ n ∈ t.reached, g.Expanded t n := by
  obtain ⟨hgrown, hext, hexpanded⟩ := (carries_agrees hg hf).component hg
    (Spread.grown_seed hlength hseed hpos hnew) hstep
  exact ⟨hgrown, hext.reached.subset (List.mem_singleton.mpr rfl), hexpanded⟩

end Graph

/-! ## Counts of one component -/

namespace Spread

variable {s : Spread}

theorem denominator_spec {d : Nat} (hpos : ∀ n ∈ s.reached, ∃ r, s.ratio? n = some r ∧ r.IsPositive)
    (h : s.denominator = .ok d) :
    0 < d ∧ ∀ n ∈ s.reached, ∀ r, s.ratio? n = some r → r.den ∣ d := by
  refine Fold.foldlM_ok_induction
    (P := fun done d ↦ 0 < d ∧ ∀ n ∈ done, ∀ r, s.ratio? n = some r → r.den ∣ d)
    h ⟨Nat.one_pos, by simp⟩ ?_
  rintro done n d d' hn ⟨hd, hdvd⟩ hstep
  obtain ⟨r, hr, hrpos⟩ := hpos n hn
  simp only [hr, Option.getD_some] at hstep
  cases hlcm : Word.checked (Nat.lcm d r.den) with
  | none => simp [hlcm] at hstep
  | some l =>
    simp only [hlcm, Except.ok.injEq] at hstep
    obtain ⟨-, rfl⟩ := Word.checked_eq_some_iff.mp hlcm
    subst hstep
    refine ⟨Nat.lcm_pos hd hrpos.2, fun m hm r' hr' ↦ ?_⟩
    rcases List.mem_append.mp hm with hold | hnew
    · exact (hdvd m hold r' hr').trans (Nat.dvd_lcm_left d r.den)
    · rw [List.mem_singleton.mp hnew, hr] at hr'
      cases hr'
      exact Nat.dvd_lcm_right d r.den

theorem factor_spec {d f : Nat} (h : s.factor d = .ok f) : ∀ n ∈ s.reached, f ∣ s.scaled d n := by
  refine Fold.foldlM_ok_induction (P := fun done f ↦ ∀ n ∈ done, f ∣ s.scaled d n) h (by simp) ?_
  intro done n f f' hn hdvd hstep
  cases hscaled : Word.checked (s.scaled d n) with
  | none => simp [hscaled] at hstep
  | some v =>
    simp only [hscaled, Except.ok.injEq] at hstep
    obtain ⟨-, rfl⟩ := Word.checked_eq_some_iff.mp hscaled
    subst hstep
    intro m hm
    rcases List.mem_append.mp hm with hold | hnew
    · exact (Nat.gcd_dvd_left f (s.scaled d n)).trans (hdvd m hold)
    · rw [List.mem_singleton.mp hnew]
      exact Nat.gcd_dvd_right f (s.scaled d n)

/-- What is left of a scaled ratio when the common factor goes is positive and in proportion. -/
theorem scaled_div_spec {d f : Nat} {n : NodeId} {r : Ratio} (hr : s.ratio? n = some r)
    (hrpos : r.IsPositive) (hd : 0 < d) (hden : r.den ∣ d) (hf : f ∣ s.scaled d n) :
    0 < f ∧ 0 < s.scaled d n / f ∧ s.scaled d n / f * f * r.den = r.num * d := by
  obtain ⟨q, rfl⟩ := hden
  have hscaled : s.scaled (r.den * q) n = r.num * q := by
    simp only [scaled, hr, Option.getD_some]
    rw [Nat.mul_div_cancel_left q hrpos.2]
  have hpos : 0 < s.scaled (r.den * q) n := by
    rw [hscaled]
    exact Nat.mul_pos hrpos.1 (Nat.pos_of_mul_pos_left hd)
  have hfpos : 0 < f := Nat.pos_of_dvd_of_pos hf hpos
  refine ⟨hfpos, Nat.div_pos (Nat.le_of_dvd hpos hf) hfpos, ?_⟩
  calc
    s.scaled (r.den * q) n / f * f * r.den = r.num * q * r.den := by
      rw [Nat.div_mul_cancel hf, hscaled]
    _ = r.num * (r.den * q) := by ring

/-- The counts of the component are the scaled ratios without their common factor, and the other counts
stay. -/
theorem exists_of_settle {counts counts' : List Nat} (hlt : ∀ n ∈ s.reached, n < counts.length)
    (h : s.settle counts = .ok counts') :
    ∃ d f, s.denominator = .ok d ∧ s.factor d = .ok f ∧ counts'.length = counts.length ∧
      (∀ n ∉ s.reached, counts'[n]? = counts[n]?) ∧
      ∀ n ∈ s.reached, counts'[n]? = some (s.scaled d n / max f 1) ∧
        s.scaled d n / max f 1 < countLimit := by
  obtain ⟨d, hd, h⟩ := Fold.bind_eq_ok h
  obtain ⟨f, hf, h⟩ := Fold.bind_eq_ok h
  refine ⟨d, f, hd, hf, ?_⟩
  refine Fold.foldlM_ok_induction
    (P := fun done acc ↦ acc.length = counts.length ∧ (∀ n ∉ done, acc[n]? = counts[n]?) ∧
      ∀ n ∈ done, acc[n]? = some (s.scaled d n / max f 1) ∧
        s.scaled d n / max f 1 < countLimit)
    h ⟨rfl, by simp, by simp⟩ ?_
  rintro done n acc acc' hn ⟨hlength, hothers, hcounts⟩ hstep
  simp only at hstep
  split at hstep
  · rename_i hfits
    cases hstep
    refine ⟨by simpa using hlength, fun m hm ↦ ?_, fun m hm ↦ ?_⟩
    · rw [List.mem_append, List.mem_singleton, not_or] at hm
      rw [List.getElem?_set_ne (Ne.symm hm.2)]
      exact hothers m hm.1
    · by_cases heq : n = m
      · subst heq
        exact ⟨List.getElem?_set_self (hlength ▸ hlt n hn), hfits⟩
      · rw [List.getElem?_set_ne heq]
        refine hcounts m ((List.mem_append.mp hm).resolve_right ?_)
        simpa using Ne.symm heq
  · cases hstep

/-- All ratios of the component are multiplied by one number to give the counts. -/
theorem settle_spec {counts counts' : List Nat}
    (hpos : ∀ n ∈ s.reached, ∃ r, s.ratio? n = some r ∧ r.IsPositive)
    (hlt : ∀ n ∈ s.reached, n < counts.length) (h : s.settle counts = .ok counts') :
    counts'.length = counts.length ∧ (∀ n ∉ s.reached, counts'[n]? = counts[n]?) ∧
      ∃ d f, 0 < d ∧ 0 < f ∧ ∀ n ∈ s.reached, ∀ r, s.ratio? n = some r →
        ∃ count, counts'[n]? = some count ∧ 0 < count ∧ count < countLimit ∧
          count * f * r.den = r.num * d := by
  obtain ⟨d, f, hd, hf, hlength, hothers, hcounts⟩ := exists_of_settle hlt h
  obtain ⟨hdpos, hden⟩ := denominator_spec hpos hd
  refine ⟨hlength, hothers, d, max f 1, hdpos, by omega, fun n hn r hr ↦ ?_⟩
  obtain ⟨r', hr', hrpos⟩ := hpos n hn
  cases Option.some.inj (hr.symm.trans hr')
  obtain ⟨hfpos, hpositive, hproportion⟩ :=
    scaled_div_spec hr hrpos hdpos (hden n hn r hr) (factor_spec hf n hn)
  have hmax : max f 1 = f := Nat.max_eq_left hfpos
  obtain ⟨hcount, hfits⟩ := hmax ▸ hcounts n hn
  exact ⟨s.scaled d n / f, hcount, hpositive, hfits, hmax.symm ▸ hproportion⟩

end Spread

/-! ## All components -/

namespace Balance

/-- The node belongs to a component that is settled. -/
def Known (b : Balance) (n : NodeId) : Prop := (b.ratios[n]?.join).isSome

/-- The components settled so far are whole components, and their counts balance all their edges. -/
structure Settled (g : Graph) (b : Balance) : Prop where
  length_ratios : b.ratios.length = g.nodes.length
  length_counts : b.counts.length = g.nodes.length
  positive (n : NodeId) (r : Ratio) (h : b.ratios[n]?.join = some r) : r.IsPositive
  closed {id : EdgeId} {e : Edge} (he : g.edges[id]? = some e) (d : Direction)
    (h : b.Known (e.portAt d).node) : b.Known (e.portAt d.flip).node
  counted {n : NodeId} (h : b.Known n) :
    ∃ count, b.counts[n]? = some count ∧ 0 < count ∧ count < Spread.countLimit
  balanced {id : EdgeId} {e : Edge} (he : g.edges[id]? = some e) (h : b.Known e.source.node)
    {count count' : Nat} (hsource : b.counts[e.source.node]? = some count)
    (htarget : b.counts[e.target.node]? = some count') :
    e.rateAt .output * count = e.rateAt .input * count'

theorem join_getElem?_replicate_none {α : Type} (size n : Nat) :
    (List.replicate size (none : Option α))[n]?.join = none := by
  rw [List.getElem?_replicate]
  split <;> rfl

/-- No node is settled at the start. -/
def blank (g : Graph) : Balance :=
  ⟨List.replicate g.nodes.length none, List.replicate g.nodes.length 0⟩

theorem not_known_blank (g : Graph) (n : NodeId) : ¬ (blank g).Known n := by
  simp [blank, Known, join_getElem?_replicate_none]

theorem settled_blank (g : Graph) : Settled g (blank g) := by
  refine ⟨List.length_replicate, List.length_replicate, fun n r hr ↦ ?_,
    fun _ _ hn ↦ absurd hn (not_known_blank g _), fun hn ↦ absurd hn (not_known_blank g _),
    fun _ hn ↦ absurd hn (not_known_blank g _)⟩
  exact absurd (Option.isSome_of_mem hr) (not_known_blank g n)

/-- Counts that are one multiple of ratios in balance are in balance. -/
theorem mul_count_eq {p c d f count count' : Nat} {r t : Ratio} (hr : r.IsPositive)
    (ht : t.IsPositive) (hf : 0 < f) (hcount : count * f * r.den = r.num * d)
    (hcount' : count' * f * t.den = t.num * d) (h : r.num * p * t.den = t.num * c * r.den) :
    p * count = c * count' := by
  have hpos : 0 < f * r.den * t.den := Nat.mul_pos (Nat.mul_pos hf hr.2) ht.2
  refine Nat.eq_of_mul_eq_mul_right hpos ?_
  calc p * count * (f * r.den * t.den) = p * (count * f * r.den) * t.den := by ring
    _ = r.num * p * t.den * d := by rw [hcount]; ring
    _ = t.num * c * r.den * d := by rw [h]
    _ = c * (count' * f * t.den) * r.den := by rw [hcount']; ring
    _ = c * count' * (f * r.den * t.den) := by ring

/-- A node is known after a component if it was known before or has been reached. -/
theorem known_iff_of_grown {b : Balance} {s : Spread} {size : Nat} {counts : List Nat}
    (h : s.Grown (fun n ↦ b.ratios[n]?.join) size) (n : NodeId) :
    Known ⟨s.ratios, counts⟩ n ↔ b.Known n ∨ n ∈ s.reached := by
  rw [h.reached]
  constructor
  · intro hn
    by_cases hb : b.Known n
    · exact .inl hb
    · exact .inr ⟨by simpa [Known] using hb, hn⟩
  · rintro (hb | ⟨-, hn⟩)
    · obtain ⟨r, hr⟩ := Option.isSome_iff_exists.mp hb
      exact Option.isSome_of_mem (h.kept hr)
    · exact hn

/-- A component ends where known nodes begin, so it has both ends of an edge or none. -/
theorem Settled.flip_mem_reached {g : Graph} {b : Balance} {s : Spread} {size : Nat}
    (h : b.Settled g) (hspans : s.Spans (fun n ↦ b.ratios[n]?.join) size) {id : EdgeId} {e : Edge}
    (he : g.edges[id]? = some e) (d : Direction) (hn : (e.portAt d).node ∈ s.reached)
    (hsome : (s.ratio? (e.portAt d.flip).node).isSome) : (e.portAt d.flip).node ∈ s.reached := by
  refine hspans.reached.mpr ⟨?_, hsome⟩
  by_contra hother
  have hback := h.closed he d.flip (Option.isSome_iff_ne_none.mpr hother)
  rw [Direction.flip_flip] at hback
  exact absurd (hspans.reached.mp hn).1 (Option.isSome_iff_ne_none.mp hback)

/-- Another whole component in balance has its counts settled. -/
theorem Settled.settle {g : Graph} {b : Balance} {s : Spread} {counts : List Nat} (h : b.Settled g)
    (hgrown : s.Grown (fun n ↦ b.ratios[n]?.join) g.nodes.length)
    (hexpanded : ∀ n ∈ s.reached, g.Expanded s n) (hsettle : s.settle b.counts = .ok counts) :
    Settled g ⟨s.ratios, counts⟩ := by
  have hratio : ∀ n ∈ s.reached, ∃ r, s.ratio? n = some r ∧ r.IsPositive := fun n hn ↦ by
    obtain ⟨r, hr⟩ := Option.isSome_iff_exists.mp (hgrown.reached.mp hn).2
    exact ⟨r, hr, hgrown.positive hr⟩
  obtain ⟨hlength, hothers, d, f, -, hfpos, hcounts⟩ := Spread.settle_spec hratio
    (fun n hn ↦ h.length_counts ▸ hgrown.lt hn) hsettle
  have hknown (n : NodeId) : Known ⟨s.ratios, counts⟩ n ↔ b.Known n ∨ n ∈ s.reached :=
    known_iff_of_grown hgrown n
  have hfresh {n : NodeId} (hn : n ∈ s.reached) : ¬ b.Known n := by
    simp [Known, (hgrown.reached.mp hn).1]
  have hcross {id : EdgeId} {e : Edge} (he : g.edges[id]? = some e) (d : Direction)
      (hn : (e.portAt d).node ∈ s.reached) : (e.portAt d.flip).node ∈ s.reached := by
    obtain ⟨r, t, hr, ht, -⟩ := hexpanded _ hn id e he ⟨d, rfl⟩
    refine h.flip_mem_reached hgrown.spans he d hn ?_
    cases d with
    | output => exact Option.isSome_of_mem ht
    | input => exact Option.isSome_of_mem hr
  refine ⟨hgrown.length, hlength.trans h.length_counts, fun n r hr ↦ hgrown.positive hr,
    fun {id e} he d hn ↦ ?_, fun {n} hn ↦ ?_, fun {id e} he hn count count' hc hc' ↦ ?_⟩
  · rw [hknown] at hn ⊢
    exact hn.imp (h.closed he d) (hcross he d)
  · rcases (hknown n).mp hn with hb | hn
    · obtain ⟨count, hcount, hpos⟩ := h.counted hb
      refine ⟨count, ?_, hpos⟩
      rw [hothers n fun hmem ↦ hfresh hmem hb, hcount]
    · obtain ⟨r, hr, -⟩ := hratio n hn
      obtain ⟨count, hcount, hpos, hfits, -⟩ := hcounts n hn r hr
      exact ⟨count, hcount, hpos, hfits⟩
  · rcases (hknown _).mp hn with hb | hn
    · have hb' : b.Known e.target.node := h.closed he .output hb
      rw [hothers _ fun hmem ↦ hfresh hmem hb] at hc
      rw [hothers _ fun hmem ↦ hfresh hmem hb'] at hc'
      exact h.balanced he hb hc hc'
    · have hn' : e.target.node ∈ s.reached := hcross he .output hn
      obtain ⟨r, t, hr, ht, hagrees⟩ := hexpanded _ hn id e he ⟨.output, rfl⟩
      obtain ⟨_, hcount, -, -, hvalue⟩ := hcounts _ hn r hr
      obtain ⟨_, hcount', -, -, hvalue'⟩ := hcounts _ hn' t ht
      cases Option.some.inj (hc.symm.trans hcount)
      cases Option.some.inj (hc'.symm.trans hcount')
      exact mul_count_eq (hgrown.positive hr) (hgrown.positive ht) hfpos hvalue hvalue' hagrees

/-- A seed is known already, or its component is found and settled. -/
theorem cases_of_balanceFrom {g : Graph} {b b' : Balance} {seed : NodeId}
    (h : g.balanceFrom b seed = .ok b') :
    (b.Known seed ∧ b' = b) ∨ ∃ s counts, b.ratios[seed]?.join = none ∧
      g.component b.ratios seed = .ok s ∧ s.settle b.counts = .ok counts ∧ b' = ⟨s.ratios, counts⟩ := by
  unfold Graph.balanceFrom at h
  cases hnew : b.ratios[seed]?.join with
  | some r =>
    simp only [hnew, Except.ok.injEq] at h
    exact .inl ⟨by simp [Known, hnew], h.symm⟩
  | none =>
    simp only [hnew] at h
    obtain ⟨s, hcomponent, h⟩ := Fold.bind_eq_ok h
    obtain ⟨counts, hsettle, h⟩ := Fold.bind_eq_ok h
    cases h
    exact .inr ⟨s, counts, rfl, hcomponent, hsettle, rfl⟩

theorem Settled.balanceFrom {g : Graph} (hg : g.Coherent) (hf : g.Flows) {b b' : Balance}
    {seed : NodeId} (h : b.Settled g) (hseed : seed < g.nodes.length)
    (hstep : g.balanceFrom b seed = .ok b') :
    b'.Settled g ∧ b'.Known seed ∧ ∀ n, b.Known n → b'.Known n := by
  rcases cases_of_balanceFrom hstep with ⟨hknown, rfl⟩ | ⟨s, counts, hnew, hcomponent, hsettle, rfl⟩
  · exact ⟨h, hknown, fun _ ↦ id⟩
  · obtain ⟨hgrown, hmem, hexpanded⟩ :=
      Graph.component_expanded hg hf h.length_ratios hseed h.positive hnew hcomponent
    have hknown (n : NodeId) : Known ⟨s.ratios, counts⟩ n ↔ b.Known n ∨ n ∈ s.reached :=
      known_iff_of_grown hgrown n
    exact ⟨h.settle hgrown hexpanded hsettle, (hknown seed).mpr (.inr hmem),
      fun n hn ↦ (hknown n).mpr (.inl hn)⟩

end Balance

/-- Every node of the graph fires, and every edge gains in a period what it loses. -/
structure Repetitions.Balances (r : Repetitions) (g : Graph) : Prop where
  length : r.counts.length = g.nodes.length
  positive {n : NodeId} (h : n < g.nodes.length) : 0 < r.get n
  fits {n : NodeId} (h : n < g.nodes.length) : r.get n < Spread.countLimit
  balance {id : EdgeId} {e : Edge} (he : g.edges[id]? = some e) :
    e.rateAt .output * r.get e.source.node = e.rateAt .input * r.get e.target.node

theorem Balance.settled_of_foldlM {g : Graph} (hg : g.Coherent) (hf : g.Flows) {b : Balance}
    (h : (List.range g.nodes.length).foldlM g.balanceFrom (blank g) = .ok b) :
    b.Settled g ∧ ∀ n < g.nodes.length, b.Known n := by
  refine Fold.foldlM_range_induction (P := fun i b ↦ b.Settled g ∧ ∀ n < i, b.Known n)
    h ⟨settled_blank g, by simp⟩ fun i b b' hi ⟨hsettled, hknown⟩ hstep ↦ ?_
  obtain ⟨hsettled', hseed, hmono⟩ := hsettled.balanceFrom hg hf hi hstep
  refine ⟨hsettled', fun n hn ↦ ?_⟩
  rcases Nat.lt_succ_iff_lt_or_eq.mp hn with hlt | rfl
  · exact hmono n (hknown n hlt)
  · exact hseed

theorem Graph.balances_of_solve {g : Graph} (hg : g.Coherent) (hf : g.Flows) {r : Repetitions}
    (h : g.solve = .ok r) : r.Balances g := by
  obtain ⟨b, hfold, h⟩ := Fold.bind_eq_ok h
  cases h
  obtain ⟨hsettled, hknown⟩ := Balance.settled_of_foldlM hg hf hfold
  have hget {n : NodeId} (hn : n < g.nodes.length) :
      b.counts[n]? = some (Repetitions.get ⟨b.counts⟩ n) ∧ 0 < Repetitions.get ⟨b.counts⟩ n ∧
        Repetitions.get ⟨b.counts⟩ n < Spread.countLimit := by
    obtain ⟨count, hcount, hpos, hfits⟩ := hsettled.counted (hknown n hn)
    simp [Repetitions.get, hcount, hpos, hfits]
  exact
    { length := hsettled.length_counts
      positive := fun hn ↦ (hget hn).2.1
      fits := fun hn ↦ (hget hn).2.2
      balance := fun {id e} he ↦ hsettled.balanced he (hknown _ (hg.node_lt he .output))
        (hget (hg.node_lt he .output)).1 (hget (hg.node_lt he .input)).1 }

/-! ## Errors -/

/-- Two ways that contradict each other, or a number that is too large. -/
def GraphError.IsOfRates (e : GraphError) : Prop :=
  (∃ id, e = .inconsistent id) ∨ ∃ n, e = .rateOverflow n

namespace Graph

variable {g : Graph} {e : GraphError}

theorem isOfRates_of_carry {n : NodeId} {r : Ratio} {s : Spread} {id : EdgeId}
    (h : g.carry n r s id = .error e) : e.IsOfRates := by
  unfold carry at h
  split at h
  · cases h
  · split at h
    · cases h
      exact .inr ⟨_, rfl⟩
    · split at h
      · cases h
      · split at h <;> cases h
        exact .inl ⟨id, rfl⟩

theorem isOfRates_of_settle {s : Spread} {counts : List Nat} (h : s.settle counts = .error e) :
    e.IsOfRates := by
  rcases Fold.bind_eq_error h with hdenominator | ⟨d, -, h⟩
  · obtain ⟨acc, n, hstep⟩ := Fold.exists_of_foldlM_eq_error hdenominator
    split at hstep <;> cases hstep
    exact .inr ⟨n, rfl⟩
  rcases Fold.bind_eq_error h with hfactor | ⟨f, -, h⟩
  · obtain ⟨acc, n, hstep⟩ := Fold.exists_of_foldlM_eq_error hfactor
    split at hstep <;> cases hstep
    exact .inr ⟨n, rfl⟩
  · obtain ⟨acc, n, hstep⟩ := Fold.exists_of_foldlM_eq_error h
    simp only at hstep
    split at hstep <;> cases hstep
    exact .inr ⟨n, rfl⟩

theorem isOfRates_of_solve (h : g.solve = .error e) : e.IsOfRates := by
  rcases Fold.bind_eq_error h with hfold | ⟨b, -, h⟩
  · obtain ⟨b, seed, hstep⟩ := Fold.exists_of_foldlM_eq_error hfold
    unfold balanceFrom at hstep
    split at hstep
    · cases hstep
    · rcases Fold.bind_eq_error hstep with hcomponent | ⟨s, -, hstep⟩
      · obtain ⟨s, round, hround⟩ := Fold.exists_of_foldlM_eq_error hcomponent
        split at hround
        · cases hround
        · obtain ⟨s', id, hcarry⟩ := Fold.exists_of_foldlM_eq_error hround
          exact isOfRates_of_carry hcarry
      · rcases Fold.bind_eq_error hstep with hsettle | ⟨counts, -, h⟩
        · exact isOfRates_of_settle hsettle
        · cases h
  · cases h

end Graph

end Dataflow
