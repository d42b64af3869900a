import Dataflow.Proofs.Schedule.Peaks
import Mathlib.Algebra.Order.Floor.Div

/-!
# Room for other orders

When firings may be put off or reordered, an edge gets room for all that its source writes in a period,
and a margin on top. Without the margin no legal sequence of firings within a period ever lacks room.
With it the capacities are exact as long as the products that the margin is taken from are words. Beyond
that they come out cut to words and can be too small for what was asked, even where the exact capacity
would be a word.
-/

namespace Dataflow

/-! ## The room that is asked for -/

namespace Edge

variable {e : Edge} {r : Repetitions} {margin margin' : UInt32} {peak : Nat}

/-- The most tokens on the edge, in the fixed order or when its source ends the period alone. -/
def worst (e : Edge) (r : Repetitions) (peak : Nat) : Nat :=
  max peak (e.delay.toNat + r.get e.source.node * e.production.toNat)

/-- That many places and `margin` percent more, rounded up. -/
def headroom (e : Edge) (r : Repetitions) (margin : UInt32) (peak : Nat) : Nat :=
  e.worst r peak + (e.worst r peak * margin.toNat) ⌈/⌉ 100

/-- The room that is asked for is a word, and so is the product that its margin is taken from. -/
structure HeadroomFits (e : Edge) (r : Repetitions) (margin : UInt32) (peak : Nat) : Prop where
  product : e.worst r peak * margin.toNat < Word.modulus
  sum : e.headroom r margin peak < Word.modulus

theorem headroom_eq (e : Edge) (r : Repetitions) (margin : UInt32) (peak : Nat) :
    e.headroom r margin peak = e.worst r peak + (e.worst r peak * margin.toNat + 99) / 100 := rfl

theorem le_headroom (e : Edge) (r : Repetitions) (margin : UInt32) (peak : Nat) :
    peak ≤ e.headroom r margin peak :=
  calc
    peak ≤ e.worst r peak := Nat.le_max_left _ _
    _ ≤ e.headroom r margin peak := Nat.le_add_right _ _

theorem headroom_mono (h : margin ≤ margin') (e : Edge) (r : Repetitions) (peak : Nat) :
    e.headroom r margin peak ≤ e.headroom r margin' peak := by
  have hproduct : e.worst r peak * margin.toNat ≤ e.worst r peak * margin'.toNat :=
    Nat.mul_le_mul_left _ (UInt32.le_iff_toNat_le.mp h)
  rw [headroom_eq, headroom_eq]
  apply Nat.add_le_add_left
  exact Nat.div_le_div_right (Nat.add_le_add_right hproduct 99)

theorem HeadroomFits.mono (h : e.HeadroomFits r margin' peak) (hle : margin ≤ margin') :
    e.HeadroomFits r margin peak where
  product :=
    calc
      e.worst r peak * margin.toNat ≤ e.worst r peak * margin'.toNat :=
        Nat.mul_le_mul_left _ (UInt32.le_iff_toNat_le.mp hle)
      _ < Word.modulus := h.product
  sum := Nat.lt_of_le_of_lt (headroom_mono hle e r peak) h.sum

theorem headroom_zero (e : Edge) (r : Repetitions) (peak : Nat) :
    e.headroom r 0 peak = e.worst r peak := by
  rw [headroom_eq]
  simp

theorem headroomFits_zero (h : e.worst r peak < Word.modulus) : e.HeadroomFits r 0 peak where
  product := (by decide : 0 < Word.modulus)
  sum := (headroom_zero e r peak).symm ▸ h

/-- The margin in the arithmetic of words. -/
theorem HeadroomFits.withMargin_eq (h : e.HeadroomFits r margin peak) :
    Graph.withMargin (e.worst r peak) margin = e.headroom r margin peak := by
  rw [Graph.withMargin, Word.wrap_of_lt h.product, ← headroom_eq, Word.wrap_of_lt h.sum]

end Edge

namespace Graph

variable {g : Graph} {r : Repetitions} {o : SizingOptions} {order : List NodeId}

theorem capacityOf_of_asynchronous (hmode : o.mode.isAsynchronous) (e : Edge) (peak : Nat) :
    capacityOf e peak r o = o.cut (withMargin (e.worst r peak) o.margin) := by
  rw [capacityOf, if_pos hmode, SizingOptions.cut]
  cases o.limit <;> rfl

theorem capacityOf_eq_headroom (hmode : o.mode.isAsynchronous) {e : Edge} {peak : Nat}
    (h : e.HeadroomFits r o.margin peak) :
    capacityOf e peak r o = o.cut (e.headroom r o.margin peak) := by
  rw [capacityOf_of_asynchronous hmode, h.withMargin_eq]

end Graph

namespace Machine

variable {g : Graph} {r : Repetitions} {o : SizingOptions} {margin : UInt32} {e : Edge} {peak : Nat}

theorem withBurst_eq (h : e.HeadroomFits r margin peak) :
    withBurst r margin e peak = .ok (e.headroom r margin peak) := by
  have hworst : e.worst r peak ≤ e.headroom r margin peak := Nat.le_add_right _ _
  have hburst : e.delay.toNat + r.get e.source.node * e.production.toNat ≤ e.worst r peak :=
    Nat.le_max_right _ _
  have hsum := h.sum
  rw [withBurst, word_of_lt (by omega), ok_bind, word_of_lt (by omega), ok_bind]
  change (word (e.worst r peak * margin.toNat) >>= fun extra ↦
    word (e.worst r peak + (extra + 99) / 100)) = _
  rw [word_of_lt h.product, ok_bind, ← Edge.headroom_eq, word_of_lt h.sum]

/-- Where the room that is asked for does not fit, an addition or a product overflows. -/
theorem withBurst_of_not_fits (h : ¬ e.HeadroomFits r margin peak) :
    withBurst r margin e peak = stop .overflow := by
  rw [withBurst]
  by_cases hproduced : r.get e.source.node * e.production.toNat < Word.modulus
  · rw [word_of_lt hproduced, ok_bind]
    by_cases hburst : e.delay.toNat + r.get e.source.node * e.production.toNat < Word.modulus
    · rw [word_of_lt hburst, ok_bind]
      change (word (e.worst r peak * margin.toNat) >>= fun extra ↦
        word (e.worst r peak + (extra + 99) / 100)) = _
      by_cases hproduct : e.worst r peak * margin.toNat < Word.modulus
      · rw [word_of_lt hproduct, ok_bind, ← Edge.headroom_eq]
        exact word_of_le (Nat.le_of_not_lt fun hsum ↦ h ⟨hproduct, hsum⟩)
      · rw [word_of_le (Nat.le_of_not_lt hproduct)]
        rfl
    · rw [word_of_le (Nat.le_of_not_lt hburst)]
      rfl
  · rw [word_of_le (Nat.le_of_not_lt hproduced)]
    rfl

theorem capacity_eq_headroom (hmode : o.mode.isAsynchronous) (h : e.HeadroomFits r o.margin peak) :
    capacity r o e peak = .ok (Graph.capacityOf e peak r o) := by
  rw [capacity, if_pos hmode, withBurst_eq h, ok_bind, Graph.capacityOf_eq_headroom hmode h,
    SizingOptions.cut]
  cases o.limit <;> rfl

theorem capacity_of_not_fits (hmode : o.mode.isAsynchronous)
    (h : ¬ e.HeadroomFits r o.margin peak) : capacity r o e peak = stop .overflow := by
  rw [capacity, if_pos hmode, withBurst_of_not_fits h]
  rfl

theorem sizes_of_not_fits (hmode : o.mode.isAsynchronous) {peaks : List Nat}
    (hlength : peaks.length = g.edges.length)
    (h : ∃ x ∈ g.edges.zip peaks, ¬ x.1.HeadroomFits r o.margin x.2) :
    sizes g r o peaks.toArray = stop .overflow := by
  refine foldlM_stop (P := fun _ acc ↦ acc.length = g.edges.length) List.length_replicate ?_ ?_
  · rintro done ⟨e, id⟩ acc hpre hacc
    have hedge := List.mem_zipIdx_iff_getElem?.mp (mem_after hpre)
    have hid : id < g.edges.length := (List.getElem?_eq_some_iff.mp hedge).1
    have hpeak : peaks.toArray[id]? = some peaks[id] := by simp [hlength, hid]
    by_cases hfits : e.HeadroomFits r o.margin peaks[id]
    · refine .inr ⟨acc.set id (Graph.capacityOf e peaks[id] r o), ?_, by rw [List.length_set, hacc]⟩
      simp only [hpeak, found_some, ok_bind, capacity_eq_headroom hmode hfits]
      exact store_of_lt (hacc ▸ hid) _
    · left
      simp only [hpeak, found_some, ok_bind, capacity_of_not_fits hmode hfits]
      rfl
  · obtain ⟨⟨e, peak⟩, hmem, hfits⟩ := h
    obtain ⟨id, hid⟩ := List.mem_iff_getElem?.mp hmem
    obtain ⟨hedge, hpeak⟩ := List.getElem?_zip_eq_some.mp hid
    refine ⟨(e, id), List.mem_zipIdx_iff_getElem?.mpr hedge, fun acc ↦ ?_⟩
    have hfound : peaks.toArray[id]? = some peak := by rw [List.getElem?_toArray, hpeak]
    simp only [hfound, found_some, ok_bind, capacity_of_not_fits hmode hfits]
    rfl

end Machine

/-! ## Sizing with a margin -/

namespace Graph

section Sizing

variable {g : Graph} {r : Repetitions} {o : SizingOptions} {order : List NodeId} {fixed : List Nat}

/-- The room that is asked for on each edge, cut by the limit. -/
def sizesWithMargin (g : Graph) (r : Repetitions) (o : SizingOptions) (fixed : List Nat) : List Nat :=
  (g.edges.zip fixed).map fun x ↦ o.cut (x.1.headroom r o.margin x.2)

theorem sizesWithMargin_mono {margin : UInt32} (h : margin ≤ o.margin) :
    List.Forall₂ (· ≤ ·) (g.sizesWithMargin r { o with margin := margin } fixed)
      (g.sizesWithMargin r o fixed) := by
  rw [sizesWithMargin, sizesWithMargin, List.forall₂_map_left_iff, List.forall₂_map_right_iff,
    List.forall₂_same]
  exact fun x _ ↦ o.cut_mono (Edge.headroom_mono h x.1 r x.2)

theorem getElem?_sizesWithMargin {id : EdgeId} {e : Edge} {p : Nat} (he : g.edges[id]? = some e)
    (hp : fixed[id]? = some p) :
    (g.sizesWithMargin r o fixed)[id]? = some (o.cut (e.headroom r o.margin p)) := by
  have hzip : (g.edges.zip fixed)[id]? = some (e, p) := List.getElem?_zip_eq_some.mpr ⟨he, hp⟩
  rw [sizesWithMargin, List.getElem?_map, hzip, Option.map_some]

section Fixed

variable (hg : g.Coherent) (hfixed : g.capacities r order { o with mode := .static } = .ok fixed)

include hg hfixed

theorem fixed_le_sizesWithMargin : List.Forall₂ (· ≤ ·) fixed (g.sizesWithMargin r o fixed) := by
  obtain ⟨-, -, -, harePeaks, hallows⟩ := arePeaks_of_capacities hg rfl hfixed
  have hle : List.Forall₂ (· ≤ ·) ((g.edges.zip fixed).map Prod.snd)
      (g.sizesWithMargin r o fixed) := by
    rw [sizesWithMargin, List.forall₂_map_left_iff, List.forall₂_map_right_iff, List.forall₂_same]
    intro x hx
    calc
      x.2 = o.cut x.2 := (SizingOptions.Allows.cut_eq (hallows x.2 (List.of_mem_zip hx).2)).symm
      _ ≤ o.cut (x.1.headroom r o.margin x.2) := o.cut_mono (x.1.le_headroom r o.margin x.2)
  rwa [List.map_snd_zip (Nat.le_of_eq harePeaks.length)] at hle

/-- The replay that notes the peaks, when these are words. -/
theorem replayFits_of_fixed (hwords : ∀ c ∈ fixed, c < Word.modulus) :
    Machine.ReplayFits g order := by
  obtain ⟨-, hlegal, -, harePeaks, -⟩ := arePeaks_of_capacities hg rfl hfixed
  have hheights : ∀ (id : EdgeId) (e : Edge), g.edges[id]? = some e →
      ∀ x ∈ e.heights order, x ≤ fixed[id]?.getD 0 := by
    intro id e he x hx
    obtain ⟨p, hp, hisPeak⟩ := harePeaks.exists_peak he
    rw [hp, Option.getD_some]
    exact hisPeak.2 hx
  refine Machine.replayFits_of_within hg (along_iff_legal.mpr hlegal)
    (hlegal.along_within_iff.mpr hheights).2 fun id ↦ ?_
  cases hid : fixed[id]? with
  | none => decide
  | some c => exact hwords c (List.mem_of_getElem? hid)

/-- Sizing an order has one kind of error when it succeeds as a fixed order. -/
theorem capacities_ne_rateOverflow (n : NodeId) :
    g.capacities r order o ≠ .error (.rateOverflow n) := by
  intro hrate
  rcases Fold.bind_eq_error hrate with hreplay | ⟨_, -, hrate⟩
  · cases (arePeaks_of_capacities hg rfl hfixed).1.symm.trans hreplay
  · rcases Fold.bind_eq_error hrate with hverify | ⟨_, -, hrate⟩
    · obtain ⟨id, m, hne⟩ := exists_of_verify_eq_error hverify
      cases hne
    · cases hrate

section Fits

variable (hmode : o.mode.isAsynchronous)
  (hfits : ∀ x ∈ g.edges.zip fixed, x.1.HeadroomFits r o.margin x.2)

include hmode hfits

/-- The sizes with a margin, where the room that is asked for fits. -/
theorem capacities_eq_headroom :
    g.capacities r order o = .ok (g.sizesWithMargin r o fixed) := by
  obtain ⟨hpeaks, hlegal, hreturns, harePeaks, hallows⟩ := arePeaks_of_capacities hg rfl hfixed
  have hsizes : (g.edges.zip fixed).map (fun x ↦ capacityOf x.1 x.2 r o) =
      g.sizesWithMargin r o fixed :=
    List.map_congr_left fun x hx ↦ capacityOf_eq_headroom hmode (hfits x hx)
  refine capacities_eq_ok_iff.mpr ⟨fixed, hpeaks, hsizes, ?_⟩
  refine hg.verify_iff_heights.mpr ⟨hlegal, hreturns, fun id e he x hx ↦ ?_⟩
  obtain ⟨p, hp, hisPeak⟩ := harePeaks.exists_peak he
  have hroom : p ≤ o.cut (e.headroom r o.margin p) :=
    calc
      p = o.cut p := (SizingOptions.Allows.cut_eq (hallows p (List.mem_of_getElem? hp))).symm
      _ ≤ o.cut (e.headroom r o.margin p) := o.cut_mono (e.le_headroom r o.margin p)
  rw [Levels.of_toArray, getElem?_sizesWithMargin he hp, Option.getD_some]
  exact (hisPeak.2 hx).trans (Int.ofNat_le.mpr hroom)

/-- In words, sizing with a margin does the same as long as everything fits. -/
theorem machine_capacities_eq_headroom (horder : ∀ n ∈ order, n < g.nodes.length) :
    Machine.capacities g r order o = .ok (g.sizesWithMargin r o fixed) := by
  obtain ⟨hpeaks, -, -, harePeaks, -⟩ := arePeaks_of_capacities hg rfl hfixed
  have hwords : ∀ c ∈ fixed, c < Word.modulus := by
    intro c hc
    obtain ⟨id, e, he, hp, -⟩ := harePeaks.exists_edge hc
    have hzip : (g.edges.zip fixed)[id]? = some (e, c) := List.getElem?_zip_eq_some.mpr ⟨he, hp⟩
    calc
      c ≤ e.headroom r o.margin c := e.le_headroom r o.margin c
      _ < Word.modulus := (hfits _ (List.mem_of_getElem? hzip)).sum
  have hcapacities := capacities_eq_headroom hg hfixed hmode hfits
  have hmachine : Machine.capacities g r order o = Machine.of (g.capacities r order o) := by
    refine Machine.capacities_eq hg horder (replayFits_of_fixed hg hfixed hwords) fun peaks h x hx ↦ ?_
    cases Except.ok.inj (hpeaks.symm.trans h)
    refine ⟨Machine.capacity_eq_headroom hmode (hfits x hx), ?_⟩
    calc
      capacityOf x.1 x.2 r o = o.cut (x.1.headroom r o.margin x.2) :=
        capacityOf_eq_headroom hmode (hfits x hx)
      _ ≤ x.1.headroom r o.margin x.2 := o.cut_le _
      _ < Word.modulus := (hfits x hx).sum
  rw [hmachine, hcapacities, Machine.of_ok]

end Fits

/-- In words, sizing comes to a fault when something does not fit. -/
theorem machine_capacities_of_not_fits (hmode : o.mode.isAsynchronous)
    (horder : ∀ n ∈ order, n < g.nodes.length) (hwords : ∀ c ∈ fixed, c < Word.modulus)
    (h : ∃ x ∈ g.edges.zip fixed, ¬ x.1.HeadroomFits r o.margin x.2) :
    Machine.capacities g r order o = Machine.stop .overflow := by
  obtain ⟨hpeaks, -, -, harePeaks, -⟩ := arePeaks_of_capacities hg rfl hfixed
  have hreplay := Machine.peaks_eq hg horder (replayFits_of_fixed hg hfixed hwords)
  rw [Machine.capacities, hreplay, hpeaks]
  change (Machine.sizes g r o fixed.toArray >>= fun capacities ↦ _) = _
  rw [Machine.sizes_of_not_fits hmode harePeaks.length h]
  rfl

end Fixed

/-- Where sizing a fixed order succeeds, sizing the same order with a margin succeeds too, with exactly
the room that is asked for, cut by the limit, as long as on each edge this room and the product that its
margin is taken from are words. No size is then less than in the fixed order or with a smaller margin.
If something does not fit, an operation on words overflows; that a rate is too large is never said. -/
theorem capacities_with_headroom (hg : g.Built) (horder : ∀ n ∈ order, n < g.nodes.length)
    (hmode : o.mode.isAsynchronous)
    (hfixed : g.capacities r order { o with mode := .static } = .ok fixed) :
    ((∀ e ∈ g.edges, ∀ p, e.IsPeak order p → e.HeadroomFits r o.margin p) →
      ∃ capacities, g.capacities r order o = .ok capacities ∧
        Machine.capacities g r order o = .ok capacities ∧
        capacities.length = g.edges.length ∧
        (∀ (id : EdgeId) (e : Edge), g.edges[id]? = some e → ∃ p, e.IsPeak order p ∧
          fixed[id]? = some p ∧ capacities[id]? = some (o.cut (e.headroom r o.margin p))) ∧
        List.Forall₂ (· ≤ ·) fixed capacities ∧
        ∀ margin ≤ o.margin, ∃ lower,
          g.capacities r order { o with margin := margin } = .ok lower ∧
          Machine.capacities g r order { o with margin := margin } = .ok lower ∧
          List.Forall₂ (· ≤ ·) lower capacities) ∧
      ((∀ c ∈ fixed, c < Word.modulus) →
        (∃ e ∈ g.edges, ∃ p, e.IsPeak order p ∧ ¬ e.HeadroomFits r o.margin p) →
          Machine.capacities g r order o = Machine.stop .overflow) ∧
      ∀ n, g.capacities r order o ≠ .error (.rateOverflow n) := by
  have hcoherent := hg.coherent
  obtain ⟨-, -, -, harePeaks, -⟩ := arePeaks_of_capacities hcoherent rfl hfixed
  refine ⟨fun hall ↦ ?_, fun hwords ⟨e, he, p, hp, hnot⟩ ↦ ?_,
    capacities_ne_rateOverflow hcoherent hfixed⟩
  · have hfits (margin : UInt32) (hle : margin ≤ o.margin) :
        ∀ x ∈ g.edges.zip fixed, x.1.HeadroomFits r margin x.2 := by
      intro x hx
      obtain ⟨id, hid⟩ := List.mem_iff_getElem?.mp hx
      obtain ⟨he, hp⟩ := List.getElem?_zip_eq_some.mp hid
      exact (hall x.1 (List.mem_of_getElem? he) x.2 (harePeaks.isPeak he hp)).mono hle
    have hsized (margin : UInt32) (hle : margin ≤ o.margin) :
        g.capacities r order { o with margin := margin } =
            .ok (g.sizesWithMargin r { o with margin := margin } fixed) ∧
          Machine.capacities g r order { o with margin := margin } =
            .ok (g.sizesWithMargin r { o with margin := margin } fixed) :=
      ⟨capacities_eq_headroom (o := { o with margin := margin }) hcoherent hfixed hmode
        (hfits margin hle), machine_capacities_eq_headroom (o := { o with margin := margin })
        hcoherent hfixed hmode (hfits margin hle) horder⟩
    obtain ⟨hcapacities, hmachine⟩ := hsized o.margin (UInt32.le_refl o.margin)
    refine ⟨g.sizesWithMargin r o fixed, hcapacities, hmachine,
      by simp [sizesWithMargin, harePeaks.length], fun id e he ↦ ?_,
      fixed_le_sizesWithMargin hcoherent hfixed, fun margin hle ↦ ?_⟩
    · obtain ⟨p, hp, hisPeak⟩ := harePeaks.exists_peak he
      exact ⟨p, hisPeak, hp, getElem?_sizesWithMargin he hp⟩
    · obtain ⟨hlower, hlowerMachine⟩ := hsized margin hle
      exact ⟨_, hlower, hlowerMachine, sizesWithMargin_mono hle⟩
  · obtain ⟨id, hid⟩ := List.mem_iff_getElem?.mp he
    obtain ⟨q, hq, hisPeak⟩ := harePeaks.exists_peak hid
    have hsame : p = q := Int.ofNat_inj.mp (hp.unique hisPeak)
    have hzip : (g.edges.zip fixed)[id]? = some (e, q) := List.getElem?_zip_eq_some.mpr ⟨hid, hq⟩
    exact machine_capacities_of_not_fits hcoherent hfixed hmode horder hwords
      ⟨_, List.mem_of_getElem? hzip, hsame ▸ hnot⟩

end Sizing

end Graph

namespace Wide

def octet : ElementType := ⟨"u8", 1⟩

/-- Two nodes that pass as much as a rate can tell. -/
def graph (delay : UInt32) : Graph where
  nodes :=
    [⟨"p", 0, [], [⟨⟨octet, 4294967295⟩, some 0⟩]⟩,
      ⟨"c", 1, [⟨⟨octet, 4294967295⟩, some 0⟩], []⟩]
  edges := [⟨.out 0 0, .into 1 0, delay, octet, 4294967295, 4294967295⟩]

theorem built_graph (delay : UInt32) : (graph delay).Built := by
  have hnodes := Graph.Built.empty.addNode ⟨"p", none, [], [⟨octet, 4294967295⟩]⟩
    |>.addNode ⟨"c", none, [⟨octet, 4294967295⟩], []⟩
  exact hnodes.connect (rfl : Graph.connect _ (.out 0 0) (.into 1 0) delay = .ok (0, graph delay))

/-- Its peak is its size in the fixed order. -/
theorem isPeak_iff {delay margin : UInt32} {size : Nat}
    (h : (graph delay).capacities ⟨[1, 1]⟩ [0, 1] ⟨.static, margin, none⟩ = .ok [size])
    {e : Edge} (he : e ∈ (graph delay).edges) {p : Nat} : e.IsPeak [0, 1] p ↔ p = size := by
  cases List.mem_singleton.mp he
  obtain ⟨-, -, -, harePeaks, -⟩ := Graph.arePeaks_of_capacities (built_graph delay).coherent rfl h
  have hisPeak := harePeaks.isPeak (rfl : (graph delay).edges[0]? = some _) rfl
  exact ⟨fun hp ↦ Int.ofNat_inj.mp (hp.unique hisPeak), fun hp ↦ hp ▸ hisPeak⟩

theorem capacities_two : (graph 2).capacities ⟨[1, 1]⟩ [0, 1] ⟨.static, 4294967295, none⟩ =
    .ok [4294967297] := by decide +kernel

theorem capacities_three : (graph 3).capacities ⟨[1, 1]⟩ [0, 1] ⟨.static, 4294967295, none⟩ =
    .ok [4294967298] := by decide +kernel

end Wide

namespace Graph

/-- The largest margin of all where the product just is a word. One more token, and it is none. -/
theorem headroom_wide :
    (∃ capacities, Machine.capacities (Wide.graph 2) ⟨[1, 1]⟩ [0, 1]
        ⟨.asynchronous, 4294967295, none⟩ = .ok capacities ∧
      capacities[0]? = some 184467445032062814 ∧ List.Forall₂ (· ≤ ·) [4294967297] capacities) ∧
    Machine.capacities (Wide.graph 3) ⟨[1, 1]⟩ [0, 1] ⟨.asynchronous, 4294967295, none⟩ =
      Machine.stop .overflow := by
  obtain ⟨hfits, -⟩ := capacities_with_headroom (o := ⟨.asynchronous, 4294967295, none⟩)
    (Wide.built_graph 2) (by decide) rfl Wide.capacities_two
  obtain ⟨-, hwraps, -⟩ := capacities_with_headroom (o := ⟨.asynchronous, 4294967295, none⟩)
    (Wide.built_graph 3) (by decide) rfl Wide.capacities_three
  refine ⟨?_, hwraps (by decide) ⟨_, List.mem_cons_self, 4294967298, ?_, ?_⟩⟩
  · obtain ⟨capacities, -, hmachine, -, hexact, hle, -⟩ := hfits fun e he p hp ↦ by
      cases (Wide.isPeak_iff Wide.capacities_two he).mp hp
      cases List.mem_singleton.mp he
      exact ⟨by decide +kernel, by decide +kernel⟩
    obtain ⟨p, -, hp, hcapacity⟩ := hexact 0 _ rfl
    cases Option.some.inj hp
    exact ⟨capacities, hmachine, hcapacity, hle⟩
  · exact (Wide.isPeak_iff Wide.capacities_three List.mem_cons_self).mpr rfl
  · exact fun hfits ↦ absurd hfits.product (by decide +kernel)

/-- With that one token more the room that is asked for still is a word, but hardly anything of its margin
is left once the product is cut to one, and the next smaller margin gives far more. -/
theorem headroom_cut_to_words :
    (Wide.graph 3).capacities ⟨[1, 1]⟩ [0, 1] ⟨.static, 4294967295, none⟩ = .ok [4294967298] ∧
      (∀ e ∈ (Wide.graph 3).edges,
        e.headroom ⟨[1, 1]⟩ 4294967295 4294967298 = 184467445075012488) ∧
      184467445075012488 < Word.modulus ∧
      (Wide.graph 3).capacities ⟨[1, 1]⟩ [0, 1] ⟨.asynchronous, 4294967295, none⟩ =
        .ok [4337916971] ∧
      (Wide.graph 3).capacities ⟨[1, 1]⟩ [0, 1] ⟨.asynchronous, 4294967294, none⟩ =
        .ok [184467445032062815] :=
  ⟨Wide.capacities_three, by decide +kernel, by decide, by decide +kernel, by decide +kernel⟩

/-! ## Any order within a period -/

section Interleaving

variable {g : Graph} {o : CompileOptions} {p : Plan} {w : List NodeId}

theorem supply_of_getElem? {r : Repetitions} {id : EdgeId} {e : Edge} (he : g.edges[id]? = some e) :
    g.supply r id = e.delay.toNat + r.get e.source.node * e.production.toNat := by
  simp [supply, he, Edge.rateAt, Nat.mul_comm]

/-- Without a margin and a limit each edge has room for all that is written to it in a period. -/
theorem supply_le_room (hg : g.Coherent) (h : g.compile o = .ok p) (hmode : o.mode.isAsynchronous)
    (hmargin : o.margin = 0) (hlimit : o.capacityLimit = none) (id : EdgeId) :
    g.supply p.repetitions id ≤ p.room id := by
  obtain ⟨hsound, -⟩ := sound_of_compile hg h
  obtain ⟨-, -, -, hcapacities, rfl, -⟩ := exists_of_compile h
  cases he : p.graph.edges[id]? with
  | none => simp [supply, he]
  | some e =>
    obtain ⟨peaks, hpeaks, hsizes, -⟩ := capacities_eq_ok_iff.mp hcapacities
    obtain ⟨hlength, hwritten⟩ := peaks_le_written hg hpeaks
    have hid : id < peaks.length := hlength ▸ (List.getElem?_eq_some_iff.mp he).1
    have hpeak := List.getElem?_eq_getElem hid
    have hworst : e.worst p.repetitions peaks[id] = p.graph.supply p.repetitions id := by
      have hle := (hwritten id).trans (written_le_supply (fun n ↦ (hsound.period.count n).le) id)
      rw [hpeak, Option.getD_some, supply_of_getElem? he] at hle
      rw [Edge.worst, supply_of_getElem? he, Nat.max_eq_right hle]
    have hfits : e.HeadroomFits p.repetitions o.margin peaks[id] :=
      hmargin ▸ Edge.headroomFits_zero (hworst ▸ supply_lt_modulus hg hsound.balances id)
    have hcapacity := getElem?_map_capacityOf (r := p.repetitions) (o := o.sizing) he hpeak
    rw [hsizes] at hcapacity
    apply Nat.le_of_eq
    calc
      p.graph.supply p.repetitions id = e.headroom p.repetitions o.margin peaks[id] := by
        rw [hmargin, Edge.headroom_zero, hworst]
      _ = o.sizing.cut (e.headroom p.repetitions o.margin peaks[id]) :=
        (SizingOptions.allows_of_limit_eq_none hlimit _).cut_eq.symm
      _ = capacityOf e peaks[id] p.repetitions o.sizing := (capacityOf_eq_headroom hmode hfits).symm
      _ = p.room id := by rw [Plan.room, Plan.capacity?, hcapacity, Option.getD_some]

/-- In a plan for firings that are put off or reordered, without a margin and a limit, room is never what
a node lacks: whatever order the nodes fire in, as long as none goes beyond its count and each finds its
tokens, each also finds the room for what it writes before anything is taken, and its guard is
satisfied. -/
theorem compile_room_in_any_order (hg : g.Built) (h : g.compile o = .ok p)
    (hmode : o.mode.isAsynchronous) (hmargin : o.margin = 0) (hlimit : o.capacityLimit = none)
    (hcount : ∀ n, w.count n ≤ p.repetitions.get n) (hlegal : g.Legal w) :
    (∀ u n v, w = u ++ n :: v → ∀ (id : EdgeId) (e : Edge), g.edges[id]? = some e →
        e.source.node = n → e.tokens u + e.production.toNat ≤ p.room id) ∧
      Steps.Along (g.Ready p.room) g.after w g.delay := by
  have hcoherent := hg.coherent
  have hroom := supply_le_room hcoherent h hmode hmargin hlimit
  have hwithin : Steps.Along (g.Within p.room) g.after w g.delay :=
    (g.along_within_written w).mono fun n level hwithin id ↦
      (hwithin id).trans ((written_le_supply hcount id).trans (hroom id))
  have hdelay (id : EdgeId) : g.delay id ≤ p.room id := (g.delay_le_supply _ id).trans (hroom id)
  refine ⟨fun u n v hw id e he hn ↦ ?_, ?_⟩
  · have hheight := hlegal.along_within_iff.mp ⟨hdelay, hwithin⟩ id e he
    exact hheight _ (.inr ⟨u, v, hn ▸ hw, rfl⟩)
  · obtain ⟨hsound, -⟩ := sound_of_compile hcoherent h
    obtain ⟨-, -, -, -, hgraph, -⟩ := exists_of_compile h
    have hguarded := (hcoherent.along_guarded_iff hdelay).mpr ⟨along_iff_legal.mpr hlegal, hwithin⟩
    refine hguarded.and_mem.mono fun n level ⟨hn, hready⟩ ↦ ⟨?_, hready⟩
    have hfires : 0 < p.repetitions.get n :=
      Nat.lt_of_lt_of_le (List.count_pos_iff.mpr hn) (hcount n)
    rw [← hgraph, ← hsound.balances.length]
    exact Repetitions.lt_of_get_pos hfires

/-- The source fires again only after its sink has taken twice, which is not the order that the
capacities are taken from. -/
theorem room_looped_in_turn :
    Looped.graph.compile ⟨.fullyAsynchronous, 0, none, 100⟩ =
        .ok (Looped.plan .fullyAsynchronous [7, 3]) ∧
      [0, 1, 1, 0, 1] ≠ (Looped.plan .fullyAsynchronous [7, 3]).order ∧
      Steps.Along (Looped.graph.Ready (Looped.plan .fullyAsynchronous [7, 3]).room) Looped.graph.after
        [0, 1, 1, 0, 1] Looped.graph.delay := by
  have hcompile : Looped.graph.compile ⟨.fullyAsynchronous, 0, none, 100⟩ =
      .ok (Looped.plan .fullyAsynchronous [7, 3]) := by decide +kernel
  have hsized : Looped.graph.capacities ⟨[2, 3]⟩ [0, 1, 1, 0, 1] ⟨.static, 0, none⟩ = .ok [4, 2] := by
    decide +kernel
  have hlegal := (arePeaks_of_capacities Looped.built_graph.coherent rfl hsized).2.1
  have hcount (n : NodeId) :
      [0, 1, 1, 0, 1].count n ≤ (Looped.plan .fullyAsynchronous [7, 3]).repetitions.get n := by
    rcases n with _ | _ | n
    · decide
    · decide
    · exact (List.count_eq_zero.mpr (by simp)).trans_le (Nat.zero_le _)
  exact ⟨hcompile, by decide,
    (compile_room_in_any_order Looped.built_graph hcompile rfl rfl rfl hcount hlegal).2⟩

end Interleaving

end Graph

end Dataflow
