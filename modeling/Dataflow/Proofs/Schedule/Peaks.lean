import Dataflow.Proofs.Machine.Plan
import Dataflow.Proofs.Schedule.Search

/-!
# Capacities that are just large enough

An order that finds its tokens brings each edge to a number of heights: its initial tokens, and what is
there with each firing of its source before anything is taken. The highest of them is what the first
replay notes, and it is the least capacity that the second replay lets pass. So the sizing of a fixed
order fails only where no capacity within the limit would do.
-/

namespace Dataflow

/-! ## Heights of an edge -/

namespace Edge

variable {e : Edge} {u v w : List NodeId}

/-- The tokens that are on the edge at first, and with each firing of its source in `w` those that are
there before and those that it writes. -/
def heights (e : Edge) (w : List NodeId) : Set Int :=
  {x | x = e.delay.toNat ∨
    ∃ u v, w = u ++ e.source.node :: v ∧ x = e.tokens u + e.production.toNat}

/-- The highest of the heights. -/
def IsPeak (e : Edge) (w : List NodeId) (p : Nat) : Prop := IsGreatest (e.heights w) p

theorem delay_mem_heights (e : Edge) (w : List NodeId) : (e.delay.toNat : Int) ∈ e.heights w :=
  .inl rfl

theorem tokens_nil (e : Edge) : e.tokens [] = e.delay.toNat := by simp [tokens]

theorem tokens_concat (e : Edge) (w : List NodeId) (n : NodeId) :
    e.tokens (w ++ [n]) = e.tokens w + e.moved .output n - e.moved .input n := by
  simp only [tokens, moved, portAt, rateAt, List.count_append, List.count_singleton, beq_iff_eq,
    eq_comm (a := n)]
  by_cases hs : e.source.node = n <;> by_cases ht : e.target.node = n <;>
    simp only [hs, ht, if_true, if_false] <;> grind

/-- What is above all heights is above all that is ever on the edge. -/
theorem tokens_le_of_heights {b : Int} (hb : b ∈ upperBounds (e.heights w)) (hw : w = u ++ v) :
    e.tokens u ≤ b := by
  induction u using List.reverseRecOn generalizing v with
  | nil =>
    rw [tokens_nil]
    exact hb (e.delay_mem_heights w)
  | append_singleton u n ih =>
    have hsplit : w = u ++ n :: v := by simp [hw]
    have hbefore := ih hsplit
    have htaken : (0 : Int) ≤ e.moved .input n := Int.natCast_nonneg _
    rw [tokens_concat]
    by_cases hn : e.source.node = n
    · have hheight := hb (.inr ⟨u, v, hn ▸ hsplit, rfl⟩)
      have hwritten : e.moved .output n = e.production.toNat := if_pos hn
      omega
    · have hwritten : e.moved .output n = 0 := if_neg hn
      omega

/-- A bound that cannot be lowered is one of the heights. -/
theorem isPeak_of_forall_le {p : Nat} (hp : ∀ x ∈ e.heights w, x ≤ p)
    (hleast : ∀ q : Nat, (∀ x ∈ e.heights w, x ≤ q) → p ≤ q) : e.IsPeak w p := by
  refine ⟨?_, hp⟩
  by_contra hnone
  have hbelow : ∀ x ∈ e.heights w, x < p := fun x hx ↦
    lt_of_le_of_ne (hp x hx) fun heq ↦ hnone (heq ▸ hx)
  have hpos := hbelow _ (e.delay_mem_heights w)
  have hlower : p ≤ p - 1 := hleast (p - 1) fun x hx ↦ by
    have hlt := hbelow x hx
    omega
  omega

end Edge

namespace Graph

variable {g : Graph} {n : NodeId} {w order : List NodeId} {level capacity bound : Levels}

/-- Every edge is back at its initial tokens. -/
def Returns (g : Graph) (w : List NodeId) : Prop := ∀ e ∈ g.edges, e.tokens w = e.delay.toNat

theorem Legal.run_eq_tokens (h : g.Legal w) {id : EdgeId} {e : Edge} (he : g.edges[id]? = some e) :
    (Steps.run g.after w g.delay id : Int) = e.tokens w := by
  have htokens := run_after_add (along_iff_legal.mpr h) he
  rw [delay_of_getElem? he] at htokens
  simp only [Edge.rateAt, Edge.tokens] at htokens ⊢
  omega

theorem Legal.run_eq_delay_iff (h : g.Legal w) :
    Steps.run g.after w g.delay = g.delay ↔ g.Returns w := by
  constructor
  · intro hrun e hmem
    obtain ⟨id, he⟩ := List.mem_iff_getElem?.mp hmem
    rw [← h.run_eq_tokens he, hrun, delay_of_getElem? he]
  · intro hreturns
    funext id
    cases he : g.edges[id]? with
    | none => exact run_after_of_length_le (List.getElem?_eq_none_iff.mp he)
    | some e =>
      apply Int.ofNat_inj.mp
      rw [h.run_eq_tokens he, hreturns e (List.mem_of_getElem? he), delay_of_getElem? he]

theorem Legal.of_append {u v : List NodeId} (h : g.Legal (u ++ v)) : g.Legal u :=
  fun u' n v' hu ↦ h u' n (v' ++ v) (by simp [hu])

/-- To stay within a bound is to have all heights below it. -/
theorem Legal.along_within_iff (h : g.Legal w) :
    ((∀ id, g.delay id ≤ bound id) ∧ Steps.Along (g.Within bound) g.after w g.delay) ↔
      ∀ (id : EdgeId) (e : Edge), g.edges[id]? = some e → ∀ x ∈ e.heights w, x ≤ bound id := by
  constructor
  · rintro ⟨hdelay, hwithin⟩ id e he x (rfl | ⟨u, v, rfl, rfl⟩)
    · rw [← delay_of_getElem? he]
      exact Int.ofNat_le.mpr (hdelay id)
    · have hfiring := (Steps.along_append.mp hwithin).2.1 id
      rw [moved_of_getElem? he, Edge.moved, Edge.portAt, if_pos rfl] at hfiring
      rw [← h.of_append.run_eq_tokens he]
      exact Int.ofNat_le.mpr hfiring
  · intro hheights
    refine ⟨fun id ↦ ?_, Steps.along_of_forall_split fun u n v hw id ↦ ?_⟩
    · cases he : g.edges[id]? with
      | none =>
        rw [delay_of_length_le (List.getElem?_eq_none_iff.mp he)]
        exact Nat.zero_le _
      | some e =>
        rw [delay_of_getElem? he]
        exact Int.ofNat_le.mp (hheights id e he _ (e.delay_mem_heights w))
    · cases he : g.edges[id]? with
      | none =>
        have hid : g.edges.length ≤ id := List.getElem?_eq_none_iff.mp he
        rw [run_after_of_length_le hid, moved_eq_zero_of_length_le hid, delay_of_length_le hid]
        exact Nat.zero_le _
      | some e =>
        have hrun := Legal.run_eq_tokens (hw ▸ h : g.Legal (u ++ n :: v)).of_append he
        have htokens := Edge.tokens_le_of_heights (fun x hx ↦ hheights id e he x hx) hw
        rw [moved_of_getElem? he, Edge.moved, Edge.portAt]
        by_cases hn : e.source.node = n
        · have hheight := hheights id e he _ (.inr ⟨u, v, hn ▸ hw, rfl⟩)
          rw [if_pos hn, Edge.rateAt]
          omega
        · rw [if_neg hn]
          omega

/-! ## The two replays -/

/-- With nothing above its capacity, a guard asks for the tokens and that the firing stays within the
capacities. -/
theorem Coherent.guarded_iff_within (hg : g.Coherent) (hle : ∀ id, level id ≤ capacity id) :
    g.Guarded capacity n level ↔ g.Fed n level ∧ g.Within capacity n level := by
  rw [hg.guarded_iff]
  refine and_congr_right fun _ ↦ forall_congr' fun id ↦ ?_
  have hroom := hle id
  omega

theorem Within.after_le (h : g.Within capacity n level) (id : EdgeId) :
    g.after n level id ≤ capacity id := (Nat.sub_le _ _).trans (h id)

theorem Coherent.along_guarded_iff (hg : g.Coherent) (hle : ∀ id, level id ≤ capacity id) :
    Steps.Along (g.Guarded capacity) g.after w level ↔
      Steps.Along g.Fed g.after w level ∧ Steps.Along (g.Within capacity) g.after w level := by
  induction w generalizing level with
  | nil => simp
  | cons n w ih =>
    simp only [Steps.along_cons]
    rw [hg.guarded_iff_within hle]
    constructor
    · rintro ⟨⟨hfed, hwithin⟩, hrest⟩
      obtain ⟨hfeds, hwithins⟩ := (ih hwithin.after_le).mp hrest
      exact ⟨⟨hfed, hfeds⟩, hwithin, hwithins⟩
    · rintro ⟨⟨hfed, hfeds⟩, hwithin, hwithins⟩
      exact ⟨⟨hfed, hwithin⟩, (ih hwithin.after_le).mpr ⟨hfeds, hwithins⟩⟩

/-- The replay against capacities passes the orders that find their tokens and come back, with all
heights within the capacities. -/
theorem Coherent.verify_iff_heights (hg : g.Coherent) {capacities : Array Nat} :
    g.verify (g.guardsOf order) capacities = .ok () ↔ g.Legal order ∧ g.Returns order ∧
      ∀ (id : EdgeId) (e : Edge), g.edges[id]? = some e →
        ∀ x ∈ e.heights order, x ≤ Levels.of capacities id := by
  rw [hg.verify_eq_ok_iff]
  constructor
  · rintro ⟨hdelay, hguarded, hback⟩
    obtain ⟨hfed, hwithin⟩ := (hg.along_guarded_iff hdelay).mp hguarded
    have hlegal := along_iff_legal.mp hfed
    exact ⟨hlegal, hlegal.run_eq_delay_iff.mp hback, hlegal.along_within_iff.mp ⟨hdelay, hwithin⟩⟩
  · rintro ⟨hlegal, hreturns, hheights⟩
    obtain ⟨hdelay, hwithin⟩ := hlegal.along_within_iff.mpr hheights
    refine ⟨hdelay, (hg.along_guarded_iff hdelay).mpr ⟨along_iff_legal.mpr hlegal, hwithin⟩, ?_⟩
    exact hlegal.run_eq_delay_iff.mpr hreturns

/-- The replay has one kind of error. -/
theorem exists_of_verify_eq_error {firings : List Guard} {capacities : Array Nat} {error : GraphError}
    (h : g.verify firings capacities = .error error) : ∃ id n, error = .unsatisfiable id n := by
  have hreject {p : EdgeId → Edge → Bool} (hp : g.rejectEdge p = .error error) :
      ∃ id n, error = .unsatisfiable id n := by
    unfold rejectEdge at hp
    split at hp <;> cases hp
    exact ⟨_, _, rfl⟩
  rcases Fold.bind_eq_error h with hroom | ⟨_, -, h⟩
  · exact hreject hroom
  · rcases Fold.bind_eq_error h with hreplay | ⟨_, -, hback⟩
    · obtain ⟨level, d, hfire⟩ := Fold.exists_of_foldlM_eq_error hreplay
      unfold fireWithin at hfire
      split at hfire
      · cases hfire
        exact ⟨_, _, rfl⟩
      · split at hfire <;> cases hfire
        exact ⟨_, _, rfl⟩
    · exact hreject hback

/-- Capacities that leave less room than the peak of some edge do not pass. -/
theorem exists_error_of_lt_peak (hg : g.Coherent) {smaller : Array Nat} {id : EdgeId} {e : Edge}
    (he : g.edges[id]? = some e) {p : Nat} (hp : e.IsPeak order p)
    (hless : Levels.of smaller id < p) :
    ∃ id n, g.verify (g.guardsOf order) smaller = .error (.unsatisfiable id n) := by
  cases hverify : g.verify (g.guardsOf order) smaller with
  | error error =>
    obtain ⟨i, n, rfl⟩ := exists_of_verify_eq_error hverify
    exact ⟨i, n, rfl⟩
  | ok _ =>
    have hroom := (hg.verify_iff_heights.mp hverify).2.2 id e he p hp.1
    rw [Int.ofNat_le] at hroom
    exact absurd hroom (Nat.not_le.mpr hless)

/-- Each edge has its peak in the list. -/
structure ArePeaks (g : Graph) (order : List NodeId) (peaks : List Nat) : Prop where
  length : peaks.length = g.edges.length
  isPeak {id : EdgeId} {e : Edge} {p : Nat} :
    g.edges[id]? = some e → peaks[id]? = some p → e.IsPeak order p

theorem ArePeaks.exists_peak {peaks : List Nat} (h : g.ArePeaks order peaks) {id : EdgeId} {e : Edge}
    (he : g.edges[id]? = some e) : ∃ p, peaks[id]? = some p ∧ e.IsPeak order p := by
  have hid : id < peaks.length := h.length ▸ (List.getElem?_eq_some_iff.mp he).1
  have hp := List.getElem?_eq_getElem hid
  exact ⟨peaks[id], hp, h.isPeak he hp⟩

theorem ArePeaks.exists_edge {peaks : List Nat} (h : g.ArePeaks order peaks) {p : Nat}
    (hp : p ∈ peaks) : ∃ (id : EdgeId) (e : Edge),
      g.edges[id]? = some e ∧ peaks[id]? = some p ∧ e.IsPeak order p := by
  obtain ⟨id, hid⟩ := List.mem_iff_getElem?.mp hp
  have hlt : id < g.edges.length := h.length ▸ (List.getElem?_eq_some_iff.mp hid).1
  have he := List.getElem?_eq_getElem hlt
  exact ⟨id, g.edges[id], he, hid, h.isPeak he hid⟩

/-- The replay without capacities notes the highest of the heights. -/
theorem Legal.exists_peaks (hg : g.Coherent) (h : g.Legal order) :
    ∃ peaks, g.peaks (g.guardsOf order) = .ok peaks ∧ g.ArePeaks order peaks := by
  obtain ⟨peaks, hpeaks, hlength, hbound⟩ := Graph.exists_peaks hg (along_iff_legal.mpr h)
  have hheights (bound : Levels) := (hbound bound).trans h.along_within_iff
  refine ⟨peaks, hpeaks, hlength, fun {id e p} he hp ↦ ?_⟩
  have hat : peaks[id]?.getD 0 = p := by rw [hp, Option.getD_some]
  have hpeak := (hheights fun id ↦ peaks[id]?.getD 0).mp fun _ ↦ Nat.le_refl _
  refine Edge.isPeak_of_forall_le (hat ▸ hpeak id e he) fun q hq ↦ ?_
  -- The bound is lowered on this edge alone.
  have hlower := (hheights (Function.update (fun id ↦ peaks[id]?.getD 0) id q)).mpr fun i e' he' ↦ by
    by_cases hi : i = id
    · subst hi
      cases Option.some.inj (he.symm.trans he')
      simpa using hq
    · simpa [hi] using hpeak i e' he'
  simpa [hat] using hlower id

/-! ## The sizing of a fixed order -/

section Sizing

variable {r : Repetitions} {o : SizingOptions} {capacities : List Nat}

/-- The sizes of a fixed order are the peaks, and the limit allows them. -/
theorem arePeaks_of_capacities (hg : g.Coherent) (hmode : o.mode = .static)
    (h : g.capacities r order o = .ok capacities) :
    g.peaks (g.guardsOf order) = .ok capacities ∧ g.Legal order ∧ g.Returns order ∧
      g.ArePeaks order capacities ∧ ∀ c ∈ capacities, o.Allows c := by
  obtain ⟨peaks, hpeaks, rfl, hverify⟩ := capacities_eq_ok_iff.mp h
  obtain ⟨hlegal, hreturns, hheights⟩ := hg.verify_iff_heights.mp hverify
  obtain ⟨peaks', hpeaks', harePeaks⟩ := hlegal.exists_peaks hg
  cases Except.ok.inj (hpeaks.symm.trans hpeaks')
  have hallows : ∀ peak ∈ peaks, o.Allows peak := by
    intro peak hmem
    obtain ⟨id, e, he, hp, hisPeak⟩ := harePeaks.exists_edge hmem
    have hroom := hheights id e he peak hisPeak.1
    rw [Levels.of_toArray, getElem?_map_capacityOf he hp, Option.getD_some,
      capacityOf_static hmode, Int.ofNat_le] at hroom
    have hcut : o.cut peak = peak := Nat.le_antisymm (o.cut_le peak) hroom
    exact hcut ▸ o.allows_cut peak
  rw [map_capacityOf_static hmode harePeaks.length hallows]
  exact ⟨hpeaks, hlegal, hreturns, harePeaks, hallows⟩

theorem exists_capacities_of_peaks (hg : g.Coherent) (hmode : o.mode = .static)
    (hlegal : g.Legal order) (hreturns : g.Returns order)
    (hlimit : ∀ e ∈ g.edges, ∃ p, e.IsPeak order p ∧ o.Allows p) :
    ∃ capacities, g.capacities r order o = .ok capacities := by
  obtain ⟨peaks, hpeaks, harePeaks⟩ := hlegal.exists_peaks hg
  have hallows : ∀ peak ∈ peaks, o.Allows peak := by
    intro peak hmem
    obtain ⟨id, e, he, -, hisPeak⟩ := harePeaks.exists_edge hmem
    obtain ⟨p, hp, hallows⟩ := hlimit e (List.mem_of_getElem? he)
    have hsame : peak = p := Int.ofNat_inj.mp (hisPeak.unique hp)
    exact hsame ▸ hallows
  have hsizes := map_capacityOf_static (r := r) hmode harePeaks.length hallows
  refine ⟨peaks, capacities_eq_ok_iff.mpr ⟨peaks, hpeaks, hsizes, ?_⟩⟩
  refine hg.verify_iff_heights.mpr ⟨hlegal, hreturns, fun id e he x hx ↦ ?_⟩
  obtain ⟨p, hp, hisPeak⟩ := harePeaks.exists_peak he
  rw [Levels.of_toArray, hp, Option.getD_some]
  exact hisPeak.2 hx

theorem written_lt_modulus {id : EdgeId} (h : ∀ e ∈ g.edges,
    e.delay.toNat + e.production.toNat * order.count e.source.node < Word.modulus) :
    g.written order id < Word.modulus := by
  cases he : g.edges[id]? with
  | none => simp [written, he, Word.modulus]
  | some e =>
    rw [written_of_getElem? he]
    exact h e (List.mem_of_getElem? he)

/-- Sizing any list of nodes as a fixed order succeeds exactly when the list finds its tokens, comes back
to the initial ones, and has no peak above the limit. The capacities are then the peaks, and no
capacities with less room on some edge can carry the list. In words nothing overflows on the way as long
as all that is written to an edge is a word. -/
theorem exists_capacities_iff (hg : g.Built) (horder : ∀ n ∈ order, n < g.nodes.length)
    (hfits : ∀ e ∈ g.edges,
      e.delay.toNat + e.production.toNat * order.count e.source.node < Word.modulus)
    (hmode : o.mode = .static) (r : Repetitions) :
    Machine.capacities g r order o = Machine.of (g.capacities r order o) ∧
      ((∃ capacities, g.capacities r order o = .ok capacities) ↔
        g.Legal order ∧ g.Returns order ∧ ∀ e ∈ g.edges, ∃ p, e.IsPeak order p ∧ o.Allows p) ∧
      ∀ capacities, g.capacities r order o = .ok capacities →
        g.ArePeaks order capacities ∧
        ∀ smaller : Array Nat, smaller.size = g.edges.length →
          (∀ id, Levels.of smaller id < Word.modulus) →
          (∃ (id : EdgeId) (p : Nat), capacities[id]? = some p ∧ Levels.of smaller id < p) →
            ∃ id n, g.verify (g.guardsOf order) smaller = .error (.unsatisfiable id n) ∧
              Machine.verify g order smaller = Machine.refuse (.unsatisfiable id n) := by
  have hcoherent := hg.coherent
  refine ⟨?_, ⟨?_, ?_⟩, fun capacities h ↦ ?_⟩
  · exact Machine.capacities_eq_of_static hcoherent horder (fun id ↦ written_lt_modulus hfits) hmode
  · rintro ⟨capacities, h⟩
    obtain ⟨-, hlegal, hreturns, harePeaks, hallows⟩ := arePeaks_of_capacities hcoherent hmode h
    refine ⟨hlegal, hreturns, fun e hmem ↦ ?_⟩
    obtain ⟨id, he⟩ := List.mem_iff_getElem?.mp hmem
    obtain ⟨p, hp, hisPeak⟩ := harePeaks.exists_peak he
    exact ⟨p, hisPeak, hallows p (List.mem_of_getElem? hp)⟩
  · rintro ⟨hlegal, hreturns, hlimit⟩
    exact exists_capacities_of_peaks hcoherent hmode hlegal hreturns hlimit
  · obtain ⟨-, -, -, harePeaks, -⟩ := arePeaks_of_capacities hcoherent hmode h
    refine ⟨harePeaks, fun smaller hsize hwords ⟨id, p, hp, hless⟩ ↦ ?_⟩
    have hlt : id < g.edges.length := harePeaks.length ▸ (List.getElem?_eq_some_iff.mp hp).1
    have he := List.getElem?_eq_getElem hlt
    obtain ⟨i, n, herror⟩ := exists_error_of_lt_peak hcoherent he (harePeaks.isPeak he hp) hless
    have hmachine := Machine.verify_eq hcoherent horder hsize hwords
    rw [herror, Machine.of_error] at hmachine
    exact ⟨i, n, herror, hmachine⟩

/-- Fired in turn with its sink, the source needs less room than when it ends its period first. The loop
holds the token that is taken and the one that is written. -/
theorem capacities_looped_in_turn :
    Machine.capacities Looped.graph ⟨[2, 3]⟩ [0, 1, 0, 1, 1] ⟨.static, 0, some 5⟩ = .ok [5, 2] ∧
      Looped.graph.ArePeaks [0, 1, 0, 1, 1] [5, 2] ∧
      (∃ id n, Machine.verify Looped.graph [0, 1, 0, 1, 1] #[9, 1] =
        Machine.refuse (.unsatisfiable id n)) ∧
      ¬ ∃ capacities,
        Looped.graph.capacities ⟨[2, 3]⟩ [0, 1, 0, 1, 1] ⟨.static, 0, some 4⟩ = .ok capacities := by
  have hnodes : ∀ n ∈ [0, 1, 0, 1, 1], n < Looped.graph.nodes.length := by decide
  have hsized (limit : UInt64) := exists_capacities_iff (o := ⟨.static, 0, some limit⟩)
    Looped.built_graph hnodes (by decide) rfl ⟨[2, 3]⟩
  have hcapacities :
      Looped.graph.capacities ⟨[2, 3]⟩ [0, 1, 0, 1, 1] ⟨.static, 0, some 5⟩ = .ok [5, 2] := by
    decide +kernel
  obtain ⟨hmachine, -, hpeaks⟩ := hsized 5
  obtain ⟨harePeaks, hsmaller⟩ := hpeaks _ hcapacities
  refine ⟨by rw [hmachine, hcapacities, Machine.of_ok], harePeaks, ?_, ?_⟩
  · have hwords (id : EdgeId) : Levels.of #[9, 1] id < Word.modulus := by
      rcases id with _ | _ | id
      · decide
      · decide
      · exact (by decide : 0 < Word.modulus)
    obtain ⟨id, n, -, hrefused⟩ := hsmaller #[9, 1] rfl hwords ⟨1, 2, rfl, by decide⟩
    exact ⟨id, n, hrefused⟩
  · rw [(hsized 4).2.1]
    rintro ⟨-, -, hlimit⟩
    obtain ⟨p, hp, hallows⟩ := hlimit _ List.mem_cons_self
    have hpeak := harePeaks.isPeak (rfl : Looped.graph.edges[0]? = some _) rfl
    have hfive : 5 = p := Int.ofNat_inj.mp (hpeak.unique hp)
    have hfour : p ≤ 4 := hallows 4 rfl
    omega

end Sizing

end Graph

end Dataflow
